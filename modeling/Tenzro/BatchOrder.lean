import Tenzro.BatchRelease
import Tenzro.CoreOrdering
import Tenzro.BroadcastAgreement

set_option autoImplicit false
set_option linter.dupNamespace false

/-!
# The order an author's batches are released in

An author's batches become ready in sequence order; a release then sorts them
by the round and position of their introductions.
-/
namespace Tenzro
open List

/-- What one commit orders: the history's vertices, the anchor and the floor of the DAG. -/
structure OrderedHistory where
  history : List Vertex
  anchor : Vertex
  floor : ℕ

def OrderedHistory.vertices (o : OrderedHistory) : List Vertex := o.anchor :: o.history

/-- A batch of one author comes after those of its lower sequences. -/
def FollowsKey (k k' : ValidatorIndex × ℕ) : Prop := k.1 = k'.1 → k.2 < k'.2

namespace Availability

instance : Std.Total readyLe := ⟨fun _ _ => le_total _ _⟩

instance : IsTrans _ readyLe := ⟨fun _ _ _ h h' => le_trans h h'⟩

/-- The calls of a commit before it releases. -/
def account (s : Availability) (o : OrderedHistory) : Availability :=
  ((o.history.foldl onOrdered s).onCarried o.anchor).expireGaps o.floor

def releases : Availability → List OrderedHistory → List OrderedBatch
  | _, [] => []
  | s, o :: l => (s.account o).release.2 ++ (s.account o).release.1.releases l

def releasing : Availability → List OrderedHistory → List Availability
  | _, [] => []
  | s, o :: l => s.account o :: (s.account o).release.1.releasing l

def sequencesOf (author : ValidatorIndex) (released : List OrderedBatch) : List ℕ :=
  (released.filter (fun b => b.author = author)).map (fun b => b.batch.sequence)

def readyOf (s : Availability) (author : ValidatorIndex) :
    List (ℕ × ValidatorIndex × ℕ × BatchRef) :=
  s.ready.filter (fun e => e.2.1 = author)

/-- Along the batches `author` has ready, in sequence order, neither the introducing round
falls nor, within a round, the position. -/
def NeverFallsBack (s : Availability) (author : ValidatorIndex) : Prop :=
  (s.readyOf author).Pairwise (fun x y => toLex (x.1, x.2.2.1) ≤ toLex (y.1, y.2.2.1))

/-- With `log` released before, what is ready comes after it and in sequence order. -/
structure InSequence (log : List (ValidatorIndex × ℕ)) (s : Availability) : Prop where
  once : Once log s
  ordered : (s.ready.map readyKey).Pairwise FollowsKey
  after : ∀ k ∈ log, ∀ k' ∈ s.ready.map readyKey, FollowsKey k k'

variable {log : List (ValidatorIndex × ℕ)} {s : Availability}

theorem inSequence_new : InSequence [] new where
  once := once_new
  ordered := List.Pairwise.nil
  after k mem := by cases mem

theorem InSequence.of_ready (h : InSequence log s) {s' : Availability} (once : Once log s')
    (same : s'.ready = s.ready) : InSequence log s' where
  once := once
  ordered := by
    rw [same]
    exact h.ordered
  after := by
    rw [same]
    exact h.after

theorem ready_introduceAll (round : ℕ) (l : List (ValidatorIndex × BatchRef)) :
    ∀ (s : Availability) (base : ℕ), (s.introduceAll round base l).ready = s.ready := by
  induction l with
  | nil => exact fun _ _ => rfl
  | cons x l ih =>
    intro s base
    refine (ih (s.introduce x.1 round base x.2) (base + 1)).trans ?_
    unfold introduce
    split_ifs
    · rfl
    · rfl

theorem ready_drainFrom (keyed : ∀ a q i, (s.earlyOf a).get? q = some i → i.2.2.sequence = q)
    (author : ValidatorIndex) (next : ℕ) :
    ∃ n, (s.drainFrom author next).ready.map readyKey =
      s.ready.map readyKey ++ (range' next n).map (fun q => (author, q)) := by
  unfold drainFrom
  cases waiting : s.early.get? author with
  | none => exact ⟨0, by simp⟩
  | some early =>
    have mine : s.earlyOf author = early := by
      unfold earlyOf SortedMap.getD
      rw [waiting]
      rfl
    obtain ⟨-, keys, -⟩ := drain_spec author early.size
      (fun q i found => keyed author q i (by rw [mine]; exact found)) next
    refine ⟨(drain author early.size early next).2.1 - next, ?_⟩
    rw [map_append, keys]

theorem InSequence.drainFrom (h : InSequence log s) {author : ValidatorIndex} {next : ℕ}
    (le : s.releasedThrough author ≤ next) : InSequence log (s.drainFrom author next) := by
  obtain ⟨n, keys⟩ := ready_drainFrom h.once.keyed author next
  have past : ∀ k ∈ log ++ s.ready.map readyKey,
      ∀ k' ∈ (range' next n).map (fun q => (author, q)), FollowsKey k k' := by
    intro k old k' fresh same
    obtain ⟨q, range, rfl⟩ := mem_map.1 fresh
    have low := h.once.below k old
    have high := (mem_range'_1.1 range).1
    simp only at same
    rw [same] at low
    simp only
    omega
  refine ⟨h.once.drainFrom le, ?_, ?_⟩
  · rw [keys, pairwise_append]
    refine ⟨h.ordered, ?_, fun k old => past k (mem_append_right _ old)⟩
    rw [pairwise_map]
    refine (sortedLT_range' next n one_ne_zero).pairwise.imp ?_
    intro q q' lt _
    exact lt
  · intro k old k' mem
    rw [keys] at mem
    cases mem_append.1 mem with
    | inl ready => exact h.after k old k' ready
    | inr fresh => exact past k (mem_append_left _ old) k' fresh

theorem InSequence.advance (h : InSequence log s) (author : ValidatorIndex) :
    InSequence log (s.advance author) :=
  h.drainFrom (le_refl _)

theorem InSequence.introduceAll (h : InSequence log s) (round base : ℕ)
    (l : List (ValidatorIndex × BatchRef)) : InSequence log (s.introduceAll round base l) :=
  h.of_ready (h.once.introduceAll round base l) (ready_introduceAll round l s base)

theorem InSequence.onOrdered (h : InSequence log s) (v : Vertex) : InSequence log (s.onOrdered v) :=
  (h.introduceAll v.round 0 _).advance v.source

theorem InSequence.onCarried (h : InSequence log s) (v : Vertex) :
    InSequence log (s.onCarried v) :=
  foldlRecOn _ _ (h.introduceAll _ _ _) (fun _ kept a _ => kept.advance a)

theorem InSequence.expireGap (h : InSequence log s) (floor : ℕ) (author : ValidatorIndex) :
    InSequence log (s.expireGap floor author) := by
  have touched := h.of_ready (h.once.touched author) rfl
  unfold Availability.expireGap
  split
  · exact h
  · dsimp only
    split_ifs with wait
    · exact touched
    · push Not at wait
      exact touched.drainFrom wait.2.le

theorem InSequence.expireGaps (h : InSequence log s) (floor : ℕ) :
    InSequence log (s.expireGaps floor) :=
  foldlRecOn _ _ h (fun _ kept a _ => kept.expireGap floor a)

theorem InSequence.account (h : InSequence log s) (o : OrderedHistory) :
    InSequence log (s.account o) :=
  ((foldlRecOn _ _ h (fun _ kept v _ => kept.onOrdered v)).onCarried o.anchor).expireGaps
    o.floor

theorem InSequence.readyOf (h : InSequence log s) (author : ValidatorIndex) :
    (s.readyOf author).Pairwise (fun x y => x.2.2.2.sequence < y.2.2.2.sequence) := by
  have ordered := pairwise_map.1 h.ordered
  refine pairwise_filter.2 (ordered.imp (fun {x y} follows hx hy => follows ?_))
  simp only [decide_eq_true_eq] at hx hy
  exact hx.trans hy.symm

theorem sequencesOf_append (author : ValidatorIndex) (l l' : List OrderedBatch) :
    sequencesOf author (l ++ l') = sequencesOf author l ++ sequencesOf author l' := by
  unfold sequencesOf
  rw [filter_append, map_append]

theorem sequencesOf_release (s : Availability) (author : ValidatorIndex) :
    sequencesOf author s.release.2 =
      ((s.ready.insertionSort readyLe).filter (fun e => e.2.1 = author)).map
        (fun e => e.2.2.2.sequence) := by
  unfold sequencesOf release
  rw [filter_map, map_map]
  rfl

theorem readyLe_of_author {x y : ℕ × ValidatorIndex × ℕ × BatchRef} (same : x.2.1 = y.2.1) :
    readyLe x y ↔ toLex (x.1, x.2.2.1) ≤ toLex (y.1, y.2.2.1) := by
  unfold readyLe
  rw [same, Prod.Lex.toLex_le_toLex, Prod.Lex.toLex_le_toLex, Prod.Lex.toLex_le_toLex]
  simp

theorem neverFallsBack_iff {author : ValidatorIndex} :
    s.NeverFallsBack author ↔ (s.readyOf author).Pairwise readyLe := by
  have authored : ∀ e ∈ s.readyOf author, e.2.1 = author := by
    intro e mem
    simpa using (mem_filter.1 mem).2
  unfold NeverFallsBack
  refine List.Pairwise.iff_of_mem (fun {x y} hx hy => (readyLe_of_author ?_).symm)
  rw [authored x hx, authored y hy]

/-- The sort keeps an author's batches in sequence order exactly when their introductions
already stand in order. -/
theorem InSequence.released (h : InSequence log s) (author : ValidatorIndex) :
    (sequencesOf author s.release.2).Pairwise (· < ·) ↔ s.NeverFallsBack author := by
  have ordered := h.readyOf author
  have sorted := pairwise_insertionSort readyLe s.ready
  have perm := (perm_insertionSort readyLe s.ready).filter (fun e => e.2.1 = author)
  rw [sequencesOf_release, neverFallsBack_iff, pairwise_map]
  constructor
  · intro ascending
    have same := perm.eq_of_pairwise (fun x y _ _ lt gt => absurd lt (lt_asymm gt)) ascending ordered
    rw [← same]
    exact sorted.filter _
  · intro placed
    have kept := sublist_insertionSort placed filter_sublist
    have within := kept.filter (fun e => e.2.1 = author)
    rw [Availability.readyOf, filter_filter] at within
    simp only [Bool.and_self] at within
    rw [← within.eq_of_length perm.length_eq.symm]
    exact ordered

theorem InSequence.release (h : InSequence log s) :
    InSequence (log ++ s.release.2.map OrderedBatch.key) s.release.1 where
  once := h.once.release
  ordered := List.Pairwise.nil
  after k _ k' mem := by cases mem

theorem mem_sequencesOf {author : ValidatorIndex} {q : ℕ} {l : List OrderedBatch} :
    q ∈ sequencesOf author l ↔ (author, q) ∈ l.map OrderedBatch.key := by
  simp [sequencesOf, OrderedBatch.key, and_assoc]

theorem InSequence.releases_after {author : ValidatorIndex} {q : ℕ} (l : List OrderedHistory)
    (h : InSequence log s) (old : (author, q) ∈ log) :
    ∀ q' ∈ sequencesOf author (s.releases l), q < q' := by
  induction l generalizing log s with
  | nil => exact fun q' mem => absurd mem not_mem_nil
  | cons o l ih =>
    intro q' mem
    have accounted := h.account o
    rw [releases, sequencesOf_append, mem_append] at mem
    cases mem with
    | inl now =>
      rw [mem_sequencesOf] at now
      have ready : (author, q') ∈ (s.account o).ready.map readyKey := by
        unfold Availability.release at now
        rw [map_map] at now
        exact ((perm_insertionSort readyLe _).map readyKey).mem_iff.1 now
      exact accounted.after _ old _ ready rfl
    | inr later => exact ih accounted.release (mem_append_left _ old) q' later

theorem InSequence.ascending {author : ValidatorIndex} (l : List OrderedHistory)
    (h : InSequence log s) :
    (sequencesOf author (s.releases l)).Pairwise (· < ·) ↔
      ∀ s' ∈ s.releasing l, s'.NeverFallsBack author := by
  induction l generalizing log s with
  | nil => exact ⟨fun _ s' mem => absurd mem not_mem_nil, fun _ => List.Pairwise.nil⟩
  | cons o l ih =>
    have accounted := h.account o
    rw [releases, releasing, sequencesOf_append, pairwise_append, accounted.released author,
      ih accounted.release, forall_mem_cons]
    refine ⟨fun both => ⟨both.1, both.2.1⟩, fun both => ⟨both.1, both.2, fun q now q' later => ?_⟩⟩
    exact accounted.release.releases_after l
      (mem_append_right _ (mem_sequencesOf.1 now)) q' later

/-- An author's batches are released in sequence order exactly when, at every release, its ready
batches were introduced in that order. -/
theorem released_in_sequence (author : ValidatorIndex) (l : List OrderedHistory) :
    (sequencesOf author (new.releases l)).Pairwise (· < ·) ↔
      ∀ s ∈ new.releasing l, s.NeverFallsBack author :=
  inSequence_new.ascending l

/-- Member 1, a leader of round 3, carries batch 1 of member 0; member 0 introduces batches 0 and 1
in round 4. -/
def carriedEarly : List OrderedHistory :=
  let vertex (round source : ℕ) (batches : List BatchRef) (carried : List CarriedBatch) : Vertex :=
    ⟨0, round, source, [⟨round - 1, 0, 0⟩, ⟨round - 1, 1, 1⟩, ⟨round - 1, 2, 2⟩], [], batches,
      carried, 0⟩
  let batch (sequence : ℕ) : BatchRef := ⟨sequence, sequence, 5, 1⟩
  let first := vertex 3 1 [] [⟨0, batch 1⟩]
  let second := vertex 5 2 [] []
  [⟨[first], first, 0⟩, ⟨[vertex 4 0 [batch 0, batch 1] [], second], second, 0⟩]

theorem carriedEarly_not_in_sequence :
    (∀ o ∈ carriedEarly, ∀ v ∈ o.vertices, v.wellFormed Network.fourSeats = true) ∧
      sequencesOf 0 (new.releases carriedEarly) = [1, 0] ∧
      ¬ (sequencesOf 0 (new.releases carriedEarly)).Pairwise (· < ·) := by
  decide +kernel

end Availability

end Tenzro
