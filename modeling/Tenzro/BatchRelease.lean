import Tenzro.Vertex

set_option autoImplicit false
set_option linter.dupNamespace false

/-!
# No batch is released twice

A released sequence lies below its author's release point, and only sequences
at or past the point are released.
-/
namespace Tenzro
open List SortedMap

def readyKey (e : ℕ × ValidatorIndex × ℕ × BatchRef) : ValidatorIndex × ℕ := (e.2.1, e.2.2.2.sequence)

def OrderedBatch.key (b : OrderedBatch) : ValidatorIndex × ℕ := (b.author, b.batch.sequence)

/-- Every waiting introduction is filed under its own sequence. -/
def AvailabilityState.Keyed (t : AvailabilityState) : Prop :=
  ∀ e ∈ t.early, ∀ i ∈ e.2, i.2.2.2.sequence = i.1

namespace Availability

/-- With `log` released before, nothing in it is ready again. -/
structure Once (log : List (ValidatorIndex × ℕ)) (s : Availability) : Prop where
  nodup : (log ++ s.ready.map readyKey).Nodup
  below : ∀ k ∈ log ++ s.ready.map readyKey, k.2 < s.releasedThrough k.1
  keyed : ∀ a q i, (s.earlyOf a).get? q = some i → i.2.2.sequence = q

variable {log : List (ValidatorIndex × ℕ)} {s : Availability}

theorem once_new : Once [] new where
  nodup := nodup_nil
  below k h := by cases h
  keyed a q i h := by cases h

theorem once_importState {t : AvailabilityState} (h : t.Keyed) : Once [] (importState t) where
  nodup := nodup_nil
  below k h := by cases h
  keyed a q i hi := by
    unfold earlyOf importState SortedMap.getD at hi
    cases he : (ofList (t.early.map (fun e =>
        (e.1, ofList (e.2.map (fun i => (i.1, (i.2.1, i.2.2.1, i.2.2.2)))))))).get? a with
    | none =>
      rw [he] at hi
      cases hi
    | some m =>
      rw [he] at hi
      obtain ⟨e, hmem, heq⟩ := mem_map.1 (mem_of_get?_ofList he)
      cases heq
      obtain ⟨j, hj, hjeq⟩ := mem_map.1 (mem_of_get?_ofList hi)
      cases hjeq
      exact h e hmem j hj

theorem earlyOf_insert (early : SortedMap ValidatorIndex (SortedMap ℕ Introduction))
    (next : SortedMap ValidatorIndex ℕ) (ready : List (ℕ × ValidatorIndex × ℕ × BatchRef))
    (author a : ValidatorIndex) (m : SortedMap ℕ Introduction) :
    (Availability.mk next (early.insert author m) ready).earlyOf a =
      if a = author then m else (Availability.mk next early ready).earlyOf a := by
  unfold earlyOf
  exact getD_insert ..

theorem Once.introduce (h : Once log s) (author : ValidatorIndex) (round position : ℕ)
    (b : BatchRef) : Once log (s.introduce author round position b) := by
  unfold Availability.introduce
  split_ifs with old
  · exact h
  · refine ⟨h.nodup, h.below, ?_⟩
    intro a q i hi
    rw [earlyOf_insert] at hi
    split_ifs at hi with same new
    · rw [get?_insert] at hi
      split_ifs at hi with here
      · cases hi
        exact here.symm
      · exact h.keyed author q i hi
    · exact h.keyed author q i hi
    · exact h.keyed a q i hi

theorem Once.introduceAll (h : Once log s) (round base : ℕ) (l : List (ValidatorIndex × BatchRef)) :
    Once log (s.introduceAll round base l) := by
  induction l generalizing s base with
  | nil => exact h
  | cons x l ih => exact ih (h.introduce x.1 round base x.2) (base + 1)

theorem drain_spec (author : ValidatorIndex) (n : ℕ) {early : SortedMap ℕ Introduction}
    (keyed : ∀ q i, early.get? q = some i → i.2.2.sequence = q) (next : ℕ) :
    next ≤ (drain author n early next).2.1 ∧
      (drain author n early next).2.2.map readyKey =
        (range' next ((drain author n early next).2.1 - next)).map (fun q => (author, q)) ∧
      ∀ q i, (drain author n early next).1.get? q = some i → early.get? q = some i := by
  induction n generalizing early next with
  | zero => exact ⟨le_refl _, by simp [drain], fun _ _ h => h⟩
  | succ n ih =>
    unfold drain
    cases hn : early.get? next with
    | none => exact ⟨le_refl _, by simp, fun _ _ h => h⟩
    | some x =>
      obtain ⟨round, position, b⟩ := x
      have less : ∀ q i, (early.erase next).get? q = some i → early.get? q = some i := by
        intro q i hq
        rw [get?_erase] at hq
        split_ifs at hq
        exact hq
      obtain ⟨le, keys, rest⟩ := ih (fun q i hq => keyed q i (less q i hq)) (next + 1)
      refine ⟨Nat.le_of_succ_le le, ?_, fun q i hq => less q i (rest q i hq)⟩
      have here : b.sequence = next := keyed next _ hn
      have count : (drain author n (early.erase next) (next + 1)).2.1 - next =
          ((drain author n (early.erase next) (next + 1)).2.1 - (next + 1)) + 1 := by omega
      dsimp only
      rw [map_cons, keys, count, range'_succ, map_cons]
      simp [readyKey, here]

theorem Once.drainFrom (h : Once log s) {author : ValidatorIndex} {next : ℕ}
    (le : s.releasedThrough author ≤ next) : Once log (s.drainFrom author next) := by
  have through : ∀ (m : ℕ) (a : ValidatorIndex) (early : SortedMap ValidatorIndex _) (ready : List _),
      (Availability.mk (s.next.insert author m) early ready).releasedThrough a =
        if a = author then m else s.releasedThrough a :=
    fun m a early ready => getD_insert ..
  unfold Availability.drainFrom
  cases he : s.early.get? author with
  | none =>
    refine ⟨h.nodup, ?_, h.keyed⟩
    intro k hk
    rw [through]
    have := h.below k hk
    split_ifs with same
    · rw [same] at this
      omega
    · exact this
  | some early =>
    have mine : s.earlyOf author = early := by
      unfold earlyOf SortedMap.getD
      rw [he]
      rfl
    obtain ⟨grow, keys, rest⟩ := drain_spec author early.size
      (fun q i hq => h.keyed author q i (by rw [mine]; exact hq)) next
    refine ⟨?_, ?_, ?_⟩
    · dsimp only
      rw [map_append, keys, ← append_assoc, nodup_append]
      refine ⟨h.nodup, ?_, ?_⟩
      · exact (nodup_range' ..).map (fun a b hab => congrArg Prod.snd hab)
      · intro x hx y hy
        obtain ⟨q, hq, rfl⟩ := mem_map.1 hy
        have low := h.below x hx
        rintro rfl
        have := (mem_range'_1.1 hq).1
        dsimp only at low
        omega
    · intro k hk
      dsimp only at hk ⊢
      rw [map_append, keys, ← append_assoc] at hk
      rw [through]
      cases mem_append.1 hk with
      | inl old =>
        have low := h.below k old
        split_ifs with same
        · rw [same] at low
          exact low.trans_le (le.trans grow)
        · exact low
      | inr new =>
        obtain ⟨q, hq, rfl⟩ := mem_map.1 new
        rw [if_pos rfl]
        exact (mem_range'_1.1 hq).2.trans_eq (Nat.add_sub_cancel' grow)
    · intro a q i hi
      dsimp only at hi
      rw [earlyOf_insert] at hi
      split_ifs at hi with same
      · refine h.keyed author q i ?_
        rw [mine]
        exact rest q i hi
      · exact h.keyed a q i hi

theorem Once.advance (h : Once log s) (author : ValidatorIndex) : Once log (s.advance author) :=
  h.drainFrom (le_refl _)

theorem Once.onOrdered (h : Once log s) (v : Vertex) : Once log (s.onOrdered v) :=
  (h.introduceAll v.round 0 _).advance v.source

theorem Once.onCarried (h : Once log s) (v : Vertex) : Once log (s.onCarried v) := by
  have fold : ∀ (l : List ValidatorIndex) (s : Availability), Once log s →
      Once log (l.foldl Availability.advance s) := by
    intro l
    induction l with
    | nil => exact fun _ h => h
    | cons a l ih => exact fun s h => ih _ (h.advance a)
  exact fold _ _ (h.introduceAll _ _ _)

theorem Once.touched (h : Once log s) (author : ValidatorIndex) :
    Once log { s with next := s.next.insert author (s.releasedThrough author) } := by
  refine ⟨h.nodup, fun k hk => ?_, h.keyed⟩
  have below := h.below k hk
  unfold releasedThrough at below ⊢
  rw [getD_insert]
  split_ifs with here
  · rw [← here]
    exact below
  · exact below

theorem Once.expireGap (h : Once log s) (floor : ℕ) (author : ValidatorIndex) :
    Once log (s.expireGap floor author) := by
  unfold Availability.expireGap
  split
  · exact h
  · dsimp only
    split_ifs with wait
    · exact h.touched author
    · push Not at wait
      exact (h.touched author).drainFrom wait.2.le

theorem Once.expireGaps (h : Once log s) (floor : ℕ) : Once log (s.expireGaps floor) := by
  have fold : ∀ (l : List ValidatorIndex) (s : Availability), Once log s →
      Once log (l.foldl (fun s a => s.expireGap floor a) s) := by
    intro l
    induction l with
    | nil => exact fun _ h => h
    | cons a l ih => exact fun s h => ih _ (h.expireGap floor a)
  exact fold _ _ h

theorem Once.release (h : Once log s) :
    Once (log ++ s.release.2.map OrderedBatch.key) s.release.1 := by
  have perm : (s.release.2.map OrderedBatch.key).Perm (s.ready.map readyKey) := by
    unfold Availability.release
    rw [map_map]
    exact (perm_insertionSort readyLe s.ready).map readyKey
  have whole := Perm.append_left log perm
  refine ⟨?_, ?_, h.keyed⟩
  · have : ((log ++ s.release.2.map OrderedBatch.key) ++ [].map readyKey).Nodup := by
      rw [map_nil, append_nil, whole.nodup_iff]
      exact h.nodup
    exact this
  · intro k hk
    refine h.below k (whole.mem_iff.1 ?_)
    simpa [Availability.release] using hk

theorem Once.exportState (h : Once log s) : s.exportState.Keyed := by
  intro e he i hi
  obtain ⟨x, hx, rfl⟩ := mem_map.1 he
  obtain ⟨j, hj, rfl⟩ := mem_map.1 hi
  have here := mem_entries.1 (mem_filter.1 hx).1
  have mine : s.earlyOf x.1 = x.2 := by
    unfold earlyOf SortedMap.getD
    rw [here]
    rfl
  refine h.keyed x.1 j.1 j.2 ?_
  rw [mine]
  exact mem_entries.1 hj

end Availability

end Tenzro
