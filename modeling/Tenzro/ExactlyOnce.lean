import Tenzro.BatchRelease
import Tenzro.CoreRuns

set_option autoImplicit false
set_option linter.dupNamespace false
set_option linter.unusedSectionVars false

/-!
# Everything is ordered exactly once

No vertex and no batch is released twice, and the segments take consecutive
heights at times that never go back.
-/
namespace Tenzro
open Function List

/-- The place of `x` among the known values, or its code past them. -/
def nameIn {α : Type} [DecidableEq α] (known : List α) (code : α → ℕ) (x : α) : ℕ :=
  if x ∈ known then known.idxOf x else known.length + code x

theorem nameIn_injective {α : Type} [DecidableEq α] (known : List α) {code : α → ℕ}
    (inj : Injective code) : Injective (nameIn known code) := by
  intro x y h
  unfold nameIn at h
  split_ifs at h with hx hy hy
  · exact (idxOf_inj hx).1 h
  · have := idxOf_lt_length_of_mem hx
    omega
  · have := idxOf_lt_length_of_mem hy
    omega
  · exact inj (Nat.add_left_cancel h)

def VertexRef.fields (r : VertexRef) : ℕ × ℕ × ℕ := (r.round, r.source, r.digest)

def BatchRef.fields (b : BatchRef) : ℕ × ℕ × ℕ × ℕ := (b.sequence, b.digest, b.bytes, b.transactions)

theorem VertexRef.fields_injective : Injective VertexRef.fields := by
  rintro ⟨⟩ ⟨⟩ h
  simpa [fields] using h

theorem BatchRef.fields_injective : Injective BatchRef.fields := by
  rintro ⟨⟩ ⟨⟩ h
  simpa [fields] using h

def CarriedBatch.fields (x : CarriedBatch) : ℕ × ℕ × ℕ × ℕ × ℕ := (x.author, x.batch.fields)

theorem CarriedBatch.fields_injective : Injective CarriedBatch.fields := by
  rintro ⟨a, x⟩ ⟨b, y⟩ h
  simp only [fields, Prod.mk.injEq] at h
  rw [h.1, BatchRef.fields_injective h.2]

def Vertex.code (v : Vertex) : ℕ :=
  Encodable.encode (v.epoch, v.round, v.source, v.strong.map VertexRef.fields,
    v.weak.map VertexRef.fields, v.batches.map BatchRef.fields,
    v.carried.map CarriedBatch.fields, v.timestampMs)

theorem Vertex.code_injective : Injective Vertex.code := by
  rintro ⟨⟩ ⟨⟩ h
  have fields := Encodable.encode_injective h
  simp only [Prod.mk.injEq, (map_injective_iff.2 VertexRef.fields_injective).eq_iff,
    (map_injective_iff.2 BatchRef.fields_injective).eq_iff,
    (map_injective_iff.2 CarriedBatch.fields_injective).eq_iff] at fields
  obtain ⟨rfl, rfl, rfl, rfl, rfl, rfl, rfl, rfl⟩ := fields
  rfl

def BatchPayload.code (p : BatchPayload) : ℕ :=
  Encodable.encode (p.epoch, p.author, p.sequence, p.transactions, p.body)

theorem BatchPayload.code_injective : Injective BatchPayload.code := by
  rintro ⟨⟩ ⟨⟩ h
  have fields := Encodable.encode_injective h
  simp only [Prod.mk.injEq] at fields
  obtain ⟨rfl, rfl, rfl, rfl, rfl⟩ := fields
  rfl

@[reducible] def namedHashing (vertices : List Vertex) (payloads : List BatchPayload) : Hashing where
  vertexDigest := nameIn vertices Vertex.code
  batchDigest := nameIn payloads BatchPayload.code
  drawHash _ round slot := round + slot
  epochSeed epoch d := epoch + d
  leaderSeed d := d
  checkpointDigest cp := 1000 + cp.index
  sessionDigest s := s.validator
  orderingDigest s := s.index
  merkleRoot l := l.foldl (fun h d => 31 * h + d) 7
  orderingSeed seed index height d := seed + index + height + d
  signsSession _ _ := true
  signsVote _ _ _ := true
  agreeSession _ _ := true
  agreeVote _ _ _ := true

theorem namedHashing_vertex (vertices : List Vertex) (payloads : List BatchPayload) :
    Injective (namedHashing vertices payloads).vertexDigest :=
  nameIn_injective vertices Vertex.code_injective

theorem namedHashing_batch (vertices : List Vertex) (payloads : List BatchPayload) :
    Injective (namedHashing vertices payloads).batchDigest :=
  nameIn_injective payloads BatchPayload.code_injective

end Tenzro

namespace Tenzro
open List Function SortedMap
variable [Hashing]

namespace Dag

@[simp] theorem floor_expect (g : Dag) (d : Digest) (r : ℕ) : (g.expect d r).floor = g.floor := by
  unfold expect
  split_ifs <;> rfl

theorem floor_of_names {g g' : Dag} (h : g'.names = g.names) : g'.floor = g.floor :=
  congrArg (fun x => x.2.2) h

theorem floor_reach {g : Dag} (h : Sound g) (work : ReachWork) : (g.reach work).floor = g.floor :=
  floor_of_names (reach_sound h work).2

theorem floor_enter (g : Dag) (r : VertexRef) : (g.enter r).1.floor = g.floor := by
  unfold enter
  split
  · rfl
  · dsimp only
    split_ifs <;> rfl

theorem floor_enterAll (g : Dag) (rs : List VertexRef) : (g.enterAll rs).1.floor = g.floor := by
  have fold : ∀ (rs : List VertexRef) (acc : Dag × List VertexRef),
      (rs.foldl (fun acc r => ((acc.1.enter r).1, acc.2 ++ (acc.1.enter r).2)) acc).1.floor =
        acc.1.floor := by
    intro rs
    induction rs with
    | nil => exact fun _ => rfl
    | cons r rs ih => exact fun acc => (ih _).trans (floor_enter acc.1 r)
  exact fold rs (g, [])

theorem floor_drainLoop (n : ℕ) (g : Dag) (inserted : List VertexRef) :
    (drainLoop n g inserted).1.floor = g.floor := by
  induction n generalizing g inserted with
  | zero => rfl
  | succ n ih =>
    unfold drainLoop
    split
    · rfl
    · exact (ih _ _).trans (floor_enterAll g _)

theorem floor_offer {g : Dag} (h : Sound g) (v : Vertex) : (g.offer v).1.floor = g.floor := by
  unfold offer
  dsimp only
  split_ifs with out unexpected
  · rfl
  · rfl
  · push Not at out
    have taken : Sound { g with
        expected := g.expected.erase v.digest, held := g.held.erase v.digest } := by
      refine h.of_names rfl h.pending ?_
      intro d w hw
      simp only [get?_erase] at hw
      split_ifs at hw
      exact h.held d w hw
    exact (floor_drainLoop _ _ _).trans (floor_reach (sound_accept taken rfl out.2) _)

theorem floor_hold {g : Dag} (h : Sound g) (v : Vertex) : (g.hold v).1.floor = g.floor := by
  unfold hold
  dsimp only
  split_ifs with out
  · rfl
  · exact floor_offer h v
  all_goals
    push Not at out
    have held : Sound { g with held := g.held.insert v.digest v } := by
      refine h.of_names rfl h.pending ?_
      intro d w hw
      simp only [get?_insert] at hw
      split_ifs at hw with same
      · cases hw
        exact ⟨same.symm, out.2.2⟩
      · exact h.held d w hw
    exact (floor_drainLoop _ _ _).trans (floor_reach held _)

end Dag

/-- What was released is still marked as ordered, or lies below the floor for good. -/
structure ReleasedOnce (g : Dag) (ordered : SortedMap Digest ℕ) (released : List VertexRef) :
    Prop where
  sound : g.Sound
  nodup : (released.map VertexRef.digest).Nodup
  marked : ∀ r ∈ released, (ordered.get? r.digest = some r.round ∨ r.round < g.floor) ∧
    ∃ v : Vertex, v.digest = r.digest ∧ v.round = r.round

namespace ReleasedOnce

variable {g : Dag} {ordered : SortedMap Digest ℕ} {released : List VertexRef}

theorem keep {g' : Dag} (h : ReleasedOnce g ordered released) (sound : g'.Sound)
    (floor : g'.floor = g.floor) : ReleasedOnce g' ordered released :=
  ⟨sound, h.nodup, by rw [floor]; exact h.marked⟩

theorem prune (h : ReleasedOnce g ordered released) (n : ℕ) :
    ReleasedOnce (g.pruneBelow n).1 (ordered.filter (fun _ r => n ≤ r)) released := by
  refine ⟨Dag.sound_pruneBelow h.sound n, h.nodup, ?_⟩
  intro r hr
  obtain ⟨mark, real⟩ := h.marked r hr
  refine ⟨?_, real⟩
  rw [Dag.floor_pruneBelow]
  by_cases low : n ≤ r.round
  · cases mark with
    | inl here =>
      refine .inl (get?_filter_eq_some.2 ⟨here, ?_⟩)
      simpa using low
    | inr below => exact .inr (lt_max_of_lt_left below)
  · exact .inr (lt_max_of_lt_right (not_le.1 low))

theorem get?_marks (l : List VertexRef) (m : SortedMap Digest ℕ) (d : Digest) :
    (∃ r ∈ l, r.digest = d ∧
      (l.foldl (fun m r => m.insert r.digest r.round) m).get? d = some r.round) ∨
    ((∀ r ∈ l, r.digest ≠ d) ∧
      (l.foldl (fun m r => m.insert r.digest r.round) m).get? d = m.get? d) := by
  induction l generalizing m with
  | nil => exact .inr ⟨fun _ h => absurd h not_mem_nil, rfl⟩
  | cons a l ih =>
    rw [foldl_cons]
    cases ih (m.insert a.digest a.round) with
    | inl found =>
      obtain ⟨r, hr, hd, hg⟩ := found
      exact .inl ⟨r, mem_cons_of_mem a hr, hd, hg⟩
    | inr absent =>
      by_cases same : a.digest = d
      · refine .inl ⟨a, mem_cons_self, same, ?_⟩
        rw [absent.2, ← same]
        exact get?_insert_self ..
      · refine .inr ⟨?_, ?_⟩
        · intro r hr
          cases mem_cons.1 hr with
          | inl here => exact here ▸ same
          | inr later => exact absent.1 r later
        · rw [absent.2]
          exact get?_insert_of_ne _ _ (Ne.symm same)

theorem order (inj : Injective VertexHash.vertexDigest)
    (h : ReleasedOnce g ordered released) (root : Digest) :
    ReleasedOnce g
      ((g.causalHistory root ordered.contains).foldl (fun m r => m.insert r.digest r.round) ordered)
      (released ++ g.causalHistory root ordered.contains) := by
  have inside : ∀ r ∈ g.causalHistory root ordered.contains,
      ordered.get? r.digest = none ∧
        ∃ v : Vertex, v.digest = r.digest ∧ v.round = r.round ∧ g.floor ≤ v.round := by
    intro r hr
    obtain ⟨skip, v, hv, round, -⟩ := Dag.mem_causalHistory hr
    obtain ⟨hd, hf, -⟩ := h.sound.get hv
    exact ⟨contains_eq_false.1 skip, v, hd, round.symm, hf⟩
  refine ⟨h.sound, ?_, ?_⟩
  · rw [map_append, nodup_append]
    refine ⟨h.nodup, Dag.nodup_causalHistory .., ?_⟩
    intro x hx y hy same
    obtain ⟨r, hr, rfl⟩ := mem_map.1 hx
    obtain ⟨s, hs, rfl⟩ := mem_map.1 hy
    obtain ⟨mark, v, hv, hvr⟩ := h.marked r hr
    obtain ⟨unmarked, w, hw, hwr, above⟩ := inside s hs
    cases mark with
    | inl here =>
      rw [same, unmarked] at here
      cases here
    | inr below =>
      -- The two vertices have one digest, so they are one vertex.
      have one : v = w := inj (hv.trans (same.trans hw.symm))
      rw [one] at hvr
      omega
  · intro r hr
    cases mem_append.1 hr with
    | inl old =>
      obtain ⟨mark, real⟩ := h.marked r old
      refine ⟨?_, real⟩
      cases mark with
      | inr below => exact .inr below
      | inl here =>
        refine .inl ?_
        cases get?_marks (g.causalHistory root ordered.contains) ordered r.digest with
        | inl found =>
          obtain ⟨s, hs, hd, -⟩ := found
          have := (inside s hs).1
          rw [hd, here] at this
          cases this
        | inr absent => rw [absent.2, here]
    | inr new =>
      obtain ⟨-, v, hv, hvr, -⟩ := inside r new
      refine ⟨.inl ?_, v, hv, hvr⟩
      cases get?_marks (g.causalHistory root ordered.contains) ordered r.digest with
      | inl found =>
        obtain ⟨s, hs, hd, hg⟩ := found
        obtain ⟨-, w, hw, hwr, -⟩ := inside s hs
        have one : w = v := inj (hw.trans (hd.trans hv.symm))
        rw [hg, ← hwr, one, hvr]
      | inr absent => exact absurd rfl (absent.1 r new)

end ReleasedOnce

namespace Core

def releases (c : Core) :
    Dag × SortedMap Digest ℕ × List VertexRef × Availability × List OrderedBatch ×
      List OrderingState :=
  (c.dag, c.ordered, c.released, c.availability, c.releasedBatches, c.sealedStates)

theorem releases_settleBatches (c : Core) (anchor : VertexRef) (released : List OrderedBatch) :
    (c.settleBatches anchor released).releases = c.releases := rfl

theorem releases_makeBlocks (c : Core) (anchor : VertexRef) (t n : ℕ)
    (released : List OrderedBatch) : (c.makeBlocks anchor t n released).releases = c.releases := rfl

theorem releases_takeCheckpoint (c : Core) (anchor : VertexRef) (t : ℕ) :
    (c.takeCheckpoint anchor t).releases = c.releases := by
  unfold takeCheckpoint
  dsimp only
  split_ifs <;> rfl

/-- The vertices and batches of a core are released once. -/
structure Once (c : Core) : Prop where
  vertices : ReleasedOnce c.dag c.ordered c.released
  batches : c.availability.Once (c.releasedBatches.map OrderedBatch.key)
  states : ∀ state ∈ c.sealedStates, state.availability.Keyed

theorem Once.of_releases {c c' : Core} (h : c.Once) (same : c'.releases = c.releases) :
    c'.Once := by
  have dag : c'.dag = c.dag := congrArg (fun x => x.1) same
  have ordered : c'.ordered = c.ordered := congrArg (fun x => x.2.1) same
  have released : c'.released = c.released := congrArg (fun x => x.2.2.1) same
  have availability : c'.availability = c.availability := congrArg (fun x => x.2.2.2.1) same
  have batches : c'.releasedBatches = c.releasedBatches := congrArg (fun x => x.2.2.2.2.1) same
  have states : c'.sealedStates = c.sealedStates := congrArg (fun x => x.2.2.2.2.2) same
  refine ⟨?_, ?_, states ▸ h.states⟩
  · rw [dag, ordered, released]
    exact h.vertices
  · rw [availability, batches]
    exact h.batches

theorem once_fresh {c : Core} (sound : c.dag.Sound) (none : c.released = [])
    (empty : c.releasedBatches = []) (states : c.sealedStates = [])
    (batches : c.availability.Once []) : c.Once := by
  refine ⟨⟨sound, ?_, ?_⟩, ?_, by rw [states]; exact forall_mem_nil _⟩
  · rw [none]
    exact nodup_nil
  · rw [none]
    intro r hr
    cases hr
  · rw [empty]
    exact batches

theorem once_orderHistory (inj : Injective VertexHash.vertexDigest) {c : Core}
    (h : c.Once) (anchor : VertexRef) : (c.orderHistory anchor).Once := by
  have ordered : ∀ (l : List Vertex) (s : Availability),
      s.Once (c.releasedBatches.map OrderedBatch.key) →
      (l.foldl Availability.onOrdered s).Once (c.releasedBatches.map OrderedBatch.key) := by
    intro l
    induction l with
    | nil => exact fun _ h => h
    | cons v l ih => exact fun s h => ih _ (h.onOrdered v)
  have carried : (c.availabilityOf anchor).Once (c.releasedBatches.map OrderedBatch.key) := by
    unfold availabilityOf
    refine Availability.Once.expireGaps ?_ _
    cases c.dag.get anchor.digest with
    | none => exact ordered _ _ h.batches
    | some v => exact (ordered _ _ h.batches).onCarried v
  refine ⟨h.vertices.order inj anchor.digest, ?_, h.states⟩
  have log : (c.orderHistory anchor).releasedBatches.map OrderedBatch.key =
      c.releasedBatches.map OrderedBatch.key ++
        (c.availabilityOf anchor).release.2.map OrderedBatch.key := map_append
  rw [log]
  exact carried.release

theorem once_collectGarbage {c : Core} (h : c.Once) (r : ℕ) : (c.collectGarbage r).Once := by
  unfold collectGarbage
  split_ifs
  · exact h
  · exact ⟨h.vertices.prune _, h.batches, h.states⟩

theorem once_sealLast {c : Core} (h : c.Once) : c.sealLast.Once := by
  unfold sealLast
  split
  · exact h
  · split_ifs
    · exact h
    · refine ⟨h.vertices, h.batches, ?_⟩
      intro state hs
      cases mem_append.1 hs with
      | inl old => exact h.states state old
      | inr new =>
        cases mem_singleton.1 new
        exact h.batches.exportState

theorem once_commitOpen (inj : Injective VertexHash.vertexDigest) {c : Core}
    (h : c.Once) (anchor : VertexRef) : (c.commitOpen anchor).Once := by
  have settled : (c.settle anchor).Once :=
    (once_orderHistory inj h anchor).of_releases (releases_settleBatches ..)
  have segmented : (c.makeSegments anchor).Once := settled.of_releases (releases_makeBlocks ..)
  have decided := segmented.of_releases (releases_takeCheckpoint (c.makeSegments anchor) anchor
    ((c.settle anchor).segmentTimestamp anchor))
  exact once_sealLast (once_collectGarbage decided anchor.round)

theorem once_turn (inj : Injective VertexHash.vertexDigest) {c : Core}
    (live : c.halted = false) (h : c.Once) :
    (c.askOpen.applyDecisions c.decideSlots).1.Once := by
  refine turn_keeps ?_ ?_ ?_ ?_ live h
  · exact fun c r h => h.of_releases rfl
  · exact fun c slot h => h.of_releases rfl
  · intro c slot anchor _ h
    have taken : (c.takeSlot slot (some anchor)).Once := h.of_releases rfl
    exact once_commitOpen inj taken anchor
  · exact fun c pc rest _ _ h => h.of_releases rfl

def Waits (c : Core) : Prop :=
  c.resuming.isSome = true → c.released = [] ∧ c.releasedBatches = [] ∧ c.sealedStates = []

theorem once_move (inj : Injective VertexHash.vertexDigest) {e : Env} {c c' : Core}
    (move : Move e c c')
    (keyed : ¬ e.recovering → ∀ cert state, Record.resumed cert state ∈ c'.journal →
      state.availability.Keyed) (h : c.Once ∧ c.Waits) : c'.Once ∧ c'.Waits := by
  obtain ⟨once, waits⟩ := h
  cases move.order with
  | same same dag =>
    refine ⟨once.of_releases ?_, ?_⟩
    · simp only [releases, dag, same.ordered, same.released, same.availability,
        same.releasedBatches, same.sealedStates]
    · unfold Waits
      rw [same.resuming, same.released, same.releasedBatches, same.sealedStates]
      exact waits
  | expect d r a _ eq =>
    subst eq
    exact ⟨⟨once.vertices.keep (Dag.sound_expect once.vertices.sound d r) (by simp),
      once.batches, once.states⟩, waits⟩
  | offer v eq =>
    subst eq
    exact ⟨⟨once.vertices.keep (Dag.sound_offer inj once.vertices.sound v)
      (Dag.floor_offer once.vertices.sound v), once.batches, once.states⟩, waits⟩
  | hold v eq =>
    subst eq
    exact ⟨⟨once.vertices.keep (Dag.sound_hold inj once.vertices.sound v)
      (Dag.floor_hold once.vertices.sound v), once.batches, once.states⟩, waits⟩
  | ask r eq =>
    subst eq
    exact ⟨once.of_releases rfl, waits⟩
  | turn live running eq =>
    subst eq
    refine ⟨once_turn inj running once, ?_⟩
    intro resuming
    rw [resuming_of_still (still_turn c), live] at resuming
    cases resuming
  | install cert state ownRound nowMs live resuming _ eq =>
    subst eq
    obtain ⟨none, empty, unsealed⟩ := waits resuming
    have states := keyed live cert state (mem_append_right _ mem_cons_self)
    refine ⟨once_fresh ?_ none empty unsealed (Availability.once_importState states), ?_⟩
    · exact Dag.sound_pruneBelow (Dag.sound_withVouching ..) state.floor
    · exact fun h => absurd h Bool.false_ne_true

/-- The height and time of a segment handed out, and of one that waits. -/
def Event.stamp : Event → Option (ℕ × ℕ)
  | .ordered s => some (s.height, s.timestampMs)
  | _ => none

def Waiting.stamp : Waiting → Option (ℕ × ℕ)
  | .segment s => some (s.height, s.timestampMs)
  | .epochEnds _ => none

def line (c : Core) : List (ℕ × ℕ) :=
  c.events.filterMap Event.stamp ++ c.waiting.filterMap Waiting.stamp

/-- Consecutive heights from `first` up to `next`, at times that do not decrease up to `last`. -/
structure Lined (first : ℕ) (l : List (ℕ × ℕ)) (next last : ℕ) : Prop where
  heights : l.map Prod.fst = range' first l.length
  next : next = first + l.length
  times : (l.map Prod.snd).Pairwise (· ≤ ·)
  bound : ∀ x ∈ l, x.2 ≤ last

theorem Lined.append {first next last : ℕ} {l : List (ℕ × ℕ)} (h : Lined first l next last) {t : ℕ}
    (later : last ≤ t) (n : ℕ) :
    Lined first (l ++ (range' next n).map (fun k => (k, t))) (next + n) t := by
  refine ⟨?_, ?_, ?_, ?_⟩
  · rw [map_append, map_map, h.heights, length_append, length_map,
      length_range', h.next, ← range'_append_1]
    simp [comp_def]
  · rw [length_append, length_map, length_range', h.next, Nat.add_assoc]
  · rw [map_append, pairwise_append]
    refine ⟨h.times, ?_, ?_⟩
    · rw [map_map]
      exact pairwise_map.2 (pairwise_of_forall (fun _ _ => le_refl t))
    · intro a ha b hb
      obtain ⟨x, hx, rfl⟩ := mem_map.1 ha
      have := h.bound x hx
      simp only [map_map, mem_map, comp_apply] at hb
      obtain ⟨k, -, rfl⟩ := hb
      exact this.trans later
  · intro x hx
    cases mem_append.1 hx with
    | inl old => exact (h.bound x old).trans later
    | inr new =>
      obtain ⟨k, -, rfl⟩ := mem_map.1 new
      exact le_refl t

def lineState (c : Core) : List (ℕ × ℕ) × ℕ × ℕ := (c.line, c.nextHeight, c.lastTimestampMs)

def Lines (first : ℕ) (c : Core) : Prop := Lined first c.line c.nextHeight c.lastTimestampMs

theorem Lines.of_lineState {first : ℕ} {c c' : Core} (h : c.Lines first)
    (same : c'.lineState = c.lineState) : c'.Lines first := by
  have line : c'.line = c.line := congrArg (fun x => x.1) same
  have next : c'.nextHeight = c.nextHeight := congrArg (fun x => x.2.1) same
  have last : c'.lastTimestampMs = c.lastTimestampMs := congrArg (fun x => x.2.2) same
  unfold Lines
  rw [line, next, last]
  exact h

theorem filterMap_stamp_unordered (ps : List BatchPayload) :
    (ps.map Event.unordered).filterMap Event.stamp = [] := by
  simp [filterMap_map, comp_def, Event.stamp]

theorem line_events (c : Core) {es : List Event} (none : es.filterMap Event.stamp = []) :
    { c with events := c.events ++ es }.line = c.line := by
  simp only [line, filterMap_append, none, append_nil]

theorem lineState_settle (c : Core) (anchor : VertexRef) :
    (c.settle anchor).lineState = c.lineState := by
  have skipped : (((c.settle anchor).events).filterMap Event.stamp) =
      c.events.filterMap Event.stamp := by
    simp only [settle, settleBatches, returnSkipped, filterMap_append]
    simp [filterMap_map, comp_def, Event.stamp, orderHistory]
  simp only [lineState, line, skipped]
  simp [settle, settleBatches, returnSkipped, orderHistory]

theorem lineState_takeCheckpoint (c : Core) (anchor : VertexRef) (t : ℕ) :
    (c.takeCheckpoint anchor t).lineState = c.lineState := by
  unfold takeCheckpoint
  dsimp only
  split_ifs
  · simp [lineState, line, decideCheckpoint, Waiting.stamp]
  · rfl
  · rfl

theorem lineState_collectGarbage (c : Core) (r : ℕ) :
    (c.collectGarbage r).lineState = c.lineState := by
  unfold collectGarbage
  split_ifs <;> rfl

theorem lineState_sealLast (c : Core) : c.sealLast.lineState = c.lineState := by
  unfold sealLast
  split
  · rfl
  · split_ifs <;> rfl

theorem lastTimestampMs_le_segmentTimestamp (c : Core) (anchor : VertexRef) :
    c.lastTimestampMs ≤ c.segmentTimestamp anchor := le_max_right _ _

theorem lines_makeBlocks {first : ℕ} {c : Core} (h : c.Lines first) (anchor : VertexRef) {t : ℕ}
    (later : c.lastTimestampMs ≤ t) (n : ℕ) (released : List OrderedBatch) :
    (c.makeBlocks anchor t n released).Lines first := by
  unfold Lines makeBlocks
  dsimp only
  generalize (if released.any (fun b => 0 < b.batch.transactions)
    then blockChunks maxTransactionsPerBlock released 0 [] else []) = blocks
  have stamps : ((blocks.zipIdx.map (fun b =>
      (⟨c.nextHeight + b.2, anchor, t, b.1, n⟩ : WaitingSegment))).map
        Waiting.segment).filterMap Waiting.stamp =
      (range' c.nextHeight blocks.length).map (fun k => (k, t)) := by
    rw [filterMap_map, filterMap_map]
    have each : ((Waiting.stamp ∘ Waiting.segment) ∘ fun b : List OrderedBatch × ℕ =>
        (⟨c.nextHeight + b.2, anchor, t, b.1, n⟩ : WaitingSegment)) =
        some ∘ fun b => (c.nextHeight + b.2, t) := rfl
    rw [each, filterMap_eq_map]
    have offsets : blocks.zipIdx.map (fun b => (c.nextHeight + b.2, t)) =
        (blocks.zipIdx.map Prod.snd).map (fun i => (c.nextHeight + i, t)) := by
      rw [map_map]
      rfl
    rw [offsets, zipIdx_map_snd, range'_eq_map_range, range'_eq_map_range,
      map_map, map_map]
    simp [comp_def]
  have whole := Lined.append h later blocks.length
  rw [← stamps] at whole
  unfold line at whole ⊢
  rw [filterMap_append, ← append_assoc]
  exact whole

theorem lines_commitOpen {first : ℕ} {c : Core} (h : c.Lines first) (anchor : VertexRef) :
    (c.commitOpen anchor).Lines first := by
  have settled : (c.settle anchor).Lines first := h.of_lineState (lineState_settle c anchor)
  have segmented : (c.makeSegments anchor).Lines first :=
    lines_makeBlocks settled anchor (lastTimestampMs_le_segmentTimestamp _ anchor) _ _
  have decided := segmented.of_lineState (lineState_takeCheckpoint (c.makeSegments anchor) anchor
    ((c.settle anchor).segmentTimestamp anchor))
  have collected := decided.of_lineState (lineState_collectGarbage _ anchor.round)
  exact collected.of_lineState (lineState_sealLast _)

theorem lineState_buildOne (c : Core) (pc : PendingCheckpoint) (rest : List PendingCheckpoint) :
    (c.buildOne pc rest).lineState = c.lineState := by
  simp [lineState, line, buildOne, Event.stamp]

theorem lines_turn {first : ℕ} {c : Core} (live : c.halted = false) (h : c.Lines first) :
    (c.askOpen.applyDecisions c.decideSlots).1.Lines first := by
  refine turn_keeps ?_ ?_ ?_ ?_ live h
  · exact fun c r h => h.of_lineState rfl
  · exact fun c slot h => h.of_lineState rfl
  · intro c slot anchor _ h
    have taken : (c.takeSlot slot (some anchor)).Lines first := h.of_lineState rfl
    exact lines_commitOpen taken anchor
  · exact fun c pc rest _ _ h => h.of_lineState (lineState_buildOne c pc rest)

theorem line_releaseFirst {c c' : Core} {w : Waiting} {rest : List Waiting}
    (first : c.waiting = w :: rest) (h : c.releaseFirst w rest = some c') : c'.line = c.line := by
  cases w with
  | epochEnds last =>
    cases h
    simp only [line, first, filterMap_append, append_assoc]
    rfl
  | segment seg =>
    simp only [releaseFirst] at h
    split_ifs at h <;> cases h <;> simp [line, first, Event.stamp, Waiting.stamp]

theorem line_completeEpoch (c : Core) (cert : Certificate) :
    (c.completeEpoch cert).line = c.line := by
  have none : (c.stranded.map Event.unordered ++ [Event.epochComplete cert]).filterMap Event.stamp =
      [] := by
    rw [filterMap_append, filterMap_stamp_unordered]
    rfl
  have := line_events c none
  simpa only [line, completeEpoch, append_assoc] using this

theorem lineState_completeEpoch (c : Core) (cert : Certificate) :
    (c.completeEpoch cert).lineState = c.lineState := by
  simp only [lineState, line_completeEpoch]
  rfl

theorem line_onCertified (c : Core) (cert : Certificate) : (c.onCertified cert).line = c.line := by
  unfold onCertified
  dsimp only
  split_ifs
  any_goals rfl
  any_goals exact line_completeEpoch _ cert
  any_goals exact line_events _ rfl

theorem line_submitPart (c : Core) (part : BatchPart) : (c.submitPart part).line = c.line := by
  unfold submitPart
  dsimp only
  split_ifs
  · exact line_events c rfl
  · rfl

/-- Where a core's segments start: at the epoch's first height, or where the installed state does. -/
def firstSegment (c : Core) : ℕ :=
  c.installed.elim c.start.firstHeight (fun x => x.2.nextHeight)

/-- A core that waits for an ordering state has no segments. -/
structure Placed (c : Core) : Prop where
  lined : c.Lines c.firstSegment
  waits : c.resuming.isSome = true → c.line = []

theorem Move.start {e : Env} {c c' : Core} (move : Move e c c') : c'.start = c.start :=
  congrArg (fun x => x.2.2.2) move.fixed

def origin (c : Core) : Bool × Option (Certificate × OrderingState) := (c.resuming.isSome, c.installed)

theorem lineState_of_same {c c' : Core} (same : SameOrder c c') (line : c'.line = c.line) :
    c'.lineState = c.lineState ∧ c'.origin = c.origin := by
  refine ⟨?_, ?_⟩
  · simp only [lineState, line, same.nextHeight, same.lastTimestampMs]
  · simp only [origin, same.resuming, same.installed]

theorem Move.line {e : Env} {c c' : Core} (move : Move e c c') :
    (c'.lineState = c.lineState ∧ c'.origin = c.origin) ∨
      (c.resuming = none ∧ c.halted = false ∧ c' = (c.askOpen.applyDecisions c.decideSlots).1) ∨
      ∃ cert state ownRound nowMs, c.resuming.isSome = true ∧
        c' = c.install cert state ownRound nowMs := by
  cases move with
  | turn live running => exact .inr (.inl ⟨live, running, rfl⟩)
  | install cert state ownRound nowMs live waiting _ =>
    obtain ⟨r, hr, -⟩ := waiting
    exact .inr (.inr ⟨cert, state, ownRound, nowMs, by rw [hr]; rfl, rfl⟩)
  | release first h =>
    exact .inl (lineState_of_same (sameOrder_releaseFirst h).1 (line_releaseFirst first h))
  | submit part =>
    exact .inl (lineState_of_same (sameOrder_submitPart c part).1 (line_submitPart c part))
  | build _ _ => exact .inl ⟨lineState_buildOne c _ _, rfl⟩
  | certified cert =>
    exact .inl (lineState_of_same (sameOrder_onCertified c cert).1 (line_onCertified c cert))
  | adopt cert _ _ _ =>
    exact .inl (lineState_of_same (sameOrder_adopt c cert _).1 (line_onCertified _ cert))
  | adoptHeld _ _ _ => exact .inl ⟨lineState_completeEpoch _ _, rfl⟩
  | evidence es =>
    have none : (es.map Event.equivocation).filterMap Event.stamp = [] := by
      simp [filterMap_map, comp_def, Event.stamp]
    refine .inl ⟨?_, rfl⟩
    simp only [lineState, line_events c none]
  | disagree index =>
    have none : [Event.verifierDisagreement index].filterMap Event.stamp = [] := rfl
    refine .inl ⟨?_, rfl⟩
    have same := line_events c none
    simp only [lineState, Core.line, onDisagreement] at same ⊢
    rw [same]
  | asked t hr => exact .inl ⟨rfl, by simp only [origin, hr, Option.isSome_some]⟩
  | _ => exact .inl ⟨rfl, rfl⟩

theorem placed_of_empty {c : Core} (source : c.nextHeight = c.firstSegment)
    (empty : c.line = []) : c.Placed := by
  refine ⟨?_, fun _ => empty⟩
  unfold Lines
  rw [empty, source]
  exact ⟨rfl, rfl, List.Pairwise.nil, fun x hx => absurd hx not_mem_nil⟩

theorem placed_install {c : Core} (none : c.line = []) (cert : Certificate) (state : OrderingState)
    (ownRound : Option ℕ) (nowMs : ℕ) : (c.install cert state ownRound nowMs).Placed := by
  have events := (append_eq_nil_iff.1 none).1
  refine placed_of_empty rfl ?_
  simp only [line, install, events, filterMap_nil, append_nil]

theorem installed_commitOpen (c : Core) (anchor : VertexRef) :
    (c.commitOpen anchor).installed = c.installed := by
  have sealed (c : Core) : c.sealLast.installed = c.installed := by
    unfold sealLast
    split
    · rfl
    · split_ifs <;> rfl
  have pruned (c : Core) (r : ℕ) : (c.collectGarbage r).installed = c.installed := by
    unfold collectGarbage
    split_ifs <;> rfl
  unfold commitOpen
  rw [sealed, pruned]
  unfold takeCheckpoint
  dsimp only
  split_ifs <;> rfl

theorem installed_turn (c : Core) (live : c.halted = false) :
    (c.askOpen.applyDecisions c.decideSlots).1.installed = c.installed := by
  refine turn_keeps (P := fun c' => c'.installed = c.installed) ?_ ?_ ?_ ?_ live rfl
  · exact fun _ _ h => h
  · exact fun _ _ h => h
  · exact fun c' slot anchor _ h => (installed_commitOpen _ anchor).trans h
  · exact fun _ _ _ _ _ h => h

theorem placed_move {e : Env} {c c' : Core} (move : Move e c c') (h : c.Placed) : c'.Placed := by
  have start := move.start
  obtain ⟨lined, waits⟩ := h
  obtain ⟨same, from'⟩ | ⟨live, running, rfl⟩ | ⟨cert, state, ownRound, nowMs, resuming, rfl⟩ := move.line
  · have first : c'.firstSegment = c.firstSegment := by
      simp only [firstSegment, start, show c'.installed = c.installed from congrArg Prod.snd from']
    refine ⟨first ▸ Lines.of_lineState lined same, ?_⟩
    rw [show c'.resuming.isSome = c.resuming.isSome from congrArg Prod.fst from',
      show c'.line = c.line from congrArg (fun x => x.1) same]
    exact waits
  · have first : (c.askOpen.applyDecisions c.decideSlots).1.firstSegment = c.firstSegment := by
      simp only [firstSegment, start, installed_turn c running]
    refine ⟨first ▸ lines_turn running lined, ?_⟩
    rw [resuming_of_still (still_turn c), live]
    exact fun h => absurd h Bool.false_ne_true
  · exact placed_install (waits resuming) cert state ownRound nowMs

theorem Run.placed {S : OrderingState → Prop} {c : Core} (run : Run S c) : c.Placed := by
  refine run.keeps ?_ ?_ ?_ ?_ (fun e c c' move _ => placed_move move)
  · exact fun _ _ _ _ => placed_of_empty rfl rfl
  · exact fun _ _ _ _ _ => placed_of_empty rfl rfl
  · exact fun _ _ _ _ _ _ _ cert state ownRound nowMs _ =>
      placed_install rfl cert state ownRound nowMs
  · exact fun _ _ _ _ _ _ _ _ _ => placed_of_empty rfl rfl

theorem Run.once (inj : Injective VertexHash.vertexDigest) {c : Core}
    (run : Run (fun state => state.availability.Keyed) c) : c.Once := by
  refine (run.keeps ?_ ?_ ?_ ?_ (fun e c c' move keyed => once_move inj move keyed)).1
  · intro cfg committee me start
    exact ⟨once_fresh (Dag.sound_withVouching ..) rfl rfl rfl Availability.once_new,
      fun _ => ⟨rfl, rfl, rfl⟩⟩
  · intro cfg committee me start n
    exact ⟨once_fresh (Dag.sound_withVouching ..) rfl rfl rfl Availability.once_new,
      fun _ => ⟨rfl, rfl, rfl⟩⟩
  · intro cfg committee me start n payloads payloadRound cert state ownRound nowMs keyed
    exact ⟨once_fresh (Dag.sound_pruneBelow (Dag.sound_withVouching ..) state.floor) rfl rfl
      rfl (Availability.once_importState keyed), fun _ => ⟨rfl, rfl, rfl⟩⟩
  · intro cfg committee me cert sessions ownRound n m k
    exact ⟨once_fresh (Dag.sound_withVouching ..) rfl rfl rfl Availability.once_new,
      fun _ => ⟨rfl, rfl, rfl⟩⟩

theorem Grounded.keyed (inj : Injective VertexHash.vertexDigest) {c : Core}
    (h : Grounded c) : Run (fun state => state.availability.Keyed) c :=
  h.run (fun _ run => (run.once inj).states)

/-- No vertex is ordered twice, no batch is released twice, and the segments that left the core
or wait in it follow one another in height and in time. -/
theorem exactly_once (inj : Injective VertexHash.vertexDigest) {c : Core}
    (run : Grounded c) :
    (c.released.map VertexRef.digest).Nodup ∧
      (c.releasedBatches.map OrderedBatch.key).Nodup ∧
      c.line.map Prod.fst = range' c.firstSegment c.line.length ∧
      (c.line.map Prod.snd).Pairwise (· ≤ ·) := by
  have once := (run.keyed inj).once inj
  have lined := (run.keyed inj).placed.lined
  refine ⟨once.vertices.nodup, ?_, lined.heights, lined.times⟩
  have nodup := once.batches.nodup
  rw [nodup_append] at nodup
  exact nodup.1

theorem dag_sound (inj : Injective VertexHash.vertexDigest) {c : Core} (run : Grounded c) :
    c.dag.Sound ∧
      ∀ r ∈ c.released, c.ordered.get? r.digest = some r.round ∨ r.round < c.dag.floor :=
  have once := ((run.keyed inj).once inj).vertices
  ⟨once.sound, fun r released => (once.marked r released).1⟩

end Core

end Tenzro

namespace Tenzro

def soloCommittee : Committee where
  epoch := 0
  members := [⟨0, 0, 1, 1⟩]
  nonempty := by simp
  small := by simp
  distinctKeys := by simp
  distinctAddresses := by simp
  seated := by simp
  bounded := by simp [maxTotalSeats]

def soloConfig : CoreConfig where
  chainId := 1
  genesisHash := 0
  leaderTimeoutMs := 0
  minRoundIntervalMs := 1
  leaderSlots := 1
  checkpointIntervalMs := 10
  gcDepth := 10
  maxWeakRefs := 10
  maxRoundsAhead := 200
  epochCheckpoints := 1
  handoverConfirmations := 1
  fetchRetryMs := 100
  idleRoundIntervalMs := 1

def soloStart : EpochStart where
  firstHeight := 1
  firstCheckpoint := 1
  prevCheckpoint := 5
  timestampMs := u64Max
  baseBlocks := [(0, 7, 8)]
  leaderLookaheadRounds := 4

def soloPart : BatchPart := ⟨1, [5]⟩

def soloPayload : BatchPayload := BatchPayload.sealParts 0 0 0 [soloPart]

def soloVertex (round : ℕ) : Vertex where
  epoch := 0
  round := round
  source := 0
  strong := if round = 0 then [] else [⟨round - 1, 0, round - 1⟩]
  weak := []
  batches := if round = 0 then [⟨0, 0, 5, 1⟩] else []
  carried := []
  timestampMs := u64Max

local instance soloHashing : Hashing :=
  namedHashing ((List.range 5).map soloVertex) [soloPayload]

/-- The member orders its batch and two checkpoints. -/
def soloInputs : List Input :=
  [.submit soloPart, .nextCommitteeRoot 9, .start 1, .tick 2, .executed 1 3 4 [], .tick 4, .tick 6]

def soloCore : Core := (Core.new soloConfig soloCommittee 0 soloStart).runInputs soloInputs

theorem soloCore_grounded : Core.Grounded soloCore :=
  (Core.Grounded.new soloConfig soloCommittee 0 soloStart).runInputs (by decide +kernel)

theorem exactly_once_solo : soloCore.released.length = 2 ∧ soloCore.line = [(1, u64Max)] ∧
    (soloCore.released.map VertexRef.digest).Nodup ∧
    (soloCore.releasedBatches.map OrderedBatch.key).Nodup ∧
    soloCore.line.map Prod.fst = List.range' soloCore.firstSegment soloCore.line.length ∧
    (soloCore.line.map Prod.snd).Pairwise (· ≤ ·) :=
  ⟨by decide +kernel, by decide +kernel,
    Core.exactly_once (namedHashing_vertex _ _) soloCore_grounded⟩

theorem dag_sound_solo : soloCore.dag.Sound :=
  (Core.dag_sound (namedHashing_vertex _ _) soloCore_grounded).1

end Tenzro
