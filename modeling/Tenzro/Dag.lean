import Tenzro.Vertex
import Tenzro.Walk

set_option autoImplicit false
set_option linter.dupNamespace false
set_option linter.unusedSectionVars false

/-!
# What a DAG holds

A vertex enters once every vertex it references at or above the floor is in.
Fetched vertices not yet acceptable are held. Digests are assumed not to
collide.
-/
namespace Tenzro
open Walk

structure Dag where
  rounds : SortedMap (ℕ ×ₗ ValidatorIndex) (Digest × Vertex)
  byDigest : SortedMap Digest (ℕ × ValidatorIndex)
  pending : SortedMap Digest Vertex
  expected : SortedMap Digest ℕ
  floor : ℕ
  seats : List ℕ
  vouchSeats : ℕ
  held : SortedMap Digest Vertex
  reachedBy : SortedMap Digest (ℕ × SortedMap ValidatorIndex Unit)

abbrev ReachWork := List (VertexRef × List ValidatorIndex)

namespace Dag

def withVouching (seats : List ℕ) (vouchSeats : ℕ) : Dag where
  rounds := .empty
  byDigest := .empty
  pending := .empty
  expected := .empty
  floor := 0
  seats := seats
  vouchSeats := vouchSeats
  held := .empty
  reachedBy := .empty

def contains (g : Dag) (d : Digest) : Bool := g.byDigest.contains d

/-- The vertex of `source` in `round`, if in the DAG. -/
def vertexAt (g : Dag) (round : ℕ) (source : ValidatorIndex) : Option (Digest × Vertex) :=
  g.rounds.get? (toLex (round, source))

def get (g : Dag) (d : Digest) : Option Vertex :=
  (g.byDigest.get? d).bind (fun k => (g.vertexAt k.1 k.2).map Prod.snd)

def round (g : Dag) (r : ℕ) : List (ValidatorIndex × Digest × Vertex) :=
  (g.rounds.entries.filter (fun e => (ofLex e.1).1 = r)).map (fun e => ((ofLex e.1).2, e.2))

def highestRound (g : Dag) : Option ℕ := g.rounds.last?.map (fun e => (ofLex e.1).1)

def expect (g : Dag) (d : Digest) (round : ℕ) : Dag :=
  if g.floor ≤ round ∧ g.byDigest.contains d = false
  then { g with expected := g.expected.insert d round } else g

def expectedRound (g : Dag) (d : Digest) : Option ℕ := g.expected.get? d

def isExpected (g : Dag) (d : Digest) : Bool := g.expected.contains d

def missingRefs (g : Dag) (v : Vertex) : List VertexRef :=
  v.refs.filter (fun r => g.floor ≤ r.round && !g.byDigest.contains r.digest)

/-- Puts an acceptable vertex in the pending set and carries its authors on. -/
def accept (g : Dag) (d : Digest) (v : Vertex) : Dag × ReachWork :=
  let reached := ((g.reachedBy.get? d).map (fun e => e.2.keys)).getD []
  let authors := if v.source ∈ reached then reached else reached ++ [v.source]
  ({ g with reachedBy := g.reachedBy.erase d, pending := g.pending.insert d v },
    (g.missingRefs v).map (fun r => (r, authors)))

def addAuthors (authors : List ValidatorIndex) (s : SortedMap ValidatorIndex Unit) :
    SortedMap ValidatorIndex Unit × List ValidatorIndex :=
  authors.foldl (fun acc a =>
    if acc.1.contains a then acc else (acc.1.insert a (), acc.2 ++ [a])) (s, [])

def vouchWeight (g : Dag) (s : SortedMap ValidatorIndex Unit) : ℕ :=
  (s.keys.map (fun a => (g.seats[a]?).getD 0)).sum

def reachOne (g : Dag) (r : VertexRef) (authors : List ValidatorIndex) : Dag × ReachWork :=
  if r.round < g.floor ∨ g.byDigest.contains r.digest ∨ g.pending.contains r.digest then (g, [])
  else
    let entry := (g.reachedBy.get? r.digest).getD (r.round, .empty)
    let (authors', added) := addAuthors authors entry.2
    let g := { g with reachedBy := g.reachedBy.insert r.digest (entry.1, authors') }
    if added = [] then (g, [])
    else if g.vouchSeats ≤ g.vouchWeight authors' then
      match g.held.get? r.digest with
      | some v =>
        { g with held := g.held.erase r.digest, expected := g.expected.erase r.digest }.accept
          r.digest v
      | none => ({ g with expected := g.expected.insert r.digest r.round }, [])
    else
      match g.held.get? r.digest with
      | some v => (g, (g.missingRefs v).map (fun p => (p, added)))
      | none => (g, [])

/-- The stack is read from its top, so new work goes on in reverse. -/
def reachLoop : ℕ → Dag → ReachWork → Dag
  | 0, g, _ => g
  | _ + 1, g, [] => g
  | n + 1, g, (r, authors) :: work =>
    let (g', new) := g.reachOne r authors
    reachLoop n g' (new.reverse ++ work)

/-- Each held vertex is carried through once for each author at most, and once more when it
is accepted. -/
def reachFuel (g : Dag) (work : ReachWork) : ℕ :=
  let authors := (work.map (fun w => w.2.length)).sum + g.held.size +
    (g.reachedBy.values.map (fun e => e.2.size)).sum
  work.length + (authors + 1) * (g.held.values.map (fun v => v.refs.length)).sum

def reach (g : Dag) (work : ReachWork) : Dag :=
  if g.vouchSeats = u64Max then g else reachLoop (g.reachFuel work) g work.reverse

/-- The pending vertices whose references are all in, by round, author and digest. -/
def readyPending (g : Dag) : List VertexRef :=
  ((g.pending.entries.filter (fun e => (g.missingRefs e.2).isEmpty)).map
    (fun e => (⟨e.2.round, e.2.source, e.1⟩ : VertexRef))).insertionSort VertexRef.le

def enter (g : Dag) (r : VertexRef) : Dag × List VertexRef :=
  match g.pending.get? r.digest with
  | none => (g, [])
  | some v =>
    let g := { g with pending := g.pending.erase r.digest }
    if (g.vertexAt v.round v.source).isSome then (g, [])
    else
      ({ g with
          byDigest := g.byDigest.insert r.digest (v.round, v.source)
          rounds := g.rounds.insert (toLex (v.round, v.source)) (r.digest, v) },
        [⟨v.round, v.source, r.digest⟩])

def enterAll (g : Dag) (rs : List VertexRef) : Dag × List VertexRef :=
  rs.foldl (fun acc r =>
    let (g', new) := acc.1.enter r
    (g', acc.2 ++ new)) (g, [])

def drainLoop : ℕ → Dag → List VertexRef → Dag × List VertexRef
  | 0, g, inserted => (g, inserted)
  | n + 1, g, inserted =>
    match g.readyPending with
    | [] => (g, inserted)
    | rs =>
      let (g', new) := g.enterAll rs
      drainLoop n g' (inserted ++ new)

def missingDigests (g : Dag) : List Digest :=
  (((g.pending.values ++ g.held.values).flatMap g.missingRefs).map VertexRef.digest
    |>.filter (fun d => !g.pending.contains d && !g.held.contains d)).dedup.insertionSort (· ≤ ·)

def drainPending (g : Dag) : Dag × List VertexRef × List Digest :=
  let (g', inserted) := drainLoop g.pending.size g []
  (g', inserted, g'.missingDigests)

variable [VertexHash]

def offer (g : Dag) (v : Vertex) : Dag × List VertexRef × List Digest :=
  let d := v.digest
  if g.byDigest.contains d ∨ v.round < g.floor then (g, [], [])
  else if g.expected.contains d = false then (g, [], [])
  else
    let g := { g with expected := g.expected.erase d, held := g.held.erase d }
    let (g, work) := g.accept d v
    (g.reach work).drainPending

def hold (g : Dag) (v : Vertex) : Dag × List VertexRef × List Digest :=
  let d := v.digest
  if g.byDigest.contains d ∨ g.pending.contains d ∨ v.round < g.floor then (g, [], [])
  else if g.expected.contains d then g.offer v
  else
    let carried := ((g.reachedBy.get? d).map (fun e => e.2.keys)).getD []
    let refs := g.missingRefs v
    let g := { g with held := g.held.insert d v }
    let work := if carried = [] then [] else refs.map (fun r => (r, carried))
    (g.reach work).drainPending

def strongStep (g : Dag) (goal : VertexRef) (frontier : List Digest) : Bool × List Digest :=
  let refs := frontier.flatMap (fun d => ((g.get d).map Vertex.strong).getD [])
  (refs.any (fun s => s.round = goal.round && s.digest = goal.digest),
    ((refs.filter (fun s => s.round ≠ goal.round)).map VertexRef.digest).dedup)

def strongLoop (g : Dag) (goal : VertexRef) : ℕ → List Digest → Bool
  | 0, _ => false
  | n + 1, frontier =>
    if frontier = [] then false
    else
      let (found, next) := g.strongStep goal frontier
      if found then true else strongLoop g goal n next

def strongPath (g : Dag) (d : Digest) (goal : VertexRef) : Bool :=
  match g.get d with
  | none => false
  | some start =>
    if start.round < goal.round then false
    else if d = goal.digest then true
    else strongLoop g goal (start.round - goal.round) [d]

def expandRefs (g : Dag) (skip : Digest → Bool) (d : Digest) : List Digest :=
  match g.get d with
  | none => []
  | some v => ((v.refs.filter (fun r => g.floor ≤ r.round)).map VertexRef.digest).filter
      (fun d => !skip d)

/-- Enough turns to expand every vertex of the DAG once. -/
def walkFuel (g : Dag) : ℕ := (g.rounds.values.map (fun e => e.2.refs.length)).sum

def causalHistory (g : Dag) (root : Digest) (skip : Digest → Bool) : List VertexRef :=
  let start := if skip root then [] else [root]
  ((walk (g.expandRefs skip) (g.walkFuel + start.length) start []).filterMap (fun d =>
    (g.get d).map (fun v => (⟨v.round, v.source, d⟩ : VertexRef)))).insertionSort VertexRef.le

def orphansBelow (g : Dag) (round : ℕ) (roots : List Digest) (ordered : Digest → Bool)
    (limit : ℕ) : List VertexRef :=
  let reachable := walk (g.expandRefs ordered) (g.walkFuel + roots.length) roots []
  let out := (g.rounds.entries.filter (fun e =>
      g.floor ≤ (ofLex e.1).1 && (ofLex e.1).1 < round &&
        !reachable.contains e.2.1 && !ordered e.2.1)).map
    (fun e => (⟨(ofLex e.1).1, (ofLex e.1).2, e.2.1⟩ : VertexRef))
  if limit = 0 then out else out.take limit

def pruneBelow (g : Dag) (round : ℕ) : Dag × List (Digest × Vertex) :=
  if round ≤ g.floor then (g, [])
  else
    let pruned := (g.rounds.filter (fun k _ => (ofLex k).1 < round)).values
    ({ g with
        floor := round
        rounds := g.rounds.filter (fun k _ => round ≤ (ofLex k).1)
        byDigest := pruned.foldl (fun m e => m.erase e.1) g.byDigest
        pending := g.pending.filter (fun _ v => round ≤ v.round)
        expected := g.expected.filter (fun _ r => round ≤ r)
        held := g.held.filter (fun _ v => round ≤ v.round)
        reachedBy := g.reachedBy.filter (fun _ e => round ≤ e.1) },
      pruned)

end Dag

end Tenzro

namespace Tenzro.Dag
open List SortedMap
variable [VertexHash]

structure Sound (g : Dag) : Prop where
  slot : ∀ k d v, g.rounds.get? k = some (d, v) →
    v.digest = d ∧ k = toLex (v.round, v.source) ∧ g.floor ≤ v.round ∧
      g.byDigest.get? d = some (v.round, v.source)
  digest : ∀ d k, g.byDigest.get? d = some k → ∃ v, g.rounds.get? (toLex k) = some (d, v)
  pending : ∀ d v, g.pending.get? d = some v → v.digest = d ∧ g.floor ≤ v.round
  held : ∀ d v, g.held.get? d = some v → v.digest = d ∧ g.floor ≤ v.round

theorem sound_withVouching (seats : List ℕ) (n : ℕ) : Sound (withVouching seats n) where
  slot k d v h := by cases h
  digest d k h := by cases h
  pending d v h := by cases h
  held d v h := by cases h

def names (g : Dag) :
    SortedMap (ℕ ×ₗ ValidatorIndex) (Digest × Vertex) × SortedMap Digest (ℕ × ValidatorIndex) × ℕ :=
  (g.rounds, g.byDigest, g.floor)

theorem Sound.of_names {g g' : Dag} (h : Sound g) (same : g'.names = g.names)
    (pending : ∀ d v, g'.pending.get? d = some v → v.digest = d ∧ g.floor ≤ v.round)
    (held : ∀ d v, g'.held.get? d = some v → v.digest = d ∧ g.floor ≤ v.round) : Sound g' := by
  have rounds : g'.rounds = g.rounds := congrArg Prod.fst same
  have digests : g'.byDigest = g.byDigest := congrArg (fun x => x.2.1) same
  have floor : g'.floor = g.floor := congrArg (fun x => x.2.2) same
  refine ⟨?_, ?_, ?_, ?_⟩
  · rw [rounds, digests, floor]
    exact h.slot
  · rw [rounds, digests]
    exact h.digest
  · rw [floor]
    exact pending
  · rw [floor]
    exact held

variable {g : Dag}

theorem Sound.vertexAt (h : Sound g) {r : ℕ} {a : ValidatorIndex} {d : Digest} {v : Vertex}
    (hv : g.vertexAt r a = some (d, v)) :
    v.digest = d ∧ v.round = r ∧ v.source = a ∧ g.floor ≤ r ∧ g.byDigest.get? d = some (r, a) := by
  obtain ⟨hd, hk, hf, hb⟩ := h.slot _ _ _ hv
  obtain ⟨rfl, rfl⟩ : r = v.round ∧ a = v.source := by simpa using hk
  exact ⟨hd, rfl, rfl, hf, hb⟩

theorem Sound.get (h : Sound g) {d : Digest} {v : Vertex} (hv : g.get d = some v) :
    v.digest = d ∧ g.floor ≤ v.round ∧ g.vertexAt v.round v.source = some (d, v) := by
  unfold Dag.get at hv
  obtain ⟨k, hk, hv⟩ := Option.bind_eq_some_iff.1 hv
  obtain ⟨w, hw⟩ := h.digest d k hk
  have here : g.vertexAt k.1 k.2 = some (d, w) := hw
  rw [here] at hv
  cases hv
  obtain ⟨hd, hr, ha, hf, -⟩ := h.vertexAt here
  exact ⟨hd, hr ▸ hf, by rw [hr, ha]; exact here⟩

theorem sound_expect (h : Sound g) (d : Digest) (r : ℕ) : Sound (g.expect d r) := by
  unfold expect
  split_ifs
  · exact h.of_names rfl h.pending h.held
  · exact h

theorem sound_accept (h : Sound g) {d : Digest} {v : Vertex} (hd : v.digest = d)
    (hf : g.floor ≤ v.round) : Sound (g.accept d v).1 := by
  refine h.of_names rfl ?_ h.held
  intro e w hw
  simp only [accept, get?_insert] at hw
  split_ifs at hw with same
  · cases hw
    exact ⟨hd.trans same.symm, hf⟩
  · exact h.pending e w hw

theorem reachOne_sound (h : Sound g) (r : VertexRef) (authors : List ValidatorIndex) :
    Sound (g.reachOne r authors).1 ∧ (g.reachOne r authors).1.names = g.names := by
  unfold reachOne
  split_ifs with out
  · exact ⟨h, rfl⟩
  · dsimp only
    split_ifs
    · exact ⟨h.of_names rfl h.pending h.held, rfl⟩
    · cases held : g.held.get? r.digest with
      | none => exact ⟨h.of_names rfl h.pending h.held, rfl⟩
      | some v =>
        obtain ⟨hd, hf⟩ := h.held _ _ held
        refine ⟨?_, rfl⟩
        refine sound_accept ?_ hd hf
        refine h.of_names rfl h.pending ?_
        intro e w hw
        simp only [get?_erase] at hw
        split_ifs at hw
        exact h.held e w hw
    · cases g.held.get? r.digest with
      | none => exact ⟨h.of_names rfl h.pending h.held, rfl⟩
      | some v => exact ⟨h.of_names rfl h.pending h.held, rfl⟩

theorem reachLoop_sound (n : ℕ) (h : Sound g) (work : ReachWork) :
    Sound (reachLoop n g work) ∧ (reachLoop n g work).names = g.names := by
  induction n generalizing g work with
  | zero => exact ⟨h, rfl⟩
  | succ n ih =>
    cases work with
    | nil => exact ⟨h, rfl⟩
    | cons x work =>
      obtain ⟨one, same⟩ := reachOne_sound h x.1 x.2
      obtain ⟨rest, same'⟩ := ih one ((g.reachOne x.1 x.2).2.reverse ++ work)
      exact ⟨rest, same'.trans same⟩

theorem reach_sound (h : Sound g) (work : ReachWork) :
    Sound (g.reach work) ∧ (g.reach work).names = g.names := by
  unfold reach
  split_ifs
  · exact ⟨h, rfl⟩
  · exact reachLoop_sound _ h _

section Collisions
variable (inj : Function.Injective (VertexHash.vertexDigest))
include inj

theorem enter_sound (h : Sound g) (r : VertexRef) : Sound (g.enter r).1 := by
  unfold enter
  cases hp : g.pending.get? r.digest with
  | none => exact h
  | some v =>
    obtain ⟨hd, hf⟩ := h.pending _ _ hp
    have less : ∀ d w, (g.pending.erase r.digest).get? d = some w →
        w.digest = d ∧ g.floor ≤ w.round := by
      intro d w hw
      rw [get?_erase] at hw
      split_ifs at hw
      exact h.pending d w hw
    dsimp only
    split_ifs with taken
    · exact h.of_names rfl less h.held
    · have free : g.rounds.get? (toLex (v.round, v.source)) = none := by
        simpa [Dag.vertexAt] using taken
      -- No other vertex has this digest, so its name is new.
      have new : g.byDigest.get? r.digest = none := by
        cases hb : g.byDigest.get? r.digest with
        | none => rfl
        | some k =>
          obtain ⟨w, hw⟩ := h.digest _ _ hb
          obtain ⟨hdw, hk, -, -⟩ := h.slot _ _ _ hw
          have same : w = v := inj (hdw.trans hd.symm)
          rw [hk, same, free] at hw
          cases hw
      refine ⟨?_, ?_, less, h.held⟩
      · intro k d w hw
        simp only [get?_insert] at hw ⊢
        split_ifs at hw with here
        · cases hw
          exact ⟨hd, here, hf, if_pos rfl⟩
        · obtain ⟨hdw, hk, hfw, hb⟩ := h.slot _ _ _ hw
          refine ⟨hdw, hk, hfw, ?_⟩
          have other : d ≠ r.digest := by
            rintro rfl
            rw [new] at hb
            cases hb
          rw [if_neg other]
          exact hb
      · intro d k hk
        simp only [get?_insert] at hk ⊢
        split_ifs at hk with here
        · cases hk
          exact ⟨v, by rw [if_pos rfl, here]⟩
        · obtain ⟨w, hw⟩ := h.digest d k hk
          refine ⟨w, ?_⟩
          have other : toLex k ≠ toLex (v.round, v.source) := by
            intro same
            rw [same, free] at hw
            cases hw
          rw [if_neg other]
          exact hw

theorem enterAll_sound (h : Sound g) (rs : List VertexRef) : Sound (g.enterAll rs).1 := by
  have fold : ∀ (rs : List VertexRef) (acc : Dag × List VertexRef), Sound acc.1 →
      Sound (rs.foldl (fun acc r =>
        let (g', new) := acc.1.enter r
        (g', acc.2 ++ new)) acc).1 := by
    intro rs
    induction rs with
    | nil => exact fun _ h => h
    | cons r rs ih => exact fun acc h => ih _ (enter_sound inj h r)
  exact fold rs (g, []) h

theorem drainLoop_sound (n : ℕ) (h : Sound g) (inserted : List VertexRef) :
    Sound (drainLoop n g inserted).1 := by
  induction n generalizing g inserted with
  | zero => exact h
  | succ n ih =>
    unfold drainLoop
    split
    · exact h
    · exact ih (enterAll_sound inj h _) _

theorem sound_offer (h : Sound g) (v : Vertex) : Sound (g.offer v).1 := by
  unfold offer
  dsimp only
  split_ifs with out unexpected
  · exact h
  · exact h
  · push Not at out
    have taken : Sound { g with
        expected := g.expected.erase v.digest, held := g.held.erase v.digest } := by
      refine h.of_names rfl h.pending ?_
      intro d w hw
      simp only [get?_erase] at hw
      split_ifs at hw
      exact h.held d w hw
    have accepted := sound_accept taken rfl out.2
    exact drainLoop_sound inj _ (reach_sound accepted _).1 []

theorem sound_hold (h : Sound g) (v : Vertex) : Sound (g.hold v).1 := by
  unfold hold
  dsimp only
  split_ifs with out expected none
  · exact h
  · exact sound_offer inj h v
  all_goals
    push Not at out
    have held : Sound { g with held := g.held.insert v.digest v } := by
      refine h.of_names rfl h.pending ?_
      intro d w hw
      simp only [get?_insert] at hw
      split_ifs at hw with same
      · cases hw
        exact ⟨same.symm, out.2.2⟩
      · exact h.held d w hw
    exact drainLoop_sound inj _ (reach_sound held _).1 []

end Collisions

theorem get?_foldl_erase {κ υ α : Type} [LinearOrder κ] (f : α → κ) (l : List α)
    (m : SortedMap κ υ) (k : κ) {x : υ} :
    (l.foldl (fun m e => m.erase (f e)) m).get? k = some x ↔
      m.get? k = some x ∧ ∀ e ∈ l, f e ≠ k := by
  induction l generalizing m with
  | nil => simp
  | cons a l ih =>
    rw [foldl_cons, ih, get?_erase]
    by_cases same : k = f a
    · simp [same]
    · simp [same, Ne.symm same]

theorem sound_pruneBelow (h : Sound g) (r : ℕ) : Sound (g.pruneBelow r).1 := by
  unfold pruneBelow
  split_ifs with low
  · exact h
  · refine ⟨?_, ?_, ?_, ?_⟩
    · intro k d v hv
      obtain ⟨hv, hr⟩ := get?_filter_eq_some.1 hv
      obtain ⟨hd, hk, -, hb⟩ := h.slot k d v hv
      have above : r ≤ v.round := by simpa [hk] using hr
      refine ⟨hd, hk, above, (get?_foldl_erase Prod.fst _ _ _).2 ⟨hb, ?_⟩⟩
      rintro ⟨e, w⟩ he rfl
      obtain ⟨k', hk'⟩ := mem_values.1 he
      obtain ⟨hw, hr'⟩ := get?_filter_eq_some.1 hk'
      obtain ⟨-, hk2, -, hb2⟩ := h.slot k' _ w hw
      have same : v.round = w.round := by
        rw [hb] at hb2
        exact congrArg Prod.fst (Option.some.inj hb2)
      have below : w.round < r := by simpa [hk2] using hr'
      omega
    · intro d k hk
      obtain ⟨hk, kept⟩ := (get?_foldl_erase Prod.fst _ _ _).1 hk
      obtain ⟨v, hv⟩ := h.digest d k hk
      refine ⟨v, get?_filter_eq_some.2 ⟨hv, ?_⟩⟩
      by_contra below
      refine kept (d, v) (mem_values.2 ⟨toLex k, ?_⟩) rfl
      exact get?_filter_eq_some.2 ⟨hv, by
        rw [decide_eq_true_eq] at below ⊢
        exact not_le.1 below⟩
    · intro d v hv
      obtain ⟨hv, hr⟩ := get?_filter_eq_some.1 hv
      exact ⟨(h.pending d v hv).1, by simpa using hr⟩
    · intro d v hv
      obtain ⟨hv, hr⟩ := get?_filter_eq_some.1 hv
      exact ⟨(h.held d v hv).1, by simpa using hr⟩

theorem floor_pruneBelow (g : Dag) (r : ℕ) : (g.pruneBelow r).1.floor = max g.floor r := by
  unfold pruneBelow
  split_ifs with low
  · exact (max_eq_left low).symm
  · exact (max_eq_right (not_le.1 low).le).symm

theorem mem_causalHistory {root : Digest} {skip : Digest → Bool} {r : VertexRef}
    (hr : r ∈ g.causalHistory root skip) :
    skip r.digest = false ∧ ∃ v, g.get r.digest = some v ∧ r.round = v.round ∧
      r.source = v.source := by
  unfold causalHistory at hr
  dsimp only at hr
  obtain ⟨d, hd, hm⟩ := mem_filterMap.1 ((mem_insertionSort _).1 hr)
  obtain ⟨v, hv, rfl⟩ := Option.map_eq_some_iff.1 hm
  refine ⟨?_, v, hv, rfl, rfl⟩
  cases Walk.reaches_of_mem_walk hd with
  | inl seen => cases seen
  | inr reached =>
    cases reached with
    | start h0 =>
      by_contra skipped
      have : skip root = false := by
        by_contra hs
        rw [if_pos (by simpa using hs)] at h0
        cases h0
      rw [if_neg (by simp [this]), mem_singleton] at h0
      exact skipped (h0 ▸ this)
    | @next x _ _ hy =>
      unfold expandRefs at hy
      split at hy
      · cases hy
      · simpa using (mem_filter.1 hy).2

theorem nodup_causalHistory (g : Dag) (root : Digest) (skip : Digest → Bool) :
    ((g.causalHistory root skip).map VertexRef.digest).Nodup := by
  unfold causalHistory
  dsimp only
  have perm := perm_insertionSort VertexRef.le
    ((Walk.walk (g.expandRefs skip)
      (g.walkFuel + (if skip root then [] else [root]).length)
      (if skip root then [] else [root]) []).filterMap (fun d =>
        (g.get d).map (fun v => (⟨v.round, v.source, d⟩ : VertexRef))))
  rw [(perm.map VertexRef.digest).nodup_iff, map_filterMap]
  refine Nodup.filterMap ?_ (Walk.nodup_walk nodup_nil)
  intro d e x hd he
  simp only [Option.map_map, Option.mem_def, Option.map_eq_some_iff] at hd he
  obtain ⟨v, -, rfl⟩ := hd
  obtain ⟨w, -, rfl⟩ := he
  rfl

end Tenzro.Dag
