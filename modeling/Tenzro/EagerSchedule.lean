import Tenzro.LeaderShare

set_option autoImplicit false
set_option linter.dupNamespace false

/-!
# The schedule drawn round by round

Every round is drawn from round 0 on under the entry that governs it; what is
read, and when, plays no part.
-/
namespace Tenzro
open List

section Entries

theorem entryFor_of_find {entries : List Entry} {round : ℕ} {e : Entry}
    (found : entries.reverse.find? (fun e => e.from' ≤ round) = some e) :
    entryFor entries round = e := by
  unfold entryFor
  rw [found]
  rfl

def Governed (entries : List Entry) (round : ℕ) : Prop := ∃ e ∈ entries, e.from' ≤ round

theorem Governed.find {entries : List Entry} {round : ℕ} (h : Governed entries round) :
    ∃ e, entries.reverse.find? (fun e => e.from' ≤ round) = some e := by
  obtain ⟨e, mem, starts⟩ := h
  rw [← Option.isSome_iff_exists, find?_isSome]
  exact ⟨e, mem_reverse.2 mem, decide_eq_true starts⟩

theorem Governed.mono {entries : List Entry} {round round' : ℕ} (h : Governed entries round)
    (le : round ≤ round') : Governed entries round' := by
  obtain ⟨e, mem, starts⟩ := h
  exact ⟨e, mem, starts.trans le⟩

theorem entryFor_append_left {pre entries : List Entry} {round : ℕ} (h : Governed entries round) :
    entryFor (pre ++ entries) round = entryFor entries round := by
  obtain ⟨e, found⟩ := h.find
  rw [entryFor_of_find found]
  refine entryFor_of_find ?_
  rw [reverse_append, find?_append, found]
  rfl

theorem entryFor_append_right {entries later : List Entry} {round : ℕ} (h : Governed entries round)
    (after : ∀ e ∈ later, round < e.from') :
    entryFor (entries ++ later) round = entryFor entries round := by
  obtain ⟨e, found⟩ := h.find
  have none' : later.reverse.find? (fun e => e.from' ≤ round) = none := by
    rw [find?_eq_none]
    intro e' mem
    simpa using after e' (mem_reverse.1 mem)
  rw [entryFor_of_find found]
  refine entryFor_of_find ?_
  rw [reverse_append, find?_append, none', found]
  rfl

theorem entryFor_filter {entries : List Entry} {round first : ℕ} (h : Governed entries round)
    (before : round < first) :
    entryFor (entries.filter (fun e => e.from' < first)) round = entryFor entries round := by
  obtain ⟨e, found⟩ := h.find
  rw [entryFor_of_find found]
  refine entryFor_of_find ?_
  rw [← filter_reverse, find?_filter, ← found]
  congr 1
  funext e'
  simp only [decide_eq_true_eq, decide_eq_decide]
  omega

theorem governed_filter {entries : List Entry} {round first : ℕ} (h : Governed entries round)
    (before : round < first) : Governed (entries.filter (fun e => e.from' < first)) round := by
  obtain ⟨e, mem, starts⟩ := h
  exact ⟨e, mem_filter.2 ⟨mem, decide_eq_true (starts.trans_lt before)⟩, starts⟩

theorem entryFor_redraw {entries : List Entry} {round first : ℕ} (h : Governed entries round)
    (before : round < first) {e : Entry} (starts : e.from' = first) :
    entryFor (entries.filter (fun e => e.from' < first) ++ [e]) round = entryFor entries round := by
  rw [entryFor_append_right (governed_filter h before), entryFor_filter h before]
  intro e' mem
  rw [mem_singleton.1 mem, starts]
  exact before

end Entries

namespace Drawn
variable [ScheduleHash]

def creditBefore (entries : List Entry) (slots size : ℕ) : ℕ → List ℤ
  | 0 => replicate size 0
  | r + 1 => (drawSlots (entryFor entries r) r slots 0 (creditBefore entries slots size r) []).1

def leadersAt (entries : List Entry) (slots size round : ℕ) : List ℕ :=
  (drawSlots (entryFor entries round) round slots 0 (creditBefore entries slots size round) []).2

theorem creditBefore_congr {entries entries' : List Entry} {slots size round : ℕ}
    (same : ∀ r < round, entryFor entries r = entryFor entries' r) :
    creditBefore entries slots size round = creditBefore entries' slots size round := by
  induction round with
  | zero => rfl
  | succ r ih =>
    unfold creditBefore
    rw [ih (fun r' lt => same r' (by omega)), same r (Nat.lt_succ_self r)]

theorem leadersAt_congr {entries entries' : List Entry} {slots size round : ℕ}
    (same : ∀ r ≤ round, entryFor entries r = entryFor entries' r) :
    leadersAt entries slots size round = leadersAt entries' slots size round := by
  unfold leadersAt
  rw [creditBefore_congr (fun r lt => same r lt.le), same round (le_refl round)]

def charge (entry : Entry) (credit : List ℤ) (leader : ℕ) : List ℤ :=
  pay (earn credit entry.weights) leader entry.total

omit [ScheduleHash] in
theorem length_charge (entry : Entry) (credit : List ℤ) (leader : ℕ) :
    (charge entry credit leader).length = credit.length := by
  unfold charge
  rw [length_pay, length_earn]

omit [ScheduleHash] in
theorem length_foldl_charge (entry : Entry) (l : List ℕ) (credit : List ℤ) :
    (l.foldl (charge entry) credit).length = credit.length := by
  induction l generalizing credit with
  | nil => rfl
  | cons a l ih => rw [foldl_cons, ih, length_charge]

theorem drawSlots_spec (entry : Entry) (round n : ℕ) :
    ∀ (slot : ℕ) (credit : List ℤ) (picked : List ℕ), ∃ l : List ℕ, l.length = n ∧
      drawSlots entry round n slot credit picked = (l.foldl (charge entry) credit, picked ++ l) := by
  induction n with
  | zero => exact fun _ _ picked => ⟨[], rfl, by simp [drawSlots]⟩
  | succ n ih =>
    intro slot credit picked
    let leader := pickLeader entry round slot (earn credit entry.weights) picked
    obtain ⟨l, length, drawn⟩ := ih (slot + 1) (charge entry credit leader) (picked ++ [leader])
    refine ⟨leader :: l, by rw [length_cons, length], ?_⟩
    unfold drawSlots
    rw [append_assoc] at drawn
    exact drawn

theorem length_leadersAt (entries : List Entry) (slots size round : ℕ) :
    (leadersAt entries slots size round).length = slots := by
  obtain ⟨l, length, drawn⟩ := drawSlots_spec (entryFor entries round) round slots 0
    (creditBefore entries slots size round) []
  unfold leadersAt
  rw [drawn]
  exact length

theorem creditBefore_succ (entries : List Entry) (slots size round : ℕ) :
    creditBefore entries slots size (round + 1) =
      (leadersAt entries slots size round).foldl (charge (entryFor entries round))
        (creditBefore entries slots size round) := by
  obtain ⟨l, -, drawn⟩ := drawSlots_spec (entryFor entries round) round slots 0
    (creditBefore entries slots size round) []
  conv_lhs => unfold creditBefore
  unfold leadersAt
  rw [drawn]
  rfl

theorem length_creditBefore (entries : List Entry) (slots size round : ℕ) :
    (creditBefore entries slots size round).length = size := by
  induction round with
  | zero => exact length_replicate
  | succ r ih => rw [creditBefore_succ, length_foldl_charge, ih]

section Distinct

omit [ScheduleHash] in
theorem exists_open {picked : List ℕ} {n : ℕ} (few : picked.length < n) : ∃ i < n, i ∉ picked := by
  by_contra! all
  have within : range n ⊆ picked := fun i mem => all i (mem_range.1 mem)
  have count := (nodup_range.subperm within).length_le
  rw [length_range] at count
  omega

omit [ScheduleHash] in
theorem richest_mem {l : List (ℤ × ℕ)} (nonempty : l ≠ []) :
    ∃ b ∈ l, l.foldl (fun best e =>
      match best with
      | none => some e
      | some b => if b.1 < e.1 then some e else some b) (none : Option (ℤ × ℕ)) = some b := by
  have kept : ∀ (l : List (ℤ × ℕ)) (b : ℤ × ℕ), ∃ b' ∈ b :: l, l.foldl (fun best e =>
      match best with
      | none => some e
      | some b => if b.1 < e.1 then some e else some b) (some b) = some b' := by
    intro l
    induction l with
    | nil => exact fun b => ⟨b, mem_cons_self, rfl⟩
    | cons e l ih =>
      intro b
      rw [foldl_cons]
      simp only
      split_ifs
      · obtain ⟨b', mem, best⟩ := ih e
        exact ⟨b', mem_cons_of_mem b mem, best⟩
      · obtain ⟨b', mem, best⟩ := ih b
        refine ⟨b', ?_, best⟩
        rcases mem_cons.1 mem with rfl | mem
        · exact mem_cons_self
        · exact mem_cons_of_mem b (mem_cons_of_mem e mem)
  obtain ⟨e, l, rfl⟩ := exists_cons_of_ne_nil nonempty
  exact kept l e

theorem pickLeader_open {entry : Entry} {round slot : ℕ} {credit : List ℤ} {picked : List ℕ}
    (few : picked.length < credit.length) :
    pickLeader entry round slot credit picked ∉ picked ∧
      pickLeader entry round slot credit picked < credit.length := by
  unfold pickLeader
  simp only
  split_ifs with idle
  · have open' : (credit.zipIdx.filter (fun e => !picked.contains e.2)) ≠ [] := by
      obtain ⟨i, lt, free⟩ := exists_open few
      refine ne_nil_of_mem (mem_filter.2 ⟨(?_ : (credit[i], i) ∈ credit.zipIdx), ?_⟩)
      · rw [mem_zipIdx_iff_getElem?]
        exact getElem?_eq_getElem lt
      · simpa using free
    obtain ⟨⟨x, i⟩, mem, best⟩ := richest_mem open'
    have chosen : richest credit picked = i := congrArg (fun b => b.elim 0 Prod.snd) best
    rw [chosen]
    obtain ⟨entry', free⟩ := mem_filter.1 mem
    rw [mem_zipIdx_iff_getElem?] at entry'
    exact ⟨by simpa using free, (List.getElem?_eq_some_iff.1 entry').1⟩
  · have drawn := pickDue_mem (Nat.mod_lt (ScheduleHash.drawHash entry.seed round slot)
      (Nat.pos_of_ne_zero idle))
    obtain ⟨⟨i, w⟩, mem, same⟩ := mem_map.1 drawn
    obtain ⟨x, credited, -, -, free⟩ := mem_due.1 mem
    rw [← same]
    exact ⟨free, (List.getElem?_eq_some_iff.1 credited).1⟩

theorem nodup_drawSlots (entry : Entry) (round n : ℕ) :
    ∀ (slot : ℕ) (credit : List ℤ) (picked : List ℕ), picked.Nodup →
      picked.length + n ≤ credit.length → (drawSlots entry round n slot credit picked).2.Nodup := by
  induction n with
  | zero => exact fun _ _ _ nodup _ => nodup
  | succ n ih =>
    intro slot credit picked nodup room
    unfold drawSlots
    simp only
    have free : pickLeader entry round slot (earn credit entry.weights) picked ∉ picked :=
      (pickLeader_open (by rw [length_earn]; omega)).1
    refine ih _ _ _ ?_ ?_
    · rw [nodup_append]
      refine ⟨nodup, nodup_singleton _, ?_⟩
      rintro i mem j only rfl
      rw [mem_singleton.1 only] at mem
      exact free mem
    · rw [length_pay, length_earn, length_append, length_singleton]
      omega

theorem nodup_leadersAt {slots size : ℕ} (room : slots ≤ size) (entries : List Entry) (round : ℕ) :
    (leadersAt entries slots size round).Nodup := by
  unfold leadersAt
  refine nodup_drawSlots _ _ _ _ _ _ nodup_nil ?_
  rw [length_creditBefore, length_nil, Nat.zero_add]
  exact room

end Distinct

end Drawn

/-- The calls a validator makes on its schedule. -/
inductive ScheduleCall where
  | recordOutcome (leader : ValidatorIndex) (committed : Bool)
  | leader (round slot : ℕ)
  | advance (anchorRound : ℕ) (seedCheckpoint : Digest)

/-- Every entry the epoch had, and the round the draws are kept from. -/
structure EagerSchedule where
  size : ℕ
  slots : ℕ
  lookahead : ℕ
  entries : List Entry
  outcomes : List (ValidatorIndex × Bool)
  base : ℕ

def governing (entries : List Entry) (base : ℕ) : List Entry :=
  entries.drop ((entries.filter (fun e => e.from' ≤ base)).length - 1)

namespace EagerSchedule
variable [ScheduleHash]

def new (c : Committee) (epochSeed : Digest) (slots lookahead : ℕ) : EagerSchedule where
  size := c.size
  slots := max 1 (min slots (max c.size 1))
  lookahead := max lookahead 1
  entries := [Entry.new 0 epochSeed (c.members.map (fun m => m.seats * activeFactor))]
  outcomes := []
  base := 0

def leadersOf (e : EagerSchedule) (round : ℕ) : List ℕ :=
  Drawn.leadersAt e.entries e.slots e.size round

def leader (e : EagerSchedule) (round slot : ℕ) : ValidatorIndex :=
  (e.leadersOf round).getD (min slot (e.slots - 1)) 0

def recordOutcome (e : EagerSchedule) (leader : ValidatorIndex) (committed : Bool) :
    EagerSchedule :=
  let outcomes := e.outcomes ++ [(leader, committed)]
  { e with outcomes := outcomes.drop (outcomes.length - behaviourWindow) }

/-- A new entry takes over from its first round on. -/
def advance (e : EagerSchedule) (c : Committee) (anchorRound : ℕ) (seedCheckpoint : Digest) :
    EagerSchedule :=
  let first := anchorRound + e.lookahead + 1
  let weights := c.members.zipIdx.map (fun m => Schedule.behaviourWeight e.outcomes m.1.seats m.2)
  { e with
    entries := e.entries.filter (fun x => x.from' < first) ++
      [Entry.new first (ScheduleHash.leaderSeed seedCheckpoint) weights]
    base := snapshotEvery * (anchorRound / snapshotEvery) }

def call (c : Committee) (e : EagerSchedule) : ScheduleCall → EagerSchedule
  | .recordOutcome leader committed => e.recordOutcome leader committed
  | .leader _ _ => e
  | .advance anchorRound seed => e.advance c anchorRound seed

def runCalls (c : Committee) (e : EagerSchedule) (calls : List ScheduleCall) : EagerSchedule :=
  calls.foldl (call c) e

def exportState (e : EagerSchedule) : ScheduleState where
  entries := (governing e.entries e.base).map (fun x => (x.from', x.seed, x.weights))
  outcomes := e.outcomes
  slots := e.slots
  lookahead := e.lookahead
  base := e.base
  credit := Drawn.creditBefore e.entries e.slots e.size e.base

/-- What every eager schedule of a committee keeps. -/
structure Sound (e : EagerSchedule) : Prop where
  slots : 0 < e.slots
  room : e.slots ≤ e.size
  lookahead : 0 < e.lookahead
  starts : Governed e.entries 0
  ordered : (e.entries.map Entry.from').Pairwise (· < ·)
  totals : ∀ x ∈ e.entries, x.total = x.weights.sum

omit [ScheduleHash] in
theorem sound_new (c : Committee) (epochSeed : Digest) (slots lookahead : ℕ) :
    (new c epochSeed slots lookahead).Sound := by
  have members : 0 < c.size := length_pos_iff.2 c.nonempty
  refine ⟨?_, ?_, ?_, ⟨_, mem_cons_self, le_refl 0⟩, pairwise_singleton _ _, ?_⟩
  · unfold new
    simp only
    omega
  · unfold new
    simp only
    omega
  · unfold new
    simp only
    omega
  · intro x mem
    rw [mem_singleton.1 mem]
    rfl

omit [ScheduleHash] in
theorem Sound.recordOutcome {e : EagerSchedule} (h : e.Sound) (leader : ValidatorIndex)
    (committed : Bool) : (e.recordOutcome leader committed).Sound :=
  ⟨h.slots, h.room, h.lookahead, h.starts, h.ordered, h.totals⟩

theorem Sound.advance {e : EagerSchedule} (h : e.Sound) (c : Committee) (anchorRound : ℕ)
    (seed : Digest) : (e.advance c anchorRound seed).Sound := by
  refine ⟨h.slots, h.room, h.lookahead, ?_, ?_, ?_⟩
  · obtain ⟨x, mem, starts⟩ : Governed
        (e.entries.filter fun x => x.from' < anchorRound + e.lookahead + 1) 0 :=
      governed_filter h.starts (Nat.succ_pos _)
    exact ⟨x, mem_append_left _ mem, starts⟩
  · unfold EagerSchedule.advance
    simp only
    rw [map_append, pairwise_append]
    refine ⟨h.ordered.sublist (filter_sublist.map _), pairwise_singleton _ _, ?_⟩
    intro a before b last
    obtain ⟨x, kept, rfl⟩ := mem_map.1 before
    have under := of_decide_eq_true (mem_filter.1 kept).2
    rw [map_singleton, mem_singleton] at last
    rw [last]
    exact under
  · intro x mem
    rcases mem_append.1 mem with old | new'
    · exact h.totals x (mem_filter.1 old).1
    · rw [mem_singleton.1 new']
      rfl

theorem Sound.leader_advance {e : EagerSchedule} (h : e.Sound) (c : Committee) {anchorRound r : ℕ}
    (seed : Digest) (le : r ≤ anchorRound + e.lookahead) (slot : ℕ) :
    (e.advance c anchorRound seed).leader r slot = e.leader r slot := by
  have same : (e.advance c anchorRound seed).leadersOf r = e.leadersOf r := by
    refine Drawn.leadersAt_congr (fun r' le' => ?_)
    exact entryFor_redraw (h.starts.mono (Nat.zero_le r')) (by omega) rfl
  unfold leader
  rw [same]
  rfl

end EagerSchedule

end Tenzro
