import Tenzro.Vertex

set_option autoImplicit false
set_option linter.dupNamespace false

/-!
# The leader schedule

Leaders are drawn slot by slot under a credit bound. The source draws lazily
behind a lock; here every query returns the schedule with what it drew.
-/
namespace Tenzro

class ScheduleHash where
  /-- The first eight bytes of the draw hash of (seed, round, slot). -/
  drawHash : Digest → ℕ → ℕ → ℕ
  epochSeed : ℕ → Digest → Digest
  leaderSeed : Digest → Digest

@[irreducible] def behaviourWindow : ℕ := 200
@[irreducible] def activeFactor : ℕ := 1000
@[irreducible] def failedFactor : ℕ := 1
@[irreducible] def failureThresholdPercent : ℕ := 10
@[irreducible] def snapshotEvery : ℕ := 64

structure Entry where
  from' : ℕ
  seed : Digest
  weights : List ℕ
  total : ℕ
deriving DecidableEq, Repr

def Entry.new (from' : ℕ) (seed : Digest) (weights : List ℕ) : Entry :=
  ⟨from', seed, weights, weights.sum⟩

structure Drawn where
  slots : ℕ
  base : ℕ
  leaders : List ValidatorIndex
  credit : List ℤ
  snapshots : List (ℕ × List ℤ)
deriving DecidableEq, Repr

namespace Drawn

def new (n slots : ℕ) : Drawn := ⟨slots, 0, [], List.replicate n 0, [(0, List.replicate n 0)]⟩

def nextRound (d : Drawn) : ℕ := d.base + d.leaders.length / d.slots

def index (d : Drawn) (round slot : ℕ) : ℕ := (round - d.base) * d.slots + slot

def earn : List ℤ → List ℕ → List ℤ
  | c :: credit, w :: weights => (c + (w : ℤ)) :: earn credit weights
  | credit, _ => credit

def pay (credit : List ℤ) (leader total : ℕ) : List ℤ :=
  credit.modify leader (· - (total : ℤ))

def due (credit : List ℤ) (weights : List ℕ) (picked : List ℕ) : List (ℕ × ℕ) :=
  ((credit.zip weights).zipIdx.filter (fun e => 0 < e.1.1 && !picked.contains e.2)).map
    (fun e => (e.2, e.1.2))

def pickDue : List (ℕ × ℕ) → ℕ → ℕ
  | [], _ => 0
  | (i, w) :: l, draw => if draw < w then i else pickDue l (draw - w)

/-- The open member holding the most credit, the lowest index among equals. -/
def richest (credit : List ℤ) (picked : List ℕ) : ℕ :=
  ((credit.zipIdx.filter (fun e => !picked.contains e.2)).foldl (fun best e =>
    match best with
    | none => some e
    | some b => if b.1 < e.1 then some e else some b) (none : Option (ℤ × ℕ))).elim 0 Prod.snd

variable [ScheduleHash]

def pickLeader (entry : Entry) (round slot : ℕ) (credit : List ℤ) (picked : List ℕ) : ℕ :=
  let d := due credit entry.weights picked
  let total := (d.map Prod.snd).sum
  if total = 0 then richest credit picked
  else pickDue d (ScheduleHash.drawHash entry.seed round slot % total)

def drawSlots (entry : Entry) (round : ℕ) : ℕ → ℕ → List ℤ → List ℕ → List ℤ × List ℕ
  | 0, _, credit, picked => (credit, picked)
  | n + 1, slot, credit, picked =>
    let credit := earn credit entry.weights
    let leader := pickLeader entry round slot credit picked
    drawSlots entry round n (slot + 1) (pay credit leader entry.total) (picked ++ [leader])

def draw (d : Drawn) (entry : Entry) : Drawn :=
  let round := d.nextRound
  let snapshots :=
    if round % snapshotEvery = 0 ∧ d.snapshots.getLast?.all (fun s => s.1 < round)
    then d.snapshots ++ [(round, d.credit)] else d.snapshots
  let (credit, picked) := drawSlots entry round d.slots 0 d.credit []
  { d with leaders := d.leaders ++ picked, credit := credit, snapshots := snapshots }

end Drawn

def entryFor (entries : List Entry) (round : ℕ) : Entry :=
  (entries.reverse.find? (fun e => e.from' ≤ round)).getD (entries.headD ⟨0, 0, [], 0⟩)

namespace Drawn

def replayCredit (d : Drawn) (entries : List Entry) : ℕ → ℕ → List ℤ → List ℤ
  | 0, _, credit => credit
  | n + 1, r, credit =>
    let e := entryFor entries r
    replayCredit d entries n (r + 1)
      ((List.range d.slots).foldl (fun credit slot =>
        pay (earn credit e.weights) (d.leaders.getD (d.index r slot) 0) e.total) credit)

/-- Forgets the leaders of `round` and later, restoring the credit before it. -/
def truncate (d : Drawn) (round : ℕ) (entries : List Entry) : Drawn :=
  if d.nextRound ≤ round then d
  else
    let round := max round d.base
    let snapshots := d.snapshots.filter (fun s => s.1 ≤ round)
    let last := snapshots.getLastD (d.base, d.credit)
    { d with
      snapshots := snapshots
      credit := d.replayCredit entries (round - last.1) last.1 last.2
      leaders := d.leaders.take (d.index round 0) }

def pruneBelow (d : Drawn) (round : ℕ) : Drawn :=
  let keep := (d.snapshots.filter (fun s => s.1 ≤ round)).length - 1
  let snapshots := d.snapshots.drop keep
  let base := (snapshots.headD (d.base, d.credit)).1
  { d with
    snapshots := snapshots
    leaders := d.leaders.drop ((base - d.base) * d.slots)
    base := base }

end Drawn

/-- The schedule as a checkpoint commits it. -/
structure ScheduleState where
  entries : List (ℕ × Digest × List ℕ)
  outcomes : List (ValidatorIndex × Bool)
  slots : ℕ
  lookahead : ℕ
  base : ℕ
  credit : List ℤ
deriving DecidableEq

structure Schedule where
  lookahead : ℕ
  entries : List Entry
  outcomes : List (ValidatorIndex × Bool)
  drawn : Drawn
deriving DecidableEq, Repr

namespace Schedule

variable [ScheduleHash]

def new (c : Committee) (epochSeed : Digest) (slots lookahead : ℕ) : Schedule where
  lookahead := max lookahead 1
  entries := [Entry.new 0 epochSeed (c.members.map (fun m => m.seats * activeFactor))]
  outcomes := []
  drawn := Drawn.new c.size (max 1 (min slots (max c.size 1)))

def slots (s : Schedule) : ℕ := s.drawn.slots

def drawMore : ℕ → Schedule → Schedule
  | 0, s => s
  | n + 1, s =>
    drawMore n { s with drawn := s.drawn.draw (entryFor s.entries s.drawn.nextRound) }

def drawThrough (s : Schedule) (round : ℕ) : Schedule :=
  if round < s.drawn.base then
    if s.drawn.leaders = [] then s.drawMore 1 else s
  else s.drawMore (round + 1 - s.drawn.nextRound)

/-- The leader of slot `slot` of `round`. A round below the retained draws reads
the oldest retained one. -/
def leader (s : Schedule) (round slot : ℕ) : ValidatorIndex :=
  let d := (s.drawThrough round).drawn
  let slot := min slot (d.slots - 1)
  if round < d.base then d.leaders.getD slot 0 else d.leaders.getD (d.index round slot) 0

def leads (s : Schedule) (round : ℕ) (v : ValidatorIndex) : Bool :=
  (List.range s.slots).any (fun k => s.leader round k = v)

def recordOutcome (s : Schedule) (leader : ValidatorIndex) (committed : Bool) : Schedule :=
  let outcomes := s.outcomes ++ [(leader, committed)]
  { s with outcomes := outcomes.drop (outcomes.length - behaviourWindow) }

def behaviourWeight (outcomes : List (ValidatorIndex × Bool)) (seats i : ℕ) : ℕ :=
  let own := outcomes.filter (fun o => o.1 = i)
  let skipped := (own.filter (fun o => !o.2)).length
  let failed := 0 < own.length && own.length * failureThresholdPercent < skipped * 100
  seats * (if failed then failedFactor else activeFactor)

def advance (s : Schedule) (c : Committee) (anchorRound : ℕ) (seedCheckpoint : Digest) :
    Schedule :=
  let weights := c.members.zipIdx.map (fun m => behaviourWeight s.outcomes m.1.seats m.2)
  let first := anchorRound + s.lookahead + 1
  let drawn := (s.drawn.truncate first s.entries).pruneBelow anchorRound
  let entries := s.entries.filter (fun e => e.from' < first) ++
    [Entry.new first (ScheduleHash.leaderSeed seedCheckpoint) weights]
  { s with
    drawn := drawn
    entries := entries.drop ((entries.filter (fun e => e.from' ≤ drawn.base)).length - 1) }

def exportState (s : Schedule) : ScheduleState where
  entries := s.entries.map (fun e => (e.from', e.seed, e.weights))
  outcomes := s.outcomes
  slots := s.drawn.slots
  lookahead := s.lookahead
  base := (s.drawn.snapshots.headD (s.drawn.base, s.drawn.credit)).1
  credit := (s.drawn.snapshots.headD (s.drawn.base, s.drawn.credit)).2

def importState (t : ScheduleState) : Schedule where
  lookahead := max t.lookahead 1
  entries := t.entries.map (fun e => Entry.new e.1 e.2.1 e.2.2)
  outcomes := t.outcomes
  drawn := ⟨max t.slots 1, t.base, [], t.credit, [(t.base, t.credit)]⟩

end Schedule

end Tenzro
