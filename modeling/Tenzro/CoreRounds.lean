import Tenzro.CoreOrdering

set_option autoImplicit false
set_option linter.dupNamespace false

/-!
# Reliable broadcast, the DAG and rounds
-/
namespace Tenzro
variable [Hashing]

namespace Core

def noteInserted (c : Core) (r : VertexRef) : Core :=
  let c := { c with
    net := { c.net with wantedVertices := c.net.wantedVertices.erase r.digest }
    bodies := c.bodies.erase r.digest }
  match c.dag.get r.digest with
  | none => c
  | some v =>
    { c with
      lastPayloadRound := if v.batches.isEmpty && v.carried.isEmpty then c.lastPayloadRound
        else some (max (c.lastPayloadRound.getD 0) v.round)
      journal := c.journal ++ [.delivered v]
      carryPool := v.batches.foldl (fun m b => m.erase (toLex (v.source, b.sequence))) c.carryPool
      net := (v.batches ++ v.carried.map CarriedBatch.batch).foldl (fun net b =>
        if !c.payloads.contains b.digest && v.source ≠ c.me
        then wantBatch net b.digest v.source v.round else net) c.net }

def wantVertex (net : Net) (d : Digest) : Net :=
  { net with
    wantedVertices := net.wantedVertices.insert d (net.wantedVertices.getD d Wanted.default) }

def afterOffer (c : Core) (inserted : List VertexRef) (missing : List Digest) : Core :=
  let c := inserted.foldl noteInserted c
  { c with net := missing.foldl wantVertex c.net }

def offer (c : Core) (v : Vertex) : Core :=
  let (dag, inserted, missing) := c.dag.offer v
  { c with dag := dag }.afterOffer inserted missing

def holdVertex (c : Core) (v : Vertex) : Core :=
  let (dag, inserted, missing) := c.dag.hold v
  { c with dag := dag }.afterOffer inserted missing

/-- Delivered before the batches were held: the body is the held-back proposal. -/
def takeUnechoed (c : Core) (round : ℕ) (source : ValidatorIndex) (d : Digest) : Core :=
  match c.unechoed.get? (toLex (round, source)) with
  | some v => if v.digest = d then { c with bodies := c.bodies.insert d v } else c
  | none => c

def offerBody (c : Core) (d : Digest) : Core :=
  match c.bodies.get? d with
  | some v => c.offer v
  | none => { c with net := wantVertex c.net d }

def onDeliver (c : Core) (round : ℕ) (source : ValidatorIndex) (d : Digest) : Core :=
  ({ c with dag := c.dag.expect d round }.takeUnechoed round source d).offerBody d

def applyAction (c : Core) : RbcAction → Core
  | .broadcast s => { c with journal := c.journal ++ [.signal s] }
  | .deliver round source d => c.onDeliver round source d

def broadcastsOf (acts : List RbcAction) : List Signal :=
  acts.filterMap (fun
    | .broadcast s => some s
    | .deliver .. => none)

def applyRbc (c : Core) (acts : List RbcAction) : Core :=
  let c := acts.foldl applyAction c
  if broadcastsOf acts = [] then c else c.send .all (.signals (broadcastsOf acts))

def echo (c : Core) (v : Vertex) : Core :=
  let d := v.digest
  let (rbc, acts) := c.rbc.onPropose c.committee v.source v.round v.source d
  let c := { c with rbc := rbc }
  let c := if acts ≠ [] ∧ c.dag.contains d = false
    then { c with bodies := c.bodies.insert d v } else c
  c.applyRbc acts

def namedBatches (v : Vertex) : List (ValidatorIndex × BatchRef) :=
  v.batches.map (fun b => (v.source, b)) ++ v.carried.map (fun x => (x.author, x.batch))

/-- None while a named batch is missing, else whether each is what it is named as. -/
def holdsBatchesOf (c : Core) (v : Vertex) : Option Bool :=
  if (namedBatches v).all (fun e => c.payloads.contains e.2.digest) then
    some ((namedBatches v).all (fun e =>
      (c.payloads.get? e.2.digest).any (fun p => p.author = e.1 && p.sequence = e.2.sequence &&
        p.transactions = e.2.transactions && p.body.length = e.2.bytes)))
  else none

def echoHeld (c : Core) : Core :=
  (c.unechoed.entries.filterMap (fun e => (c.holdsBatchesOf e.2).map (fun ok => (e.1, ok)))).foldl
    (fun c e =>
      match c.unechoed.get? e.1 with
      | none => c
      | some v =>
        let c := { c with unechoed := c.unechoed.erase e.1 }
        if e.2 then c.echo v else c) c

def askBatch (v : Vertex) (net : Net) (d : Digest) : Net :=
  let w := net.wantedBatches.getD d ⟨net.nowMs, 1, some v.source, v.round⟩
  { net with wantedBatches := net.wantedBatches.insert d { w with round := max w.round v.round } }

def noteProposal (c : Core) (v : Vertex) : Core :=
  { c with firstProposals := c.firstProposals.insert (toLex (v.round, v.source)) v.strong }

def missingBatches (c : Core) (v : Vertex) : List Digest :=
  ((namedBatches v).map (fun e => e.2.digest)).filter (fun d => !c.payloads.contains d)

/-- Holds a proposal back and asks its author for the missing batches. -/
def holdBack (c : Core) (v : Vertex) : Core :=
  { c with
    net := (c.missingBatches v).foldl (askBatch v) c.net
    outbox := c.outbox ++ (chunksOf maxFetch (c.missingBatches v)).map
      (fun ds => (Target.one v.source, Message.fetchBatches ds))
    unechoed := c.unechoed.insert (toLex (v.round, v.source)) v }

/-- A batch-complete proposal is echoed if it names its batches as what they are. -/
def takeProposal (c : Core) (v : Vertex) : Core :=
  if c.missingBatches v = [] then
    if c.holdsBatchesOf v = some true then c.echo v else c
  else c.holdBack v

def onPropose (c : Core) (frm : ValidatorIndex) (v : Vertex) : Core :=
  if frm ≠ v.source ∨ v.wellFormed c.committee = false then c
  else if v.round < c.dag.floor ∨ c.round.getD 0 + c.cfg.maxRoundsAhead < v.round then c
  else if (c.rbc.proposed v.round v.source).isSome = true ∨
      c.unechoed.contains (toLex (v.round, v.source)) = true then c
  else (c.noteProposal v).takeProposal v

def onSignals (c : Core) (frm : ValidatorIndex) (ss : List Signal) : Core :=
  let horizon := c.round.getD 0 + c.cfg.maxRoundsAhead
  ss.foldl (fun c s =>
    if horizon < s.round then c
    else
      let (rbc, acts) := c.rbc.onSignal c.committee frm s
      { c with rbc := rbc }.applyRbc acts) c

def takeCarried (c : Core) (round : ℕ) : Core × List CarriedBatch :=
  if c.halted then (c, [])
  else
    let c := c.askSchedule round
    if c.schedule.leads round c.me then
      let taken := c.carryPool.entries.take maxCarried
      ({ c with carryPool := c.carryPool.filter (fun k _ => (taken.map Prod.fst).contains k = false) },
        taken.map (fun e => ⟨(ofLex e.1).1, e.2⟩))
    else (c, [])

def strongRefs (c : Core) (round : ℕ) : List VertexRef :=
  if round = 0 then []
  else ((c.dag.round (round - 1)).map
    (fun e => (⟨round - 1, e.1, e.2.1⟩ : VertexRef))).insertionSort VertexRef.le

def weakRefs (c : Core) (round : ℕ) (strong : List VertexRef) : List VertexRef :=
  if 2 ≤ round then
    c.dag.orphansBelow (round - 1) (strong.map VertexRef.digest) c.ordered.contains
      c.cfg.maxWeakRefs
  else []

def buildVertex (c : Core) (round nowMs : ℕ) : Core × Vertex :=
  let strong := c.strongRefs round
  let weak := c.weakRefs round strong
  let batches := if c.halted then [] else c.ownUnintroduced
  let c := { c with
    ownUnintroduced := if c.halted then c.ownUnintroduced else []
    ownIntroduced := batches.foldl (fun m (b : BatchRef) => m.insert b.digest round) c.ownIntroduced }
  let (c, carried) := c.takeCarried round
  (c,
    { epoch := c.committee.epoch
      round := round
      source := c.me
      strong := strong
      weak := weak
      batches := batches
      carried := carried
      timestampMs := max nowMs c.lastTimestampMs })

def sendOwn (c : Core) (v : Vertex) (nowMs : ℕ) : Core :=
  let d := v.digest
  let c := { c with
    round := some v.round
    net := { c.net with roundEnteredMs := nowMs }
    firstProposals := c.firstProposals.insert (toLex (v.round, c.me)) v.strong
    bodies := c.bodies.insert d v
    journal := c.journal ++ [Record.own v]
    outbox := c.outbox ++ [(Target.all, Message.propose v)] }
  let (rbc, acts) := c.rbc.onPropose c.committee c.me v.round c.me d
  { c with rbc := rbc }.applyRbc acts

def propose (c : Core) (round nowMs : ℕ) : Core :=
  let (c, v) := c.buildVertex round nowMs
  c.sendOwn v nowMs

/-- Whether a round's leaders are final for a validator whose first undecided slot is in
`nextUndecided`. -/
def leadersSettled (r nextUndecided lookahead : ℕ) : Bool := r ≤ satAdd nextUndecided lookahead

def roundInterval (c : Core) : ℕ :=
  if c.halted || c.isIdle then c.cfg.idleRoundIntervalMs else c.cfg.minRoundIntervalMs

def mayLeave (c : Core) (r nowMs : ℕ) (paced : Bool) : Bool :=
  c.round.all (fun current => current ≤ r) &&
    !(paced && (c.net.frontierHeld || nowMs < satAdd c.net.roundEnteredMs c.roundInterval)) &&
    !(paced && satAdd (c.lastCommitted.getD 0) c.maxUncommittedRounds < r + 1) &&
    c.committee.quorum ≤ c.roundWeight r

def leadersDone (c : Core) (r nowMs : ℕ) (paced : Bool) : Bool :=
  let held := if leadersSettled r c.nextSlot.1 c.schedule.lookahead
    then (List.range c.schedule.slots).all (fun k =>
      (c.dag.vertexAt r (c.schedule.leader r k)).isSome)
    else (c.dag.round r).length = c.committee.size
  let ownSlotMissing := !paced && (c.dag.vertexAt r c.me).isNone &&
    (List.range c.schedule.slots).any (fun k => c.schedule.leader r k = c.me)
  held || (!ownSlotMissing && satAdd c.net.roundEnteredMs c.cfg.leaderTimeoutMs ≤ nowMs)

def enterAfter (c : Core) (r nowMs : ℕ) (paced : Bool) : Core × Bool :=
  if c.mayLeave r nowMs paced = false then (c, false)
  else
    let c := if leadersSettled r c.nextSlot.1 c.schedule.lookahead ||
        (!paced && (c.dag.vertexAt r c.me).isNone) then c.askSchedule r else c
    if c.leadersDone r nowMs paced = false then (c, false)
    else (c.propose (r + 1) nowMs, true)

def topWithQuorum (c : Core) (current : ℕ) : ℕ → ℕ
  | 0 => current
  | n + 1 => if c.committee.quorum ≤ c.roundWeight (current + n + 1) then current + n + 1
    else topWithQuorum c current n

/-- A validator that leads a slot of `top` proposes in it first. -/
def leadTop (c : Core) (top nowMs : ℕ) : Core × Bool :=
  if c.schedule.leads top c.me then c.enterAfter (top - 1) nowMs false else (c, false)

def catchUp (c : Core) (top current nowMs : ℕ) : Core × Bool :=
  let led := (c.askSchedule top).leadTop top nowMs
  if led.2 then led
  else
    let jumped := led.1.enterAfter top nowMs false
    if jumped.2 then jumped else jumped.1.enterAfter current nowMs true

/-- One turn of `try_advance`; the flag says whether a round was proposed. -/
def advanceOnce (c : Core) (nowMs : ℕ) : Core × Bool :=
  match c.round with
  | none => (c, false)
  | some current =>
    let top := c.topWithQuorum current ((c.dag.highestRound.getD current) - current)
    if current < top then c.catchUp top current nowMs else c.enterAfter current nowMs true

def advanceLoop : ℕ → Core → ℕ → Core
  | 0, c, _ => c
  | n + 1, c, nowMs =>
    let (c', entered) := c.advanceOnce nowMs
    if entered then advanceLoop n c' nowMs else c'

def highestHeld (c : Core) : ℕ :=
  (c.dag.rounds.values.map (fun e => e.2.round) ++ c.dag.pending.values.map Vertex.round ++
    c.dag.held.values.map Vertex.round ++ c.bodies.values.map Vertex.round ++
    c.unechoed.values.map Vertex.round).foldl max 0

/-- Every turn but the last enters a higher round: one a held vertex's round allows, or one
within the uncommitted rounds. -/
def tryAdvance (c : Core) (nowMs : ℕ) : Core :=
  advanceLoop (max c.highestHeld (satAdd (c.lastCommitted.getD 0) c.maxUncommittedRounds) + 2)
    c nowMs

def progress (c : Core) (nowMs : ℕ) : Core := (c.tryCommit.tryAdvance nowMs).releaseSegments

end Core

end Tenzro
