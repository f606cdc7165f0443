import Tenzro.CoreMessages

set_option autoImplicit false
set_option linter.dupNamespace false

/-!
# Inputs, recovery and runs
-/
namespace Tenzro
variable [Hashing]

namespace Core

def tryStart (c : Core) (nowMs : ℕ) : Core :=
  if c.net.started = true ∧ c.resuming.isNone = true ∧ c.round = none ∧
      c.committee.quorum ≤ c.net.connected.weight then c.propose 0 nowMs
  else c

def askOrdering (c : Core) (nowMs : ℕ) : Core :=
  match c.resuming with
  | none => c
  | some r =>
    if r.askedMs ≠ 0 ∧ nowMs < satAdd r.askedMs (satMul (max c.cfg.fetchRetryMs 1) 4) then c
    else
      { c with resuming := some { r with askedMs := max nowMs 1 } }.send .all
        (.fetchOrdering r.certificate.checkpoint.index)

def connect (c : Core) (i : ValidatorIndex) (nowMs : ℕ) : Core :=
  { c with net := { c.net with
      nowMs := nowMs
      connected := (c.net.connected.insert i (c.committee.seats i)).1 } }

def startEpoch (c : Core) (nowMs : ℕ) : Core :=
  let c := c.connect c.me nowMs
  let c := { c with net := { c.net with started := true } }
  if c.resuming.isSome then c.askOrdering nowMs else c.tryStart nowMs

def onPeerUp (c : Core) (peer : ValidatorIndex) (nowMs : ℕ) : Core :=
  if peer = c.me ∨ c.committee.member peer = none then c
  else
    let c := c.connect peer nowMs
    match c.resuming with
    | some r => c.send (.one peer) (.fetchOrdering r.certificate.checkpoint.index)
    | none => (c.send (.one peer) (.frontier c.frontier)).tryStart nowMs

/-- The sequence after every own batch the installed frontier holds. -/
def ownNext (c : Core) (state : OrderingState) : ℕ :=
  max ((((state.availability.early.filter (fun e => e.1 = c.me)).flatMap
      (fun e => e.2.map (fun i => i.1 + 1))).max?).getD 0)
    ((Availability.importState state.availability).releasedThrough c.me)

def install (c : Core) (certificate : Certificate) (state : OrderingState) (ownRound : Option ℕ)
    (nowMs : ℕ) : Core :=
  let index := certificate.checkpoint.index
  { c with
    resuming := none
    journal := c.journal ++ [Record.resumed certificate state]
    dag := ((freshDag c.committee).pruneBelow state.floor).1
    ordered := .ofList state.ordered
    nextSlot := state.nextSlot
    lastCommitted := some state.anchorRound
    nextHeight := state.nextHeight
    lastTimestampMs := state.lastTimestampMs
    lastStateHeight := state.lastStateHeight
    lastCheckpointHeight := state.lastCheckpointHeight
    lastCheckpointTs := state.lastCheckpointTs
    nextCheckpointIndex := index + 1
    epochEndsMs := state.epochEndsMs
    epochClosed := state.epochClosed
    handoverIndex := state.handoverIndex
    seedChain := if state.seedTail = [] then [certificate.checkpoint.prev] else state.seedTail
    schedule := .importState state.schedule
    availability := .importState state.availability
    nextBatchSequence := max c.nextBatchSequence (c.ownNext state)
    prevCheckpoint := certificate.checkpoint.digest
    decided := []
    waiting := []
    uncertifiedPayloads := .empty
    round := some (max (ownRound.getD 0) state.anchorRound)
    certificates := c.certificates.insert index certificate
    orderingStates := c.orderingStates.insert index state
    handovers := if state.epochClosed then c.handovers ++ [(state.handoverIndex,
        (c.certificates.insert index certificate).contains state.handoverIndex)]
      else c.handovers
    installed := some (certificate, state)
    net := { c.net with roundEnteredMs := nowMs, wantedVertices := .empty } }

/-- A peer's answer, installed if it is the state the certificate commits. -/
def onOrdering (c : Core) (state : OrderingState) : Core :=
  match c.resuming with
  | none => c
  | some r =>
    let cp := r.certificate.checkpoint
    if state.index ≠ cp.index ∨ state.epoch ≠ cp.epoch ∨ state.digest ≠ cp.orderingRoot then c
    else
      let now := c.net.nowMs
      let c := c.install r.certificate state r.ownRound now
      let c := { c with net := { c.net with lastRepairMs := now } }
      (c.send .all (.frontier c.frontier)).progress now

/-- While resuming only an ordering state counts. -/
def onOrderings (c : Core) (ms : List Message) : Core :=
  ms.foldl (fun c m =>
    match m with
    | .ordering state => c.onOrdering state
    | _ => c) c

def onMessages (c : Core) (frm : ValidatorIndex) (ms : List Message) (nowMs : ℕ) : Core :=
  if frm = c.me ∨ c.committee.member frm = none then c
  else
    let c := { c with net := { c.net with nowMs := nowMs } }
    if c.resuming.isSome then c.onOrderings ms
    else
      let c := { c with net := { c.net with
        frameFetches := 0, frameAnsweredFrontier := false, frameAnsweredOrdering := false } }
      ((ms.foldl (fun c m => c.onMessage frm m) c).echoHeld).progress nowMs

def onTick (c : Core) (nowMs : ℕ) : Core :=
  let c := { c with net := { c.net with nowMs := nowMs } }
  if c.resuming.isSome then c.askOrdering nowMs
  else ((c.retryFetches nowMs).progress nowMs).repairStall nowMs

def onExecuted (c : Core) (height : ℕ) (blockHash postStateRoot : Digest)
    (statements : List Digest) : Core :=
  { c with executed := c.executed.insert height (blockHash, postStateRoot, statements) }.buildCheckpoints

def setNextCommitteeRoot (c : Core) (root : Digest) : Core :=
  { c with nextCommitteeRoot := some root }.buildCheckpoints

def onOwnVote (c : Core) (vote : CheckpointVote) : Core :=
  if vote.checkpoint.epoch ≠ c.committee.epoch then c
  else
    let c := { c with
      ownVotes := if c.certificates.contains vote.checkpoint.index then c.ownVotes
        else c.ownVotes.insert vote.checkpoint.index vote }
    (c.send .all (.vote vote)).countVote vote

def holdFrontier (c : Core) (held : Bool) : Core :=
  { c with net := { c.net with frontierHeld := held } }

def takeSkipped (c : Core) : Core × List (ℕ × ValidatorIndex) :=
  ({ c with net := { c.net with skippedSlots := [] } }, c.net.skippedSlots)

def takeEvents (c : Core) : Core × List Event :=
  ({ c with net := { c.net with eventsTaken := c.events.length } }, c.events.drop c.net.eventsTaken)

def takeOutbox (c : Core) : Core × List (Target × Message) :=
  ({ c with net := { c.net with
      batchReplyBytes := .empty
      batchReplied := c.net.batchReplied.filter
        (fun _ t => c.net.nowMs - t < c.batchReplyCooldownMs)
      outboxTaken := c.outbox.length } }, c.outbox.drop c.net.outboxTaken)

def takeJournal (c : Core) : Core × List Record :=
  ({ c with net := { c.net with journalTaken := c.journal.length } },
    c.journal.drop c.net.journalTaken)

end Core

/-- One call of the core by its caller. -/
inductive Input where
  | start (nowMs : ℕ)
  | peerUp (peer : ValidatorIndex) (nowMs : ℕ)
  | messages (frm : ValidatorIndex) (ms : List Message) (nowMs : ℕ)
  | tick (nowMs : ℕ)
  | submit (part : BatchPart)
  | executed (height : ℕ) (blockHash postStateRoot : Digest) (statements : List Digest)
  | nextCommitteeRoot (root : Digest)
  | ownVote (vote : CheckpointVote)
  | adoptHandover (cert : Certificate) (sessions : List SessionCertificate)
  | adoptCertificate (cert : Certificate) (sessions : List SessionCertificate)
  | holdFrontier (held : Bool)
  | takeSkipped
  | takeEvents
  | takeOutbox
  | takeJournal

namespace Core

def input (c : Core) : Input → Core
  | .start nowMs => c.startEpoch nowMs
  | .peerUp peer nowMs => c.onPeerUp peer nowMs
  | .messages frm ms nowMs => c.onMessages frm ms nowMs
  | .tick nowMs => c.onTick nowMs
  | .submit part => c.submitPart part
  | .executed height blockHash postStateRoot statements =>
    c.onExecuted height blockHash postStateRoot statements
  | .nextCommitteeRoot root => c.setNextCommitteeRoot root
  | .ownVote vote => c.onOwnVote vote
  | .adoptHandover cert sessions => c.adoptHandover cert sessions
  | .adoptCertificate cert sessions => c.adoptCertificate cert sessions
  | .holdFrontier held => c.holdFrontier held
  | .takeSkipped => c.takeSkipped.1
  | .takeEvents => c.takeEvents.1
  | .takeOutbox => c.takeOutbox.1
  | .takeJournal => c.takeJournal.1

def runInputs (c : Core) (is : List Input) : Core := is.foldl input c

/-- A record's payload, kept from before the restart. -/
def restorePayload (c : Core) (p : BatchPayload) : Core :=
  { c with
    payloadRound := c.payloadRound.insert p.digest 0
    payloads := c.payloads.insert p.digest p }

def ownOf (rs : List Record) : List Vertex :=
  rs.filterMap (fun
    | .own v => some v
    | _ => none)

def deliveredOf (rs : List Record) : List Vertex :=
  rs.filterMap (fun
    | .delivered v => some v
    | _ => none)

def signalsOf (rs : List Record) : List Signal :=
  rs.filterMap (fun
    | .signal s => some s
    | _ => none)

def batchesOf (rs : List Record) : List BatchPayload :=
  rs.filterMap (fun
    | .batch p => some p
    | _ => none)

/-- The records before the last resumption, that resumption, and those after it. -/
def splitResumed : List Record → List Record × Option (Certificate × OrderingState) × List Record
  | [] => ([], none, [])
  | r :: rs =>
    match splitResumed rs with
    | (before, some resumed, after) => (r :: before, some resumed, after)
    | (_, none, _) =>
      match r with
      | .resumed certificate state => ([], some (certificate, state), rs)
      | r => ([], none, r :: rs)

/-- Starts again from the last resumption: before it only own rounds and batches count. -/
def recoverResumed (c : Core) (before : List Record) (resumed : Option (Certificate × OrderingState))
    (nowMs : ℕ) : Core :=
  match resumed with
  | none => c
  | some (certificate, state) =>
    ((batchesOf before).foldl restorePayload c).install certificate state
      ((ownOf before).map Vertex.round).max? nowMs

def recoverOwn (c : Core) (v : Vertex) : Core :=
  { c with
    ownIntroduced := v.batches.foldl (fun m b => m.insert b.digest v.round) c.ownIntroduced
    firstProposals := c.firstProposals.insert (toLex (v.round, c.me)) v.strong
    bodies := c.bodies.insert v.digest v
    round := some v.round }

def continueSequences (c : Core) : Core :=
  { c with
    nextBatchSequence := max c.nextBatchSequence
      ((((c.payloads.values.filter (fun p => p.author = c.me)).map
        (fun p => p.sequence + 1)).max?).getD 0) }

def recoverUnintroduced (c : Core) (introduced : List Digest) : Core :=
  { c with
    ownUnintroduced := ((c.payloads.entries.filter (fun e =>
        e.2.author = c.me && !introduced.contains e.1)).map (fun e => e.2.reference)).insertionSort
      (fun a b => a.sequence ≤ b.sequence) }

def recoverOwns (c : Core) (own : List Vertex) (batches : List BatchPayload) : Core :=
  (own.foldl recoverOwn (batches.foldl restorePayload c).continueSequences).recoverUnintroduced
    (own.flatMap (fun v => v.batches.map BatchRef.digest))

def recoverSignal (c : Core) (s : Signal) : Core :=
  { c with rbc := c.rbc.restoreSent c.committee s }

def recoverDelivered (c : Core) (v : Vertex) : Core :=
  let d := v.digest
  let slot := toLex (v.round, v.source)
  { c with
    rbc := c.rbc.restoreDelivered v.round v.source d
    firstProposals := if c.firstProposals.contains slot then c.firstProposals
      else c.firstProposals.insert slot v.strong
    dag := ((c.dag.expect d v.round).offer v).1 }

def recoverRounds (delivered : List Vertex) : List ℕ → List Signal → Core → Core
  | [], signals, c => signals.foldl recoverSignal c
  | r :: rounds, signals, c =>
    let c := (signals.takeWhile (fun s => s.round ≤ r)).foldl recoverSignal c
    let c := (delivered.filter (fun v => v.round = r)).foldl recoverDelivered c
    recoverRounds delivered rounds (signals.dropWhile (fun s => s.round ≤ r)) c.tryCommit

def recoverSends (c : Core) (own : List Vertex) (signals : List Signal) : List (Target × Message) :=
  ((own.filter (fun v => c.dag.floor ≤ v.round && (c.dag.get v.digest).isNone)).map
      (fun v => (Target.all, Message.propose v))) ++
    (chunksOf maxSignalsPerFrame (signals.filter (fun s => c.dag.floor ≤ s.round))).map
      (fun ss => (Target.all, Message.signals ss))

def sortedOwn (rs : List Record) : List Vertex :=
  (ownOf rs).insertionSort (fun a b => a.round ≤ b.round)

def sortedDelivered (rs : List Record) : List Vertex :=
  (deliveredOf rs).insertionSort
    (fun a b => toLex (a.round, a.source) ≤ toLex (b.round, b.source))

def sortedSignals (rs : List Record) : List Signal :=
  (signalsOf rs).insertionSort (fun a b => a.round ≤ b.round)

def replayRecords (c : Core) (records : List Record) (nowMs : ℕ) : Core :=
  let (before, resumed, after) := splitResumed records
  (recoverRounds (sortedDelivered after) ((sortedDelivered after).map Vertex.round).dedup
    (sortedSignals after)
    ((c.recoverResumed before resumed nowMs).recoverOwns (sortedOwn after)
      (batchesOf after))).releaseSegments

def endReplay (c : Core) (nowMs : ℕ) : Core :=
  { c with
    journal := []
    net := { c.net with wantedVertices := .empty, roundEnteredMs := nowMs } }

def recover (cfg : CoreConfig) (committee : Committee) (me : ValidatorIndex) (start : EpochStart)
    (records : List Record) (executedThrough nowMs : ℕ) : Core :=
  let after := (splitResumed records).2.2
  let c := ({ Core.new cfg committee me start with
    executedThrough := executedThrough }.replayRecords records nowMs).endReplay nowMs
  c.sendAll (c.recoverSends (sortedOwn after) (sortedSignals after))

/-- The core of a validator that fell behind what its peers keep: it waits for the
ordering state of a certified checkpoint. -/
def resume (cfg : CoreConfig) (committee : Committee) (me : ValidatorIndex)
    (certificate : Certificate) (sessions : List SessionCertificate) (ownRound : Option ℕ)
    (nextBatchSequence executedThrough leaderLookaheadRounds : ℕ) : Core :=
  let cp := certificate.checkpoint
  let c := Core.new cfg committee me
    ⟨cp.lastHeight + 1, cp.index + 1, cp.digest, cp.timestampMs, [], leaderLookaheadRounds⟩
  { c with
    sessions := sessions.foldl (fun b s => (b.admitSession committee s).1) c.sessions
    lastCommitted := some cp.anchorRound
    nextBatchSequence := nextBatchSequence
    executedThrough := executedThrough
    resuming := some ⟨certificate, ownRound, 0⟩ }

end Core

end Tenzro
