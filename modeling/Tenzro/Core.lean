import Tenzro.ReliableBroadcast
import Tenzro.Dag
import Tenzro.Checkpoint

set_option autoImplicit false
set_option linter.dupNamespace false

/-!
# The consensus state machine of one validator in one epoch: its data

`events`, `outbox` and `journal` keep every output there ever was; `net` groups
what only steers traffic. Monitoring counters are left out. The fields from
`decidedSlots` on log what was decided; nothing reads them.
-/
namespace Tenzro

class Hashing extends VertexHash, BatchHash, ScheduleHash, Finality

structure CoreConfig where
  chainId : ℕ
  genesisHash : Digest
  leaderTimeoutMs : ℕ
  minRoundIntervalMs : ℕ
  leaderSlots : ℕ
  checkpointIntervalMs : ℕ
  gcDepth : ℕ
  maxWeakRefs : ℕ
  maxRoundsAhead : ℕ
  epochCheckpoints : ℕ
  handoverConfirmations : ℕ
  fetchRetryMs : ℕ
  idleRoundIntervalMs : ℕ
deriving DecidableEq

inductive Record where
  | own (v : Vertex)
  | signal (s : Signal)
  | delivered (v : Vertex)
  | batch (p : BatchPayload)
  | resumed (certificate : Certificate) (state : OrderingState)
deriving DecidableEq

structure EpochStart where
  firstHeight : ℕ
  firstCheckpoint : ℕ
  prevCheckpoint : Digest
  timestampMs : ℕ
  baseBlocks : List (ℕ × Digest × Digest)
  leaderLookaheadRounds : ℕ
deriving DecidableEq

inductive Target where
  | all
  | one (i : ValidatorIndex)
deriving DecidableEq

structure Frontier where
  round : Option ℕ
  highest : List VertexRef
  nextCheckpoint : ℕ
deriving DecidableEq

inductive Message where
  | propose (v : Vertex)
  | signals (ss : List Signal)
  | batch (p : BatchPayload)
  | fetchVertices (ds : List Digest)
  | vertices (vs : List Vertex)
  | fetchBatches (ds : List Digest)
  | batches (ps : List BatchPayload)
  | vote (v : CheckpointVote)
  | certificate (c : Certificate)
  | frontier (f : Frontier)
  | fetchOrdering (index : ℕ)
  | ordering (s : OrderingState)
deriving DecidableEq

structure Segment where
  epoch : ℕ
  height : ℕ
  anchor : VertexRef
  timestampMs : ℕ
  batches : List (OrderedBatch × BatchPayload)
  vertices : ℕ
deriving DecidableEq

inductive Event where
  | ordered (s : Segment)
  | epochEnds (lastHeight : ℕ)
  | sign (cp : Checkpoint)
  | certified (c : Certificate)
  | equivocation (e : CheckpointEquivocation)
  | unordered (p : BatchPayload)
  | epochComplete (c : Certificate)
  | verifierDisagreement (index : ℕ)
deriving DecidableEq

structure PendingCheckpoint where
  index : ℕ
  firstHeight : ℕ
  lastHeight : ℕ
  anchorRound : ℕ
  timestampMs : ℕ
  endsEpoch : Bool
  orderingRoot : Option Digest
deriving DecidableEq

structure Resuming where
  certificate : Certificate
  ownRound : Option ℕ
  askedMs : ℕ

structure WaitingSegment where
  height : ℕ
  anchor : VertexRef
  timestampMs : ℕ
  batches : List OrderedBatch
  vertices : ℕ
deriving DecidableEq

inductive Waiting where
  | segment (s : WaitingSegment)
  | epochEnds (lastHeight : ℕ)
deriving DecidableEq

structure Wanted where
  askedMs : ℕ
  attempts : ℕ
  holder : Option ValidatorIndex
  round : ℕ
deriving DecidableEq

def Wanted.default : Wanted := ⟨0, 0, none, 0⟩

inductive Decision where
  | commit (v : VertexRef)
  | skip
  | undecided
deriving DecidableEq

/-- What a commit found of this validator's own batches, and what it released. -/
structure CommitNote where
  unintroduced : List BatchRef
  returned : List BatchPayload
  nextSequence : ℕ
  through : ℕ
  released : List OrderedBatch
deriving DecidableEq

abbrev Slot := ℕ × ℕ

@[irreducible] def maxFetch : ℕ := 1024
@[irreducible] def maxFetchesPerFrame : ℕ := 4
@[irreducible] def maxBatchReplyBytes : ℕ := 8388608
@[irreducible] def batchReplyCooldownRetries : ℕ := 8
@[irreducible] def maxSignalsPerFrame : ℕ := 4096
@[irreducible] def uncertifiedSegmentsKept : ℕ := 4096
@[irreducible] def orderingStatesKept : ℕ := 32
@[irreducible] def skippedSlotsKept : ℕ := 256
@[irreducible] def maxAheadPerAuthor : ℕ := 1024
@[irreducible] def liveRounds : ℕ := 2
@[irreducible] def maxBulkFetch : ℕ := 256
@[irreducible] def minUncommittedRounds : ℕ := 16
@[irreducible] def maxTransactionsPerBlock : ℕ := 1000
@[irreducible] def certificatesKept : ℕ := 8

def historyDepth (gcDepth : ℕ) : ℕ := satMul gcDepth 4

structure Net where
  nowMs : ℕ
  roundEnteredMs : ℕ
  wantedVertices : SortedMap Digest Wanted
  wantedBatches : SortedMap Digest Wanted
  frameFetches : ℕ
  batchReplyBytes : SortedMap ValidatorIndex ℕ
  batchReplied : SortedMap (ValidatorIndex ×ₗ Digest) ℕ
  frameAnsweredFrontier : Bool
  frameAnsweredOrdering : Bool
  frontierAnsweredMs : SortedMap ValidatorIndex ℕ
  frontierHeld : Bool
  connected : SeatSet
  started : Bool
  lastRepairMs : ℕ
  skippedSlots : List (ℕ × ValidatorIndex)
  eventsTaken : ℕ
  outboxTaken : ℕ
  journalTaken : ℕ

def Net.new : Net where
  nowMs := 0
  roundEnteredMs := 0
  wantedVertices := .empty
  wantedBatches := .empty
  frameFetches := 0
  batchReplyBytes := .empty
  batchReplied := .empty
  frameAnsweredFrontier := false
  frameAnsweredOrdering := false
  frontierAnsweredMs := .empty
  frontierHeld := false
  connected := .empty
  started := false
  lastRepairMs := 0
  skippedSlots := []
  eventsTaken := 0
  outboxTaken := 0
  journalTaken := 0

structure Core where
  cfg : CoreConfig
  committee : Committee
  me : ValidatorIndex
  start : EpochStart
  rbc : ReliableBroadcast
  dag : Dag
  schedule : Schedule
  availability : Availability
  bodies : SortedMap Digest Vertex
  firstProposals : SortedMap (ℕ ×ₗ ValidatorIndex) (List VertexRef)
  round : Option ℕ
  nextSlot : Slot
  lastCommitted : Option ℕ
  ordered : SortedMap Digest ℕ
  nextHeight : ℕ
  lastTimestampMs : ℕ
  payloads : SortedMap Digest BatchPayload
  payloadRound : SortedMap Digest ℕ
  nextBatchSequence : ℕ
  ownUnintroduced : List BatchRef
  ownIntroduced : SortedMap Digest ℕ
  carryPool : SortedMap (ValidatorIndex ×ₗ ℕ) BatchRef
  unechoed : SortedMap (ℕ ×ₗ ValidatorIndex) Vertex
  waiting : List Waiting
  lastPayloadRound : Option ℕ
  lastStateHeight : ℕ
  epochEndsMs : ℕ
  epochClosed : Bool
  lastCheckpointHeight : ℕ
  lastCheckpointTs : ℕ
  nextCheckpointIndex : ℕ
  decided : List PendingCheckpoint
  seedChain : List Digest
  executed : SortedMap ℕ (Digest × Digest × List Digest)
  prevCheckpoint : Digest
  nextCommitteeRoot : Option Digest
  votes : VoteCollector
  sessions : SessionBook
  certificates : SortedMap ℕ Certificate
  halted : Bool
  handoverIndex : ℕ
  certifiedHandoverIndex : ℕ
  events : List Event
  outbox : List (Target × Message)
  journal : List Record
  executedThrough : ℕ
  ownVotes : SortedMap ℕ CheckpointVote
  orderingStates : SortedMap ℕ OrderingState
  history : SortedMap Digest Vertex
  historyRounds : SortedMap ℕ (List Digest)
  resuming : Option Resuming
  uncertifiedPayloads : SortedMap ℕ (List Digest)
  net : Net
  decidedSlots : List (Slot × Option VertexRef)
  released : List VertexRef
  releasedBatches : List OrderedBatch
  segments : List WaitingSegment
  sealedStates : List OrderingState
  commits : List CommitNote
  /-- Each handover index that became known, and whether its certificate was held by then. -/
  handovers : List (ℕ × Bool)
  /-- The earlier checkpoint this core was installed from. -/
  installed : Option (Certificate × OrderingState)

variable [Hashing]

namespace Core

def freshDag (c : Committee) : Dag :=
  .withVouching (c.members.map Member.seats) c.validity

def new (cfg : CoreConfig) (committee : Committee) (me : ValidatorIndex) (start : EpochStart) :
    Core where
  cfg := cfg
  committee := committee
  me := me
  start := start
  rbc := .new me
  dag := freshDag committee
  schedule := .new committee (ScheduleHash.epochSeed committee.epoch start.prevCheckpoint)
    cfg.leaderSlots start.leaderLookaheadRounds
  availability := .new
  bodies := .empty
  firstProposals := .empty
  round := none
  nextSlot := (0, 0)
  lastCommitted := none
  ordered := .empty
  nextHeight := start.firstHeight
  lastTimestampMs := start.timestampMs
  payloads := .empty
  payloadRound := .empty
  nextBatchSequence := 0
  ownUnintroduced := []
  ownIntroduced := .empty
  carryPool := .empty
  unechoed := .empty
  waiting := []
  lastPayloadRound := none
  lastStateHeight := start.firstHeight - 1
  epochEndsMs := satAdd start.timestampMs (satMul cfg.checkpointIntervalMs cfg.epochCheckpoints)
  epochClosed := false
  lastCheckpointHeight := start.firstHeight - 1
  lastCheckpointTs := start.timestampMs
  nextCheckpointIndex := start.firstCheckpoint
  decided := []
  seedChain := [start.prevCheckpoint]
  executed := .ofList (start.baseBlocks.map (fun b => (b.1, (b.2.1, b.2.2, []))))
  prevCheckpoint := start.prevCheckpoint
  nextCommitteeRoot := none
  votes := .new
  sessions := .new cfg.chainId cfg.genesisHash committee.epoch
  certificates := .empty
  halted := false
  handoverIndex := u64Max
  certifiedHandoverIndex := u64Max
  events := []
  outbox := []
  journal := []
  executedThrough := 0
  ownVotes := .empty
  orderingStates := .empty
  history := .empty
  historyRounds := .empty
  resuming := none
  uncertifiedPayloads := .empty
  net := .new
  decidedSlots := []
  released := []
  releasedBatches := []
  segments := []
  sealedStates := []
  commits := []
  handovers := []
  installed := none

def send (c : Core) (t : Target) (m : Message) : Core :=
  { c with outbox := c.outbox ++ [(t, m)] }

def sendAll (c : Core) (ms : List (Target × Message)) : Core :=
  { c with outbox := c.outbox ++ ms }

def Event.returned : Event → Option BatchPayload
  | .unordered p => some p
  | _ => none

def emit (c : Core) (e : Event) : Core := { c with events := c.events ++ [e] }

def chunks {α : Type} (n : ℕ) : ℕ → List α → List (List α)
  | 0, _ => []
  | _ + 1, [] => []
  | fuel + 1, l => l.take n :: chunks n fuel (l.drop n)

def chunksOf {α : Type} (n : ℕ) (l : List α) : List (List α) := chunks n l.length l

def askSchedule (c : Core) (round : ℕ) : Core :=
  { c with schedule := c.schedule.drawThrough round }

def roundWeight (c : Core) (r : ℕ) : ℕ :=
  ((c.dag.round r).map (fun e => c.committee.seats e.1)).sum

/-- Whether nothing waits to be ordered. -/
def isIdle (c : Core) : Bool :=
  c.ownUnintroduced.isEmpty && c.ownIntroduced.isEmpty && c.carryPool.isEmpty &&
    c.waiting.isEmpty &&
    c.lastPayloadRound.all (fun r => c.lastCommitted.any (fun l => r + 1 < l))

def maxUncommittedRounds (c : Core) : ℕ := satMul (max c.cfg.gcDepth minUncommittedRounds) 2

def stallAfterMs (c : Core) : ℕ :=
  let pace := if c.isIdle then c.cfg.idleRoundIntervalMs else c.cfg.minRoundIntervalMs
  satMul (max (max c.cfg.leaderTimeoutMs c.cfg.fetchRetryMs) pace) 2

end Core

end Tenzro
