import Tenzro.Core

set_option autoImplicit false
set_option linter.dupNamespace false

/-!
# Commit rule, ordering and checkpoints
-/
namespace Tenzro
variable [Hashing]

namespace Core

def slotVertex (c : Core) (slot : Slot) : Option VertexRef :=
  let leader := c.schedule.leader slot.1 slot.2
  (c.dag.vertexAt slot.1 leader).map (fun e => ⟨slot.1, leader, e.1⟩)

def deliveredSeats (c : Core) (round : ℕ) (leader : ValidatorIndex) (references : Bool) : ℕ :=
  (((c.dag.round (round + 1)).filter (fun e => e.2.2.referencesAuthor leader = references)).map
    (fun e => c.committee.seats e.1)).sum

/-- The first proposals of the next round, less those already delivered. -/
def undelivered (c : Core) (round : ℕ) : List (ValidatorIndex × List VertexRef) :=
  ((c.firstProposals.entries.filter (fun e => (ofLex e.1).1 = round + 1)).map
    (fun e => ((ofLex e.1).2, e.2))).filter
      (fun e => ((c.dag.round (round + 1)).map Prod.fst).contains e.1 = false)

def proposedSeats (c : Core) (round : ℕ) (leader : ValidatorIndex) : ℕ :=
  (((c.undelivered round).filter (fun e =>
      e.2.any (fun r => r.round = round && r.source = leader))).map
    (fun e => c.committee.seats e.1)).sum

def direct (c : Core) (slot : Slot) : Decision :=
  let leader := c.schedule.leader slot.1 slot.2
  if c.committee.quorum ≤ c.deliveredSeats slot.1 leader true + c.proposedSeats slot.1 leader then
    (c.slotVertex slot).elim .undecided .commit
  else if c.committee.totalSeats ≤ c.deliveredSeats slot.1 leader false then .skip
  else .undecided

def anchorOf (slot : Slot) : List (Slot × Decision) → Decision
  | [] => .undecided
  | (s, d) :: later =>
    if s.1 < slot.1 + 2 then anchorOf slot later
    else if d = .skip then anchorOf slot later
    else d

def indirect (c : Core) (slot : Slot) (later : List (Slot × Decision)) : Decision :=
  match anchorOf slot later with
  | .commit anchor =>
    match c.slotVertex slot with
    | some l => if c.dag.strongPath anchor.digest l then .commit l else .skip
    | none => .skip
  | _ => .undecided

def decideSlot (c : Core) (slot : Slot) (later : List (Slot × Decision)) : Decision :=
  match c.direct slot with
  | .undecided => c.indirect slot later
  | d => d

/-- The highest round with a delivered vertex or a first proposal. -/
def topRound (c : Core) : Option ℕ :=
  match c.dag.highestRound, c.firstProposals.last?.map (fun e => (ofLex e.1).1) with
  | some a, some b => some (max a b)
  | some a, none => some a
  | none, b => b

/-- The slots from the first undecided one up to the last round to decide by. -/
def openSlots (c : Core) : List Slot :=
  match c.topRound with
  | none => []
  | some top =>
    ((List.range' c.nextSlot.1 (top - c.nextSlot.1)).flatMap (fun r =>
      (List.range c.schedule.slots).map (fun k => (r, k)))).filter
        (fun s => toLex c.nextSlot ≤ toLex s)

def decideSlots (c : Core) : List (Slot × Decision) :=
  c.openSlots.foldr (fun slot later => (slot, c.decideSlot slot later) :: later) []

def takeSlot (c : Core) (slot : Slot) (anchor : Option VertexRef) : Core :=
  { c with
    decidedSlots := c.decidedSlots ++ [(slot, anchor)]
    nextSlot := if slot.2 + 1 = c.schedule.slots then (slot.1 + 1, 0) else (slot.1, slot.2 + 1) }

def skipSlot (c : Core) (slot : Slot) : Core :=
  let c := c.takeSlot slot none
  let leader := c.schedule.leader slot.1 slot.2
  let kept := c.net.skippedSlots ++ [(slot.1, leader)]
  { c with
    schedule := c.schedule.recordOutcome leader false
    net := { c.net with skippedSlots := kept.drop (kept.length - skippedSlotsKept) } }

def blockChunks (max : ℕ) : List OrderedBatch → ℕ → List OrderedBatch → List (List OrderedBatch)
  | [], _, chunk => [chunk]
  | b :: l, n, chunk =>
    if 0 < n ∧ max < n + b.batch.transactions
    then chunk :: blockChunks max l b.batch.transactions [b]
    else blockChunks max l (n + b.batch.transactions) (chunk ++ [b])

def historyOf (c : Core) (anchor : VertexRef) : List VertexRef :=
  c.dag.causalHistory anchor.digest c.ordered.contains

def availabilityOf (c : Core) (anchor : VertexRef) : Availability :=
  let vertices := (c.historyOf anchor).filterMap (fun r => c.dag.get r.digest)
  let availability := vertices.foldl Availability.onOrdered c.availability
  ((c.dag.get anchor.digest).elim availability availability.onCarried).expireGaps c.dag.floor

def releasedBy (c : Core) (anchor : VertexRef) : List OrderedBatch :=
  (c.availabilityOf anchor).release.2

def orderHistory (c : Core) (anchor : VertexRef) : Core :=
  { c with
    schedule := c.schedule.recordOutcome anchor.source true
    lastCommitted := some anchor.round
    ordered := (c.historyOf anchor).foldl (fun m r => m.insert r.digest r.round) c.ordered
    availability := (c.availabilityOf anchor).release.1
    released := c.released ++ c.historyOf anchor
    releasedBatches := c.releasedBatches ++ c.releasedBy anchor }

def wantBatch (net : Net) (d : Digest) (holder : ValidatorIndex) (round : ℕ) : Net :=
  let w := net.wantedBatches.getD d ⟨0, 0, some holder, round⟩
  { net with wantedBatches := net.wantedBatches.insert d { w with round := max w.round round } }

/-- This validator's introduced batches whose sequence the release has passed. -/
def skippedOwn (c : Core) : List (Digest × BatchPayload) :=
  let through := c.availability.releasedThrough c.me
  (c.ownIntroduced.keys.filterMap (fun d =>
    ((c.payloads.get? d).filter (fun p => p.sequence < through)).map (fun p => (d, p)))).insertionSort
      (fun a b => toLex (a.2.sequence, a.1) ≤ toLex (b.2.sequence, b.1))

/-- Hands back this validator's batches in a gap that was skipped. -/
def returnSkipped (c : Core) : Core :=
  { c with
    ownIntroduced := c.skippedOwn.foldl (fun m e => m.erase e.1) c.ownIntroduced
    events := c.events ++ c.skippedOwn.map (fun e => .unordered e.2) }

def settleBatches (c : Core) (anchor : VertexRef) (released : List OrderedBatch) : Core :=
  let through := c.availability.releasedThrough c.me
  let alreadyExecuted : Bool := c.nextHeight ≤ c.executedThrough
  { c with
    carryPool := c.carryPool.filter (fun k _ =>
      c.availability.releasedThrough (ofLex k).1 ≤ (ofLex k).2)
    ownUnintroduced := c.ownUnintroduced.filter (fun b => through ≤ b.sequence)
    ownIntroduced := released.foldl (fun m (b : OrderedBatch) =>
      if b.author = c.me then m.erase b.batch.digest else m) c.ownIntroduced
    net := released.foldl (fun net (b : OrderedBatch) =>
      if !alreadyExecuted && !c.payloads.contains b.batch.digest
      then wantBatch net b.batch.digest b.author anchor.round else net) c.net
    commits := c.commits ++
      [CommitNote.mk c.ownUnintroduced (c.events.filterMap Event.returned) c.nextBatchSequence
        through released] }.returnSkipped

def segmentTimestamp (c : Core) (anchor : VertexRef) : ℕ :=
  let strong := ((c.dag.get anchor.digest).map Vertex.strong).getD []
  let stamps := (strong.filterMap (fun p => (c.dag.get p.digest).map Vertex.timestampMs)).insertionSort
    (· ≤ ·)
  max (stamps.getD (stamps.length / 2) c.lastTimestampMs) c.lastTimestampMs

def makeBlocks (c : Core) (anchor : VertexRef) (timestampMs vertices : ℕ)
    (released : List OrderedBatch) : Core :=
  let blocks := if released.any (fun b => 0 < b.batch.transactions)
    then blockChunks maxTransactionsPerBlock released 0 [] else []
  let segments := blocks.zipIdx.map (fun b =>
    (⟨c.nextHeight + b.2, anchor, timestampMs, b.1, vertices⟩ : WaitingSegment))
  { c with
    lastTimestampMs := timestampMs
    nextHeight := c.nextHeight + blocks.length
    waiting := c.waiting ++ segments.map .segment
    segments := c.segments ++ segments }

def decideCheckpoint (c : Core) (anchor : VertexRef) (lastHeight timestampMs : ℕ)
    (endsEpoch : Bool) : Core :=
  let index := c.nextCheckpointIndex
  let firstHeight := c.lastCheckpointHeight + 1
  let seedChain := c.seedChain ++
    [Finality.orderingSeed (c.seedChain.getLastD 0) index lastHeight anchor.digest]
  { c with
    nextCheckpointIndex := index + 1
    lastStateHeight := checkpointStateHeight firstHeight lastHeight
    lastCheckpointHeight := lastHeight
    lastCheckpointTs := timestampMs
    seedChain := seedChain
    schedule := c.schedule.advance c.committee anchor.round
      (seedChain.getD (seedChain.length - 3) 0)
    halted := c.halted || index = c.handoverIndex
    decided := c.decided ++
      [⟨index, firstHeight, lastHeight, anchor.round, timestampMs, endsEpoch, none⟩] }

def takeCheckpoint (c : Core) (anchor : VertexRef) (timestampMs : ℕ) : Core :=
  let lastHeight := c.nextHeight - 1
  let due := satAdd c.lastCheckpointTs c.cfg.checkpointIntervalMs ≤ timestampMs
  if c.epochClosed = false ∧ c.epochEndsMs ≤ timestampMs then
    let handover := c.nextCheckpointIndex + c.cfg.handoverConfirmations
    { c with
      epochClosed := true
      handoverIndex := handover
      handovers := c.handovers ++ [(handover, c.certificates.contains handover)]
      waiting := c.waiting ++ [Waiting.epochEnds lastHeight] }.decideCheckpoint
        anchor lastHeight timestampMs true
  else if due ∧ (c.epochClosed = true ∨ c.lastCheckpointHeight < lastHeight ∨
      c.lastStateHeight < c.lastCheckpointHeight) then
    c.decideCheckpoint anchor lastHeight timestampMs false
  else c

def inSegments (c : Core) : List Digest :=
  c.waiting.flatMap (fun
    | .segment s => s.batches.map (fun b => b.batch.digest)
    | .epochEnds _ => [])

def keepsPayload (c : Core) (floor : ℕ) (d : Digest) (p : BatchPayload) : Bool :=
  let base := c.availability.releasedThrough p.author
  (c.payloadRound.get? d).any (fun r => floor ≤ r) || c.inSegments.contains d ||
    c.uncertifiedPayloads.values.flatten.contains d ||
    (base ≤ p.sequence && (p.author = c.me || p.sequence < base + maxAheadPerAuthor))

def keepHistory (c : Core) (pruned : List (Digest × Vertex)) (from' : ℕ) : Core :=
  let history := pruned.foldl (fun m e => m.insert e.1 e.2) c.history
  let rounds := pruned.foldl (fun m e =>
    m.insert e.2.round (m.getD e.2.round [] ++ [e.1])) c.historyRounds
  { c with
    history := ((rounds.filter (fun r _ => r < from')).values.flatten).foldl
      (fun m d => m.erase d) history
    historyRounds := rounds.filter (fun r _ => from' ≤ r) }

def collectGarbage (c : Core) (committedRound : ℕ) : Core :=
  if committedRound < c.cfg.gcDepth ∨ committedRound - c.cfg.gcDepth ≤ c.dag.floor then c
  else
    let floor := committedRound - c.cfg.gcDepth
    let (dag, pruned) := c.dag.pruneBelow floor
    let c := c.keepHistory pruned (floor - historyDepth c.cfg.gcDepth)
    let payloads := c.payloads.filter (c.keepsPayload floor)
    { c with
      dag := dag
      rbc := c.rbc.pruneBelow floor
      firstProposals := c.firstProposals.filter (fun k _ => floor ≤ (ofLex k).1)
      ordered := c.ordered.filter (fun _ r => floor ≤ r)
      bodies := c.bodies.filter (fun _ v => floor ≤ v.round)
      unechoed := c.unechoed.filter (fun k _ => floor ≤ (ofLex k).1)
      payloads := payloads
      payloadRound := c.payloadRound.filter (fun d _ =>
        (c.payloads.get? d).all (c.keepsPayload floor d))
      carryPool := c.carryPool.filter (fun _ b => payloads.contains b.digest)
      net := { c.net with
        wantedVertices := c.net.wantedVertices.filter (fun d _ => dag.isExpected d)
        wantedBatches := c.net.wantedBatches.filter (fun d w =>
          floor ≤ w.round || c.inSegments.contains d) } }

def orderingState (c : Core) (index : ℕ) : OrderingState where
  epoch := c.committee.epoch
  index := index
  anchorRound := c.lastCommitted.getD 0
  nextSlot := c.nextSlot
  floor := c.dag.floor
  ordered := c.ordered.entries
  nextHeight := c.nextHeight
  lastTimestampMs := c.lastTimestampMs
  lastStateHeight := c.lastStateHeight
  lastCheckpointHeight := c.lastCheckpointHeight
  lastCheckpointTs := c.lastCheckpointTs
  epochEndsMs := c.epochEndsMs
  epochClosed := c.epochClosed
  handoverIndex := c.handoverIndex
  seedTail := c.seedChain.drop (c.seedChain.length - 3)
  schedule := c.schedule.exportState
  availability := c.availability.exportState

def PendingCheckpoint.heights (pc : PendingCheckpoint) : List ℕ :=
  List.range' pc.firstHeight (pc.lastHeight + 1 - pc.firstHeight)

/-- Whether the first decided checkpoint can be built: sealed, executed, and
with the next committee known if it ends the epoch. -/
def buildable (c : Core) (pc : PendingCheckpoint) : Bool :=
  pc.orderingRoot.isSome && (PendingCheckpoint.heights pc).all c.executed.contains &&
    c.executed.contains (checkpointStateHeight pc.firstHeight pc.lastHeight) &&
    (!pc.endsEpoch || c.nextCommitteeRoot.isSome)

def checkpointBody (c : Core) (pc : PendingCheckpoint) : Checkpoint :=
  let blocks := (PendingCheckpoint.heights pc).filterMap c.executed.get?
  let stateHeight := checkpointStateHeight pc.firstHeight pc.lastHeight
  { chainId := c.cfg.chainId
    genesisHash := c.cfg.genesisHash
    epoch := c.committee.epoch
    index := pc.index
    prev := c.prevCheckpoint
    firstHeight := pc.firstHeight
    lastHeight := pc.lastHeight
    blocksRoot := Finality.merkleRoot (blocks.map Prod.fst)
    stateHeight := stateHeight
    stateRoot := ((c.executed.get? stateHeight).map (fun e => e.2.1)).getD 0
    statementRoot := Finality.merkleRoot (blocks.flatMap (fun e => e.2.2))
    nextCommitteeRoot := if pc.endsEpoch then c.nextCommitteeRoot else none
    anchorRound := pc.anchorRound
    timestampMs := pc.timestampMs
    orderingRoot := pc.orderingRoot.getD 0 }

def buildOne (c : Core) (pc : PendingCheckpoint) (rest : List PendingCheckpoint) : Core :=
  let cp := c.checkpointBody pc
  { c with
    decided := rest
    prevCheckpoint := cp.digest
    executed := c.executed.filter (fun h _ => stateRootHeight pc.lastHeight ≤ h)
    events := c.events ++ [.sign cp] }

/-- Every turn takes one checkpoint off the queue. -/
def buildLoop : ℕ → Core → Core
  | 0, c => c
  | n + 1, c =>
    match c.decided with
    | [] => c
    | pc :: rest => if c.buildable pc then buildLoop n (c.buildOne pc rest) else c

def buildCheckpoints (c : Core) : Core := buildLoop c.decided.length c

def sealLast (c : Core) : Core :=
  match c.decided.getLast? with
  | none => c
  | some pc =>
    if pc.orderingRoot.isSome then c
    else
      let state := c.orderingState pc.index
      let states := c.orderingStates.insert pc.index state
      { c with
        decided := c.decided.dropLast ++ [{ pc with orderingRoot := some state.digest }]
        orderingStates := states.filter (fun i _ =>
          (states.keys.drop (states.size - orderingStatesKept)).contains i)
        sealedStates := c.sealedStates ++ [state] }

def settle (c : Core) (anchor : VertexRef) : Core :=
  (c.orderHistory anchor).settleBatches anchor (c.releasedBy anchor)

def makeSegments (c : Core) (anchor : VertexRef) : Core :=
  (c.settle anchor).makeBlocks anchor ((c.settle anchor).segmentTimestamp anchor)
    (c.historyOf anchor).length (c.releasedBy anchor)

/-- A commit before the checkpoints it made ready are built. -/
def commitOpen (c : Core) (anchor : VertexRef) : Core :=
  (((c.makeSegments anchor).takeCheckpoint anchor
    ((c.settle anchor).segmentTimestamp anchor)).collectGarbage anchor.round).sealLast

def commit (c : Core) (anchor : VertexRef) : Core := (c.commitOpen anchor).buildCheckpoints

/-- Takes decisions in order up to the first undecided slot; the flag says that the
schedule may have changed and the rest must be decided again. -/
def applyDecisions : Core → List (Slot × Decision) → Core × Bool
  | c, [] => (c, false)
  | c, (slot, d) :: l =>
    match d with
    | .undecided => (c, false)
    | .skip => applyDecisions (c.skipSlot slot) l
    | .commit anchor =>
      let c' := (c.takeSlot slot (some anchor)).commit anchor
      if c'.nextCheckpointIndex ≠ c.nextCheckpointIndex ∨ c'.halted = true then (c', true)
      else applyDecisions c' l

def askOpen (c : Core) : Core :=
  match c.openSlots.getLast? with
  | none => c
  | some slot => c.askSchedule slot.1

def tryCommitLoop : ℕ → Core → Core
  | 0, c => c
  | n + 1, c =>
    if c.halted then c
    else
      let (c', again) := c.askOpen.applyDecisions c.decideSlots
      if again then tryCommitLoop n c' else c'

/-- Every turn but the last decides a slot below the top round. -/
def tryCommit (c : Core) : Core :=
  tryCommitLoop ((c.topRound.getD 0 + 1) * c.schedule.slots + 1) c

def releaseFirst (c : Core) (w : Waiting) (rest : List Waiting) : Option Core :=
  match w with
  | .epochEnds lastHeight =>
    some { c with waiting := rest, events := c.events ++ [.epochEnds lastHeight] }
  | .segment seg =>
    let alreadyExecuted := seg.height ≤ c.executedThrough
    if !alreadyExecuted && seg.batches.any (fun b => !c.payloads.contains b.batch.digest) then none
    else
      let kept := if !alreadyExecuted && !seg.batches.isEmpty
        then c.uncertifiedPayloads.insert seg.height (seg.batches.map (fun b => b.batch.digest))
        else c.uncertifiedPayloads
      some { c with
        waiting := rest
        uncertifiedPayloads := if !alreadyExecuted && !seg.batches.isEmpty
          then kept.filter (fun h _ =>
            (kept.keys.drop (kept.size - uncertifiedSegmentsKept)).contains h)
          else kept
        events := c.events ++ [.ordered
          { epoch := c.committee.epoch
            height := seg.height
            anchor := seg.anchor
            timestampMs := seg.timestampMs
            batches := if alreadyExecuted then []
              else seg.batches.filterMap (fun b =>
                (c.payloads.get? b.batch.digest).map (fun p => (b, p)))
            vertices := seg.vertices }] }

def releaseLoop : ℕ → Core → Core
  | 0, c => c
  | n + 1, c =>
    match c.waiting with
    | [] => c
    | w :: rest =>
      match c.releaseFirst w rest with
      | none => c
      | some c' => releaseLoop n c'

/-- Every turn takes one thing off the queue. -/
def releaseSegments (c : Core) : Core := releaseLoop c.waiting.length c

end Core

end Tenzro
