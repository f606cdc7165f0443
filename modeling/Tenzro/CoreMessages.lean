import Tenzro.CoreRounds

set_option autoImplicit false
set_option linter.dupNamespace false

/-!
# Batches, votes, certificates and messages
-/
namespace Tenzro
open List
variable [Hashing]

namespace Core

def submitPart (c : Core) (part : BatchPart) : Core :=
  let payload := BatchPayload.sealParts c.committee.epoch c.me c.nextBatchSequence [part]
  if c.halted = true ∨ maxBatchBytes < payload.body.length ∨
      maxTransactionsPerBlock < part.transactions then
    c.emit (.unordered payload)
  else
    let r := payload.reference
    { c with
      nextBatchSequence := c.nextBatchSequence + 1
      payloadRound := c.payloadRound.insert r.digest (c.round.getD 0)
      payloads := c.payloads.insert r.digest payload
      journal := c.journal ++ [Record.batch payload]
      ownUnintroduced := c.ownUnintroduced ++ [r]
      outbox := c.outbox ++ [(Target.all, Message.batch payload)] }

/-- Whether another author's pushed batch is taken in. -/
def takesBatch (c : Core) (frm : ValidatorIndex) (p : BatchPayload) : Bool :=
  let base := c.availability.releasedThrough p.author
  p.author = frm && p.epoch = c.committee.epoch && p.body.length ≤ maxBatchBytes && !c.halted &&
    !c.payloads.contains p.digest && p.sequence < base + maxAheadPerAuthor &&
    (c.net.wantedBatches.contains p.digest ||
      (base ≤ p.sequence && !c.carryPool.contains (toLex (p.author, p.sequence))))

def onBatch (c : Core) (frm : ValidatorIndex) (p : BatchPayload) : Core :=
  if c.takesBatch frm p = false then c
  else
    { c with
      net := { c.net with wantedBatches := c.net.wantedBatches.erase p.digest }
      payloadRound := c.payloadRound.insert p.digest (c.round.getD 0)
      carryPool := if c.availability.releasedThrough p.author ≤ p.sequence
        then c.carryPool.insert (toLex (p.author, p.sequence)) p.reference else c.carryPool
      payloads := c.payloads.insert p.digest p }

def takeFetched (c : Core) (p : BatchPayload) : Core :=
  if p.epoch ≠ c.committee.epoch ∨ c.net.wantedBatches.contains p.digest = false then c
  else
    let c := { c with net := { c.net with wantedBatches := c.net.wantedBatches.erase p.digest } }
    if maxBatchBytes < p.body.length then c
    else
      { c with
        payloadRound := c.payloadRound.insert p.digest (c.round.getD 0)
        payloads := c.payloads.insert p.digest p }

def batchReplyCooldownMs (c : Core) : ℕ := satMul c.cfg.fetchRetryMs batchReplyCooldownRetries

/-- The batches a fetch is answered with, inside the peer's byte budget, with the replies noted. -/
def pickBatches (c : Core) (frm : ValidatorIndex) : List Digest → ℕ →
    SortedMap (ValidatorIndex ×ₗ Digest) ℕ → List BatchPayload × SortedMap (ValidatorIndex ×ₗ Digest) ℕ
  | [], _, replied => ([], replied)
  | d :: ds, budget, replied =>
    match c.payloads.get? d with
    | none => pickBatches c frm ds budget replied
    | some p =>
      if (replied.get? (toLex (frm, d))).any (fun t => c.net.nowMs - t < c.batchReplyCooldownMs) ∨
          budget < max p.body.length 1 then
        pickBatches c frm ds budget replied
      else
        let (found, replied) := pickBatches c frm ds (budget - max p.body.length 1)
          (replied.insert (toLex (frm, d)) c.net.nowMs)
        (p :: found, replied)

def answerBatchFetch (c : Core) (frm : ValidatorIndex) (ds : List Digest) : Core :=
  let used := c.net.batchReplyBytes.getD frm 0
  let (found, replied) := c.pickBatches frm (ds.take maxFetch) (maxBatchReplyBytes - used)
    c.net.batchReplied
  if found = [] then c
  else
    let bytes := (found.map (fun p => max p.body.length 1)).sum
    { c with
      net := { c.net with
        batchReplied := replied
        batchReplyBytes := c.net.batchReplyBytes.insert frm (used + bytes) }
      outbox := c.outbox ++ [(Target.one frm, Message.batches found)] }

/-- Refuses an object the two implementations disagree on, and halts. -/
def onDisagreement (c : Core) (index : ℕ) : Core :=
  { c with halted := true, events := c.events ++ [.verifierDisagreement index] }

def stranded (c : Core) : List BatchPayload :=
  ((c.ownIntroduced.keys ++ c.ownUnintroduced.map BatchRef.digest).insertionSort (· ≤ ·)).filterMap
    c.payloads.get?

def completeEpoch (c : Core) (handover : Certificate) : Core :=
  { c with
    ownIntroduced := .empty
    ownUnintroduced := []
    events := c.events ++ c.stranded.map .unordered ++ [.epochComplete handover] }

def keepLast {υ : Type} (n : ℕ) (m : SortedMap ℕ υ) : SortedMap ℕ υ :=
  m.filter (fun i _ => (m.keys.drop (m.size - n)).contains i)

def onCertified (c : Core) (cert : Certificate) : Core :=
  let index := cert.checkpoint.index
  if c.certificates.contains index then c
  else
    let closing := cert.checkpoint.nextCommitteeRoot.isSome && !c.epochClosed
    let handover := index + c.cfg.handoverConfirmations
    let c := { c with
      uncertifiedPayloads := c.uncertifiedPayloads.filter
        (fun h _ => cert.checkpoint.lastHeight + 1 ≤ h)
      certifiedHandoverIndex := if closing then handover else c.certifiedHandoverIndex
      handovers := if closing then c.handovers ++ [(handover, c.certificates.contains handover)]
        else c.handovers
      certificates := keepLast certificatesKept (c.certificates.insert index cert)
      votes := c.votes.pruneBelow (index - 16)
      ownVotes := c.ownVotes.filter (fun i _ => index + 1 ≤ i) }
    if index = c.handoverIndex ∨ index = c.certifiedHandoverIndex then c.completeEpoch cert
    else c.emit (.certified cert)

def verifies (c : Core) (cert : Certificate) : Bool :=
  cert.verify c.cfg.chainId c.cfg.genesisHash c.committee c.sessions

def onCertificate (c : Core) (cert : Certificate) : Core :=
  if certificateAgrees cert c.sessions = false then c.onDisagreement cert.checkpoint.index
  else if c.verifies cert = false then c
  else
    match c.certificates.get? cert.checkpoint.index with
    | some mine =>
      if mine.checkpoint.digest ≠ cert.checkpoint.digest then
        let evidence := conflictEvidence mine cert c.cfg.chainId c.cfg.genesisHash c.committee
          c.sessions
        { c with events := c.events ++ evidence.map Event.equivocation }
      else c
    | none => c.onCertified cert

def countVote (c : Core) (vote : CheckpointVote) : Core :=
  let (sessions, kept) := c.sessions.admitSession c.committee vote.signature.session
  let c := { c with sessions := sessions }
  if kept = false then c
  else
    let (votes, outcome) := c.votes.add c.committee vote
    let c := { c with votes := votes }
    match outcome with
    | .certified cert => c.onCertified cert
    | .equivocation a b =>
      c.emit (.equivocation
        ⟨((c.committee.member a.signer).map Member.publicKey).getD 0, a.checkpoint, a.signature,
          b.checkpoint, b.signature⟩)
    | .counted | .duplicate => c

/-- The highest checkpoint index this validator counts votes for. -/
def voteReach (c : Core) : ℕ :=
  c.certificates.last?.elim c.nextCheckpointIndex (fun e => max c.nextCheckpointIndex (e.1 + 1))

def onVote (c : Core) (vote : CheckpointVote) : Core :=
  match c.committee.member vote.signer with
  | none => c
  | some m =>
    let cp := vote.checkpoint
    if cp.epoch ≠ c.committee.epoch ∨ cp.chainId ≠ c.cfg.chainId ∨
        cp.genesisHash ≠ c.cfg.genesisHash ∨ satAdd c.voteReach signedVoteWindow < cp.index then c
    else if voteAgrees c.committee vote = false then c.onDisagreement cp.index
    else if vote.verify m.publicKey = false then c
    else c.countVote vote

def admitSessions (c : Core) (index : ℕ) : List SessionCertificate → Core × Bool
  | [] => (c, true)
  | s :: l =>
    if sessionAgrees c.committee s = false then (c.onDisagreement index, false)
    else admitSessions { c with sessions := (c.sessions.admitSession c.committee s).1 } index l

def adoptHandover (c : Core) (cert : Certificate) (sessions : List SessionCertificate) : Core :=
  let index := cert.checkpoint.index
  let (c, admitted) := c.admitSessions index sessions
  if admitted = false then c
  else if certificateAgrees cert c.sessions = false then c.onDisagreement index
  else if c.verifies cert = false then c
  else if cert.checkpoint.epoch = c.committee.epoch ∧ c.epochClosed = false ∧
      c.certifiedHandoverIndex = u64Max then
    let c := { c with certifiedHandoverIndex := index, handovers := c.handovers ++ [(index, false)] }
    match c.certificates.get? index with
    | some held => c.completeEpoch held
    | none => c.onCertificate cert
  else c.onCertificate cert

def adoptCertificate (c : Core) (cert : Certificate) (sessions : List SessionCertificate) : Core :=
  let (c, admitted) := c.admitSessions cert.checkpoint.index sessions
  if admitted = false then c else c.onCertificate cert

def highestOf (c : Core) (source : ValidatorIndex) : Option VertexRef :=
  let top := c.dag.highestRound.getD 0
  let below := match c.rbc.undeliveredFrom.get? source with
    | some hole => if hole ≤ c.dag.floor then none else some (min (hole - 1) top)
    | none => some top
  below.bind (fun below =>
    (range' c.dag.floor (below + 1 - c.dag.floor)).reverse.findSome? (fun r =>
      (c.dag.vertexAt r source).map (fun e => ⟨r, source, e.1⟩)))

def frontier (c : Core) : Frontier where
  round := c.round
  highest := (range c.committee.size).filterMap c.highestOf
  nextCheckpoint := c.certificates.last?.elim c.start.firstCheckpoint (fun e => e.1 + 1)

def ownVertex (c : Core) (round : ℕ) : Option Vertex :=
  ((c.dag.vertexAt round c.me).map Prod.snd).or
    (c.bodies.values.find? (fun v => v.source = c.me && v.round = round))

def frontierAnswer (c : Core) (current : ℕ) (f : Frontier) : List Message :=
  let deliveredOf := fun source =>
    ((f.highest.filter (fun r => r.source = source)).map VertexRef.round).max?
  let from' := fun source => (deliveredOf source).elim 0 (fun r => satAdd r 1)
  let low := max ((range c.committee.size).foldl (fun l s => min l (from' s))
    (f.round.getD 0)) c.dag.floor
  let mineFrom := max (from' c.me) c.dag.floor
  if current < low then []
  else
    ((range' mineFrom (current + 1 - mineFrom)).filterMap c.ownVertex).map .propose ++
      (chunksOf maxSignalsPerFrame (c.rbc.sentSignals low)).map .signals ++
      (c.ownVotes.filter (fun i _ => f.nextCheckpoint ≤ i)).values.map .vote ++
      (match c.certificates.last? with
        | some (index, cert) => if f.nextCheckpoint ≤ index then [.certificate cert] else []
        | none => [])

def onFrontier (c : Core) (peer : ValidatorIndex) (f : Frontier) : Core :=
  match c.round with
  | none => c
  | some current =>
    if (c.net.frontierAnsweredMs.get? peer).any (fun t => c.net.nowMs - t < c.cfg.fetchRetryMs)
    then c
    else
      { c with
        net := { c.net with
          frontierAnsweredMs := c.net.frontierAnsweredMs.insert peer c.net.nowMs }
        outbox := c.outbox ++ (c.frontierAnswer current f).map (fun m => (Target.one peer, m)) }

def repairStall (c : Core) (nowMs : ℕ) : Core :=
  let after := c.stallAfterMs
  if c.halted = true ∨ c.round = none ∨ nowMs < satAdd c.net.roundEnteredMs after ∨
      nowMs < satAdd c.net.lastRepairMs after then c
  else
    { c with net := { c.net with lastRepairMs := nowMs } }.send .all (.frontier c.frontier)

def pickPeer (c : Core) (attempts : ℕ) (d : Digest) : ValidatorIndex :=
  let i := (d / 2 ^ 248 % 256 + d / 2 ^ 240 % 256 * 256 + attempts) % (c.committee.size - 1)
  if c.me ≤ i then i + 1 else i

def fetchDue (c : Core) (nowMs : ℕ) (w : Wanted) : Bool :=
  w.attempts = 0 || c.cfg.fetchRetryMs ≤ nowMs - w.askedMs

def vertexFetches (c : Core) (nowMs : ℕ) : List (Digest × Wanted) :=
  let liveFrom := c.round.getD 0 - liveRounds
  let due := c.net.wantedVertices.entries.filter (fun e => c.fetchDue nowMs e.2)
  let old := fun (e : Digest × Wanted) => (c.dag.expectedRound e.1).any (fun r => r < liveFrom)
  let bulk := ((due.filter old).take maxBulkFetch).map Prod.fst
  due.filter (fun e => !old e || bulk.contains e.1)

/-- Batches are asked of their holder on even attempts and of others in between. -/
def batchPeer (c : Core) (d : Digest) (w : Wanted) : ValidatorIndex :=
  match w.holder with
  | some h => if h ≠ c.me then
      (if w.attempts % 2 = 0 then h else c.pickPeer (w.attempts / 2) d) else c.pickPeer w.attempts d
  | none => c.pickPeer w.attempts d

def markAsked (nowMs : ℕ) (asked : List (Digest × Wanted)) (m : SortedMap Digest Wanted) :
    SortedMap Digest Wanted :=
  asked.foldl (fun m e =>
    m.insert e.1 { e.2 with attempts := e.2.attempts + 1, askedMs := nowMs }) m

def retryFetches (c : Core) (nowMs : ℕ) : Core :=
  if c.committee.size < 2 then c
  else
    let vs := c.vertexFetches nowMs
    let bs := c.net.wantedBatches.entries.filter (fun e => c.fetchDue nowMs e.2)
    let asks := (range c.committee.size).flatMap (fun p =>
      (chunksOf maxFetch ((vs.filter (fun e => c.pickPeer e.2.attempts e.1 = p)).map Prod.fst)).map
          (fun ds => (Target.one p, Message.fetchVertices ds)) ++
        (chunksOf maxFetch ((bs.filter (fun e => c.batchPeer e.1 e.2 = p)).map Prod.fst)).map
          (fun ds => (Target.one p, Message.fetchBatches ds)))
    { c with
      net := { c.net with
        wantedVertices := markAsked nowMs vs c.net.wantedVertices
        wantedBatches := markAsked nowMs bs c.net.wantedBatches }
      outbox := c.outbox ++ asks }

/-- One fetched vertex: offered if expected, held if it was asked for. -/
def takeVertex (c : Core) (v : Vertex) : Core :=
  let d := v.digest
  if v.wellFormed c.committee = false then c
  else if c.dag.isExpected d then
    { c with net := { c.net with wantedVertices := c.net.wantedVertices.erase d } }.offer v
  else if c.net.wantedVertices.contains d then
    let c := { c with net := { c.net with wantedVertices := c.net.wantedVertices.erase d } }
    if c.dag.contains d then c else c.holdVertex v
  else c

def answerVertexFetch (c : Core) (frm : ValidatorIndex) (ds : List Digest) : Core :=
  let found := (ds.take maxFetch).filterMap (fun d =>
    ((c.dag.get d).or (c.bodies.get? d)).or (c.history.get? d))
  if found = [] then c else c.send (.one frm) (.vertices found)

def onMessage (c : Core) (frm : ValidatorIndex) : Message → Core
  | .propose v => c.onPropose frm v
  | .signals ss => c.onSignals frm ss
  | .batch p => c.onBatch frm p
  | .fetchVertices ds =>
    if maxFetchesPerFrame ≤ c.net.frameFetches then c
    else { c with net := { c.net with frameFetches := c.net.frameFetches + 1 } }.answerVertexFetch
      frm ds
  | .vertices vs => vs.foldl takeVertex c
  | .fetchBatches ds =>
    if maxFetchesPerFrame ≤ c.net.frameFetches then c
    else { c with net := { c.net with frameFetches := c.net.frameFetches + 1 } }.answerBatchFetch
      frm ds
  | .batches ps => ps.foldl takeFetched c
  | .vote v => c.onVote v
  | .certificate cert => c.onCertificate cert
  | .frontier f =>
    let c' := { c with net := { c.net with frameAnsweredFrontier := true } }
    if c.net.frameAnsweredFrontier then c' else c'.onFrontier frm f
  | .fetchOrdering index =>
    let c' := { c with net := { c.net with frameAnsweredOrdering := true } }
    if c.net.frameAnsweredOrdering then c'
    else (c.orderingStates.get? index).elim c' (fun s => c'.send (.one frm) (.ordering s))
  | .ordering _ => c

end Core

end Tenzro
