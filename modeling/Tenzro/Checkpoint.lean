import Tenzro.Vertex
import Tenzro.Schedule

set_option autoImplicit false
set_option linter.dupNamespace false

/-!
# Checkpoints, votes and certificates

What the committee signs, how votes become a certificate, and the ordering
state each checkpoint commits. Signature schemes are parameters.
-/
namespace Tenzro

structure Checkpoint where
  chainId : ℕ
  genesisHash : Digest
  epoch : ℕ
  index : ℕ
  prev : Digest
  firstHeight : ℕ
  lastHeight : ℕ
  blocksRoot : Digest
  stateHeight : ℕ
  stateRoot : Digest
  statementRoot : Digest
  nextCommitteeRoot : Option Digest
  anchorRound : ℕ
  timestampMs : ℕ
  orderingRoot : Digest
deriving DecidableEq, Repr

def stateRootLag : ℕ := 2

/-- How many indices behind its latest signature a validator keeps what it signed. -/
@[irreducible] def signedVoteWindow : ℕ := 1024

def stateRootHeight (lastHeight : ℕ) : ℕ := lastHeight - stateRootLag

def checkpointStateHeight (firstHeight lastHeight : ℕ) : ℕ :=
  if lastHeight < firstHeight then lastHeight else stateRootHeight lastHeight

def Checkpoint.wellFormed (cp : Checkpoint) : Bool :=
  cp.firstHeight ≤ satAdd cp.lastHeight 1 &&
    cp.stateHeight = checkpointStateHeight cp.firstHeight cp.lastHeight

structure SessionCertificate where
  chainId : ℕ
  genesisHash : Digest
  epoch : ℕ
  validator : ℕ
  sessionKey : ℕ
  signature : ℕ
deriving DecidableEq, Repr

structure VoteSignature where
  session : SessionCertificate
  signature : ℕ
deriving DecidableEq, Repr

structure CheckpointVote where
  checkpoint : Checkpoint
  signer : ValidatorIndex
  signature : VoteSignature
deriving DecidableEq, Repr

structure Certificate where
  checkpoint : Checkpoint
  signers : List ValidatorIndex
  sessions : List Digest
  signatures : List ℕ
deriving DecidableEq, Repr

structure CheckpointEquivocation where
  publicKey : ℕ
  first : Checkpoint
  firstSignature : VoteSignature
  second : Checkpoint
  secondSignature : VoteSignature
deriving DecidableEq, Repr

/-- The state a core holds right after it decided checkpoint `index`. -/
structure OrderingState where
  epoch : ℕ
  index : ℕ
  anchorRound : ℕ
  nextSlot : ℕ × ℕ
  floor : ℕ
  ordered : List (Digest × ℕ)
  nextHeight : ℕ
  lastTimestampMs : ℕ
  lastStateHeight : ℕ
  lastCheckpointHeight : ℕ
  lastCheckpointTs : ℕ
  epochEndsMs : ℕ
  epochClosed : Bool
  handoverIndex : ℕ
  seedTail : List Digest
  schedule : ScheduleState
  availability : AvailabilityState
deriving DecidableEq

/-- Hashes and signature checks of the finality layer. A member's key is its fingerprint. -/
class Finality where
  checkpointDigest : Checkpoint → Digest
  sessionDigest : SessionCertificate → Digest
  orderingDigest : OrderingState → Digest
  merkleRoot : List Digest → Digest
  /-- The next link of the seed chain: previous seed, index, last height, anchor digest. -/
  orderingSeed : Digest → ℕ → ℕ → Digest → Digest
  /-- A hardware key's signature under a session certificate. -/
  signsSession : ℕ → SessionCertificate → Bool
  /-- A session key's signature over a checkpoint digest. -/
  signsVote : ℕ → Digest → ℕ → Bool
  /-- Whether the two implementations agree on each of these. -/
  agreeSession : ℕ → SessionCertificate → Bool
  agreeVote : ℕ → Digest → ℕ → Bool

variable [Finality]

def Checkpoint.digest (cp : Checkpoint) : Digest := Finality.checkpointDigest cp

def OrderingState.digest (s : OrderingState) : Digest := Finality.orderingDigest s

def SessionCertificate.certifies (s : SessionCertificate) (key chainId : ℕ) (genesis : Digest)
    (epoch : ℕ) : Bool :=
  s.chainId = chainId && s.genesisHash = genesis && s.epoch = epoch && s.validator = key &&
    Finality.signsSession key s

def VoteSignature.verify (s : VoteSignature) (key : ℕ) (cp : Checkpoint) : Bool :=
  s.session.certifies key cp.chainId cp.genesisHash cp.epoch &&
    Finality.signsVote s.session.sessionKey cp.digest s.signature

def CheckpointVote.verify (v : CheckpointVote) (key : ℕ) : Bool :=
  v.signature.verify key v.checkpoint

@[irreducible] def maxSessionsPerValidator : ℕ := 16

structure SessionBook where
  chainId : ℕ
  genesisHash : Digest
  epoch : ℕ
  byDigest : SortedMap Digest (ValidatorIndex × SessionCertificate)
  perValidator : SortedMap ValidatorIndex ℕ

namespace SessionBook

def new (chainId : ℕ) (genesis : Digest) (epoch : ℕ) : SessionBook :=
  ⟨chainId, genesis, epoch, .empty, .empty⟩

def admitSession (b : SessionBook) (c : Committee) (s : SessionCertificate) : SessionBook × Bool :=
  let d := Finality.sessionDigest s
  if b.byDigest.contains d then (b, true)
  else if c.epoch ≠ b.epoch then (b, false)
  else
    match c.members.findIdx? (fun m => m.publicKey = s.validator) with
    | none => (b, false)
    | some i =>
      if s.certifies s.validator b.chainId b.genesisHash b.epoch = false then (b, false)
      else if maxSessionsPerValidator ≤ b.perValidator.getD i 0 then (b, false)
      else
        ({ b with
            perValidator := b.perValidator.insert i (b.perValidator.getD i 0 + 1)
            byDigest := b.byDigest.insert d (i, s) }, true)

end SessionBook

def sessionAgrees (c : Committee) (s : SessionCertificate) : Bool :=
  c.members.all (fun m => m.publicKey ≠ s.validator) || Finality.agreeSession s.validator s

def voteAgrees (c : Committee) (v : CheckpointVote) : Bool :=
  sessionAgrees c v.signature.session &&
    Finality.agreeVote v.signature.session.sessionKey v.checkpoint.digest v.signature.signature

def certificateAgrees (cert : Certificate) (b : SessionBook) : Bool :=
  (cert.sessions.zip cert.signatures).all (fun e =>
    ((b.byDigest.get? e.1).map (fun s =>
      Finality.agreeVote s.2.sessionKey cert.checkpoint.digest e.2)).getD true)

def signerSeats (c : Committee) : Option ValidatorIndex → List ValidatorIndex → SeatSet →
    Option SeatSet
  | _, [], seats => some seats
  | prev, s :: l, seats =>
    if prev.any (fun p => s ≤ p) ∨ c.member s = none then none
    else signerSeats c (some s) l (seats.insert s (c.seats s)).1

def Certificate.verify (cert : Certificate) (chainId : ℕ) (genesis : Digest) (c : Committee)
    (b : SessionBook) : Bool :=
  let cp := cert.checkpoint
  cp.chainId = chainId && cp.genesisHash = genesis && cp.epoch = c.epoch && cp.epoch = b.epoch &&
    cp.wellFormed && cert.signers.length = cert.signatures.length &&
    cert.signers.length = cert.sessions.length &&
    (match signerSeats c none cert.signers .empty with
      | none => false
      | some seats => c.quorum ≤ seats.weight) &&
    ((cert.signers.zip cert.sessions).zip cert.signatures).all (fun e =>
      match b.byDigest.get? e.1.2 with
      | none => false
      | some (i, s) => i = e.1.1 && Finality.signsVote s.sessionKey cp.digest e.2)

def Certificate.signatureOf (cert : Certificate) (b : SessionBook) (s : ValidatorIndex) :
    Option VoteSignature :=
  (cert.signers.findIdx? (· = s)).bind (fun i =>
    (cert.sessions[i]?).bind (fun d => (b.byDigest.get? d).bind (fun e =>
      (cert.signatures[i]?).map (fun sig => ⟨e.2, sig⟩))))

def conflictEvidence (x y : Certificate) (chainId : ℕ) (genesis : Digest) (c : Committee)
    (b : SessionBook) : List CheckpointEquivocation :=
  if x.verify chainId genesis c b = false ∨ y.verify chainId genesis c b = false ∨
      x.checkpoint.index ≠ y.checkpoint.index ∨ x.checkpoint.digest = y.checkpoint.digest then []
  else
    x.signers.filterMap (fun s => (c.member s).bind (fun m =>
      (x.signatureOf b s).bind (fun sx => (y.signatureOf b s).map (fun sy =>
        ⟨m.publicKey, x.checkpoint, sx, y.checkpoint, sy⟩))))

inductive VoteOutcome where
  | counted
  | duplicate
  | certified (cert : Certificate)
  | equivocation (first second : CheckpointVote)

structure IndexVotes where
  bySigner : SortedMap ValidatorIndex CheckpointVote
  byDigest : SortedMap Digest SeatSet
  certified : Bool

structure VoteCollector where
  indices : SortedMap ℕ IndexVotes
  floor : ℕ

namespace VoteCollector

def new : VoteCollector := ⟨.empty, 0⟩

def add (vs : VoteCollector) (c : Committee) (vote : CheckpointVote) :
    VoteCollector × VoteOutcome :=
  if vote.checkpoint.index < vs.floor then (vs, .duplicate)
  else
    let d := vote.checkpoint.digest
    let e := vs.indices.getD vote.checkpoint.index ⟨.empty, .empty, false⟩
    match e.bySigner.get? vote.signer with
    | some prev =>
      ({ vs with indices := vs.indices.insert vote.checkpoint.index e },
        if prev.checkpoint.digest = d then .duplicate else .equivocation prev vote)
    | none =>
      let e := { e with bySigner := e.bySigner.insert vote.signer vote }
      if e.certified then
        ({ vs with indices := vs.indices.insert vote.checkpoint.index e }, .duplicate)
      else
        let seats := ((e.byDigest.getD d .empty).insert vote.signer (c.seats vote.signer)).1
        let e := { e with byDigest := e.byDigest.insert d seats }
        if seats.weight < c.quorum then
          ({ vs with indices := vs.indices.insert vote.checkpoint.index e }, .counted)
        else
          let votes := seats.toList.filterMap e.bySigner.get?
          ({ vs with
              indices := vs.indices.insert vote.checkpoint.index { e with certified := true } },
            .certified
              { checkpoint := vote.checkpoint
                signers := seats.toList
                sessions := votes.map (fun v => Finality.sessionDigest v.signature.session)
                signatures := votes.map (fun v => v.signature.signature) })

def pruneBelow (vs : VoteCollector) (index : ℕ) : VoteCollector :=
  if vs.floor < index
  then { floor := index, indices := vs.indices.filter (fun i _ => index ≤ i) } else vs

end VoteCollector

end Tenzro
