import Tenzro.CertificateSound

set_option autoImplicit false
set_option linter.dupNamespace false

/-!
# Following finality without executing

A light client walks from the genesis committee, or from the committee a proof of the
handover chain reaches, to the committee of a checkpoint's epoch. A receipt commits its
journal as 32-byte words; the receipt verifier is a parameter.
-/
namespace Tenzro
open WeightedQuorum

class LightHash extends Finality where
  /-- The root over an epoch and its members in order. -/
  committeeRoot : ℕ → List Member → Digest

variable [LightHash]

def Committee.root (c : Committee) : Digest := LightHash.committeeRoot c.epoch c.members

def checkSigners (c : Committee) : Option ValidatorIndex → List ValidatorIndex → SeatSet →
    Except String SeatSet
  | _, [], seats => .ok seats
  | prev, s :: l, seats =>
    if prev.any (fun p => s ≤ p) then .error "signers are not strictly ascending"
    else if c.member s = none then .error "signer is not a committee member"
    else checkSigners c (some s) l (seats.insert s (c.seats s)).1

def checkSignatures (b : SessionBook) (digest : Digest) :
    List ((ValidatorIndex × Digest) × ℕ) → Except String Unit
  | [] => .ok ()
  | ((s, session), sig) :: l =>
    match b.byDigest.get? session with
    | none => .error "a signer's session certificate is not in the epoch's bundle"
    | some (holder, cert) =>
      if holder ≠ s then .error "a session certificate is another validator's"
      else if Finality.signsVote cert.sessionKey digest sig = false then
        .error "a signature does not verify under a session key its signer certified for this epoch"
      else checkSignatures b digest l

def Certificate.check (cert : Certificate) (chainId : ℕ) (genesis : Digest) (c : Committee)
    (b : SessionBook) : Except String Unit :=
  let cp := cert.checkpoint
  if cp.chainId ≠ chainId ∨ cp.genesisHash ≠ genesis then .error "certificate is for another chain"
  else if cp.epoch ≠ c.epoch ∨ cp.epoch ≠ b.epoch then
    .error "certificate is for another epoch's committee"
  else if cp.wellFormed = false then
    .error "checkpoint's height range or state height is malformed"
  else if cert.signers.length ≠ cert.signatures.length ∨
      cert.signers.length ≠ cert.sessions.length then
    .error "signer, session and signature counts differ"
  else
    match checkSigners c none cert.signers .empty with
    | .error why => .error why
    | .ok seats =>
      if seats.weight < c.quorum then .error "signers carry less than a quorum of seats"
      else checkSignatures b cp.digest ((cert.signers.zip cert.sessions).zip cert.signatures)

def SessionBook.tryAdmit (b : SessionBook) (c : Committee) (s : SessionCertificate) :
    Except String SessionBook :=
  let (book, kept) := b.admitSession c s
  if kept then .ok book
  else if c.epoch ≠ b.epoch then .error "session book and committee are for different epochs"
  else if c.members.all (fun m => m.publicKey ≠ s.validator) then
    .error "session certificate of a non-member"
  else if s.certifies s.validator b.chainId b.genesisHash b.epoch = false then
    .error "session certificate not signed by its validator for this chain and epoch"
  else .error "too many session certificates for one validator"

def SessionBook.tryAdmitAll (b : SessionBook) (c : Committee) :
    List SessionCertificate → Except String SessionBook
  | [] => .ok b
  | s :: l =>
    match b.tryAdmit c s with
    | .error why => .error why
    | .ok b => b.tryAdmitAll c l

structure GenesisAnchor where
  chainId : ℕ
  genesisHash : Digest
  committeeRoot : Digest
deriving DecidableEq

structure EpochHandover where
  certificate : Certificate
  sessions : List SessionCertificate
  nextMembers : List Member

structure LightClient where
  chainId : ℕ
  genesisHash : Digest
  committee : Committee
  sessions : SessionBook
  latest : Option Checkpoint

namespace LightClient

def new (chainId : ℕ) (genesisHash : Digest) (genesis : Committee) : LightClient where
  chainId := chainId
  genesisHash := genesisHash
  committee := genesis
  sessions := .new chainId genesisHash genesis.epoch
  latest := none

def addSessions (l : LightClient) (bundle : List SessionCertificate) : LightClient :=
  { l with sessions := bundle.foldl (fun b s => (b.admitSession l.committee s).1) l.sessions }

def advance (l : LightClient) (cp : Checkpoint) : LightClient :=
  if l.latest.all (fun old => old.index < cp.index) then { l with latest := some cp } else l

def acceptCertificate (l : LightClient) (cert : Certificate) : Except String LightClient :=
  match cert.check l.chainId l.genesisHash l.committee l.sessions with
  | .error why => .error why
  | .ok _ => .ok (l.advance cert.checkpoint)

/-- Moves to the next epoch, whose committee the latest checkpoint commits. -/
def handOver (l : LightClient) (members : List Member) : Except String LightClient :=
  match l.latest.bind Checkpoint.nextCommitteeRoot with
  | none => .error "no accepted checkpoint ends the current epoch"
  | some root =>
    if l.latest.any (fun cp => cp.epoch ≠ l.committee.epoch) then
      .error "the latest checkpoint is of another epoch"
    else
      match Committee.fromMembers (l.committee.epoch + 1) members with
      | .error why => .error why
      | .ok next =>
        if next.root ≠ root then
          .error "the members are not the committee the epoch's last checkpoint commits"
        else .ok { l with
          sessions := .new l.chainId l.genesisHash next.epoch
          committee := next }

def follow (l : LightClient) (h : EpochHandover) : Except String LightClient :=
  match (l.addSessions h.sessions).acceptCertificate h.certificate with
  | .error why => .error why
  | .ok l => l.handOver h.nextMembers

def followAll (l : LightClient) : List EpochHandover → Except String LightClient
  | [] => .ok l
  | h :: hs =>
    match l.follow h with
    | .error why => .error why
    | .ok l => l.followAll hs

end LightClient

structure CheckpointProof where
  genesisMembers : List Member
  handovers : List EpochHandover
  certificate : Certificate
  sessions : List SessionCertificate

def CheckpointProof.verify (p : CheckpointProof) (anchor : GenesisAnchor) :
    Except String Checkpoint :=
  match Committee.fromMembers 0 p.genesisMembers with
  | .error why => .error why
  | .ok genesis =>
    if genesis.root ≠ anchor.committeeRoot then
      .error "the genesis committee is not the one the genesis anchor names"
    else if p.handovers.length ≠ p.certificate.checkpoint.epoch then
      .error s!"a checkpoint of epoch {p.certificate.checkpoint.epoch} needs {p.certificate.checkpoint.epoch} handovers, the proof has {p.handovers.length}"
    else
      match (LightClient.new anchor.chainId anchor.genesisHash genesis).followAll p.handovers with
      | .error why => .error why
      | .ok client =>
        match (client.addSessions p.sessions).acceptCertificate p.certificate with
        | .error why => .error why
        | .ok _ => .ok p.certificate.checkpoint

structure FinalityStep where
  chainId : ℕ
  genesisHash : Digest
  members : List Member
  sessions : List SessionCertificate
  certificate : Certificate

structure FinalityJournal where
  chainId : ℕ
  genesisHash : Digest
  epoch : ℕ
  committeeRoot : Digest
  index : ℕ
  checkpointDigest : Digest
  lastHeight : ℕ
  stateHeight : ℕ
  stateRoot : Digest
  blocksRoot : Digest
  statementRoot : Digest
  nextCommitteeRoot : Digest
  timestampMs : ℕ

def FinalityStep.journal (s : FinalityStep) (committee : Committee) : FinalityJournal :=
  let cp := s.certificate.checkpoint
  { chainId := cp.chainId
    genesisHash := cp.genesisHash
    epoch := cp.epoch
    committeeRoot := committee.root
    index := cp.index
    checkpointDigest := cp.digest
    lastHeight := cp.lastHeight
    stateHeight := cp.stateHeight
    stateRoot := cp.stateRoot
    blocksRoot := cp.blocksRoot
    statementRoot := cp.statementRoot
    nextCommitteeRoot := cp.nextCommitteeRoot.getD 0
    timestampMs := cp.timestampMs }

def FinalityStep.verify (s : FinalityStep) : Except String FinalityJournal :=
  let cp := s.certificate.checkpoint
  match Committee.fromMembers cp.epoch s.members with
  | .error why => .error why
  | .ok committee =>
    match (SessionBook.new s.chainId s.genesisHash cp.epoch).tryAdmitAll committee s.sessions with
    | .error why => .error why
    | .ok book =>
      match s.certificate.check s.chainId s.genesisHash committee book with
      | .error why => .error why
      | .ok _ => .ok (s.journal committee)

structure HandoverChainJournal where
  program : Digest
  chainId : ℕ
  genesisHash : Digest
  genesisRoot : Digest
  epoch : ℕ
  committeeRoot : Digest
deriving DecidableEq

namespace HandoverChainJournal

def encode (j : HandoverChainJournal) : List ℕ :=
  [j.program, j.chainId, j.genesisHash, j.genesisRoot, j.epoch, j.committeeRoot]

def readU64 (word : ℕ) : Option ℕ := if word < 2 ^ 64 then some word else none

def decode : List ℕ → Option HandoverChainJournal
  | [program, chain, genesisHash, genesisRoot, epoch, committeeRoot] =>
    (readU64 chain).bind (fun chainId => (readU64 epoch).map (fun epoch =>
      ⟨program, chainId, genesisHash, genesisRoot, epoch, committeeRoot⟩))
  | _ => none

end HandoverChainJournal

structure HandoverLink where
  program : Digest
  genesisRoot : Digest
  prev : Option HandoverChainJournal
  step : FinalityStep

/-- Why a link does not extend what the chain before it states. -/
def HandoverLink.refusal (l : HandoverLink) (j : FinalityJournal) : Option String :=
  match l.prev with
  | none =>
    if j.epoch ≠ 0 ∨ j.committeeRoot ≠ l.genesisRoot then
      some "the first link must hand over epoch 0 under the genesis committee"
    else none
  | some p =>
    if p.program ≠ l.program then some "the previous link was proven by another program"
    else if p.chainId ≠ j.chainId ∨ p.genesisHash ≠ j.genesisHash ∨
        p.genesisRoot ≠ l.genesisRoot then some "the previous link is of another chain"
    else if p.epoch ≠ j.epoch ∨ p.committeeRoot ≠ j.committeeRoot then
      some s!"the chain reaches epoch {p.epoch} under another committee than the link's epoch {j.epoch}"
    else none

def HandoverLink.verify (l : HandoverLink) : Except String HandoverChainJournal :=
  match l.step.verify with
  | .error why => .error why
  | .ok j =>
    if j.chainId ≠ l.step.chainId ∨ j.genesisHash ≠ l.step.genesisHash then
      .error "the checkpoint is of another chain"
    else
      match l.refusal j with
      | some why => .error why
      | none =>
        if j.nextCommitteeRoot = 0 then .error "the checkpoint does not end its epoch"
        else .ok ⟨l.program, j.chainId, j.genesisHash, l.genesisRoot, j.epoch + 1,
          j.nextCommitteeRoot⟩

structure ChainAnchor where
  chainId : ℕ
  genesisHash : Digest
  genesisRoot : Digest
  program : Digest

/-- Checks that a receipt proves the program and returns the journal it committed. -/
abbrev ReceiptVerifier := Digest → List ℕ → Except String (List ℕ)

def ChainAnchor.reached (a : ChainAnchor) (chain : List ℕ) (verifyReceipt : ReceiptVerifier) :
    Except String (ℕ × Digest) :=
  if chain = [] then .ok (0, a.genesisRoot)
  else
    match verifyReceipt a.program chain with
    | .error e => .error s!"the handover chain proof does not verify: {e}"
    | .ok journal =>
      match HandoverChainJournal.decode journal with
      | none => .error "the handover chain proof commits no chain journal"
      | some j =>
        if j.program ≠ a.program then .error "the handover chain proof names another program"
        else if j.chainId ≠ a.chainId ∨ j.genesisHash ≠ a.genesisHash ∨
            j.genesisRoot ≠ a.genesisRoot then
          .error "the handover chain proof is of another chain"
        else .ok (j.epoch, j.committeeRoot)

structure ChainedCheckpointProof where
  chain : List ℕ
  members : List Member
  handovers : List EpochHandover
  certificate : Certificate
  sessions : List SessionCertificate

namespace ChainedCheckpointProof

def step (a : ChainAnchor) (members : List Member) (cert : Certificate)
    (sessions : List SessionCertificate) : Except String FinalityJournal :=
  FinalityStep.verify ⟨a.chainId, a.genesisHash, members, sessions, cert⟩

def followAll (a : ChainAnchor) : ℕ → List Member → List EpochHandover →
    Except String (ℕ × List Member)
  | epoch, members, [] => .ok (epoch, members)
  | epoch, members, h :: hs =>
    match step a members h.certificate h.sessions with
    | .error why => .error why
    | .ok j =>
      if j.epoch ≠ epoch ∨ j.nextCommitteeRoot = 0 then
        .error s!"the handover of epoch {epoch} does not end it"
      else
        match Committee.fromMembers (epoch + 1) h.nextMembers with
        | .error why => .error why
        | .ok next =>
          if next.root ≠ j.nextCommitteeRoot then
            .error s!"the members are not the committee epoch {epoch}'s last checkpoint commits"
          else followAll a (epoch + 1) h.nextMembers hs

def verify (p : ChainedCheckpointProof) (a : ChainAnchor) (verifyReceipt : ReceiptVerifier) :
    Except String Checkpoint :=
  match a.reached p.chain verifyReceipt with
  | .error why => .error why
  | .ok (epoch, root) =>
    match Committee.fromMembers epoch p.members with
    | .error why => .error why
    | .ok committee =>
      if committee.root ≠ root then
        .error s!"the members are not the committee of epoch {epoch} the chain reaches"
      else
        match followAll a epoch p.members p.handovers with
        | .error why => .error why
        | .ok (epoch, members) =>
          match step a members p.certificate p.sessions with
          | .error why => .error why
          | .ok j =>
            if j.epoch ≠ epoch then
              .error s!"a checkpoint of epoch {j.epoch} under a proof that reaches epoch {epoch}"
            else .ok p.certificate.checkpoint

end ChainedCheckpointProof

structure ChainSegment where
  journal : Option HandoverChainJournal
  receipt : List ℕ
  members : List Member
  handovers : List EpochHandover

namespace ChainSegment

def firstEpoch (s : ChainSegment) : ℕ := s.journal.elim 0 HandoverChainJournal.epoch

/-- The program whose receipts are taken; without a receipt none is needed. -/
def programOf (s : ChainSegment) (handoverProgram : Option Digest) : Except String Digest :=
  match handoverProgram with
  | some p => .ok p
  | none =>
    if s.receipt = [] then .ok 0
    else .error "the segment builds on a handover chain proof: name the handover program"

def lightClient (s : ChainSegment) (anchor : GenesisAnchor) (handoverProgram : Option Digest)
    (verifyReceipt : ReceiptVerifier) : Except String LightClient :=
  match s.programOf handoverProgram with
  | .error why => .error why
  | .ok program =>
    let chain : ChainAnchor := ⟨anchor.chainId, anchor.genesisHash, anchor.committeeRoot, program⟩
    match chain.reached s.receipt verifyReceipt with
    | .error why => .error why
    | .ok (epoch, root) =>
      if epoch ≠ s.firstEpoch then
        .error s!"the segment starts at epoch {s.firstEpoch}, its chain proof reaches epoch {epoch}"
      else
        match Committee.fromMembers epoch s.members with
        | .error why => .error why
        | .ok committee =>
          if committee.root ≠ root then
            .error s!"the members are not the committee of epoch {epoch} the chain reaches"
          else
            (LightClient.new anchor.chainId anchor.genesisHash committee).followAll s.handovers

end ChainSegment

end Tenzro
