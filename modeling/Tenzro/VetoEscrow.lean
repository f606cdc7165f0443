import Tenzro.Governance
import Tenzro.NativeBalance

set_option autoImplicit false
set_option linter.dupNamespace false

/-!
# The holders' veto escrow

A holder locks coins against a proposal. The locked share stretches its timelock, or contests it;
the lock goes back once the proposal is decided.
-/
namespace Tenzro.VetoEscrow
open FixedWidth Outcome Function
open Staking (VmError refuse)
open Governance
open NativeBalance
open ByteCodec (hexEncode)

/-- A hash of the proposer, the proposal's payload and the proposer's nonce. -/
abbrev ProposalId := { b : Bytes // b.length = 32 }

/-- The vault that holds every lock against a proposal, by the proposal's id. -/
class VetoVaults extends AccountNames where
  vault : ProposalId → Bytes

inductive GuardianRole where
  | protocol
  | governance
  | steward
deriving DecidableEq, Repr

def GuardianRole.asStr : GuardianRole → String
  | protocol => "protocol"
  | governance => "governance"
  | steward => "steward"

/-- What a call reads besides the ledger. -/
structure VetoView where
  nowMs : ℤ
  gasCost : ℕ
  rules : GovernanceRules
  supply : ℕ
  signalBps : ℕ
  blockBps : ℕ
  maxExtensionMs : ℕ
  agentWeightMaxBps : ℕ
  concernQuorum : ℕ
  rootMinAgeMs : ℕ
  /-- Whether the parameter's change to the value loosens a capture guard. -/
  loosensGuard : String → ℕ → Bool
  enactmentPaused : Bool
  treasuryPaused : Bool
  /-- Whether the machines a protocol upgrade waits for are ready. -/
  readiness : ProposalAction → Except VmError Unit
  identityOfWallet : Bytes → Option String
  rootDid : String → String
  revoked : String → Bool
  registeredAt : String → Option ℤ

def VetoView.loosensCaptureGuard (view : VetoView) (action : ProposalAction) : Bool :=
  action.parameterChange.any fun change => view.loosensGuard change.1 change.2

/-- Balances by account; proposals and locks by proposal id; ballots by proposal id and by whether
they are of its Ratify vote. -/
structure VetoLedger where
  balance : Bytes → ℕ
  proposals : ProposalId → Option Proposal
  tally : ProposalId → Bool → Tally
  votes : ProposalId → Bool → Bytes → Option (ℕ × Bool)
  concerned : ProposalId → String → Bool
  locked : ProposalId → Bytes → ℕ
  total : ProposalId → ℕ

/-! ### Shares of supply -/

def lockedShareBps (locked supply : ℕ) : ℕ := saturatingMul 128 locked 10000 / supply

def scaledExtension (maxExtensionMs share blockBps : ℕ) : ℕ :=
  saturatingMul 128 maxExtensionMs share / blockBps

def extensionForShare (lockedBps signalBps blockBps maxExtensionMs : ℕ) : ℤ :=
  if blockBps = 0 ∨ lockedBps < signalBps then 0
  else min (scaledExtension maxExtensionMs (min lockedBps blockBps) blockBps : ℤ) (2 ^ 63 - 1)

/-- How far the locked coins stretch a timelock. -/
def vetoExtensionMs (locked supply signalBps blockBps maxExtensionMs : ℕ) : ℤ :=
  if supply = 0 ∨ blockBps = 0 then 0
  else extensionForShare (lockedShareBps locked supply) signalBps blockBps maxExtensionMs

def vetoBlocks (locked supply blockBps : ℕ) : Bool :=
  0 < supply && saturatingMul 128 supply blockBps ≤ saturatingMul 128 locked 10000

namespace VetoLedger

def ballotId (p : Proposal) : Bool := p.track = .ratify

section
variable (s : VetoLedger) (view : VetoView)

def load (id : ProposalId) : Except VmError Proposal :=
  match s.proposals id with
  | none => refuse s!"Proposal {hexEncode id.1} does not exist"
  | some p => .ok p

def store (id : ProposalId) (p : Proposal) : VetoLedger :=
  { s with proposals := update s.proposals id (some p) }

def setTally (id : ProposalId) (ratify : Bool) (t : Tally) : VetoLedger :=
  { s with tally := update s.tally id (update (s.tally id) ratify t) }

def tallyOf (id : ProposalId) (p : Proposal) : Tally := s.tally id (ballotId p)

def decided (id : ProposalId) (p : Proposal) : Bool :=
  match p.status with
  | .executed | .vetoed | .rejected => true
  | .queued => p.isExecutableAt view.nowMs
  | .voting | .contested => !p.isOpenAt view.nowMs &&
    (match p.decideGuarded (s.tallyOf id p) view.nowMs (view.loosensCaptureGuard p.action) with
    | .ok status => status ≠ .passed
    | .error _ => false)
  | .passed => false

/-- A new proposal, its tally against the bonded stake of the moment. -/
def openProposal (id : ProposalId) (action : ProposalAction) (totalEligible : ℕ) : VetoLedger :=
  (s.store id (.opened action view.nowMs view.rules)).setTally id false ⟨0, 0, totalEligible⟩

def vote (id : ProposalId) (voter : Bytes) (inFavour : Bool) (weight : ℕ) :
    Except VmError VetoLedger := do
  let p ← s.load id
  ensure (p.isOpenAt view.nowMs) (VmError.invalidTransaction
    s!"voting on {hexEncode id.1} closed at {p.votingEndsMs} (now {view.nowMs})")
  ensure (weight ≠ 0) (VmError.invalidTransaction
    s!"{hexEncode voter} had no bonded stake when the proposal opened, so it cannot vote")
  let ballot := ballotId p
  let t := (s.tally id ballot).applyVote weight inFavour (s.votes id ballot voter)
  let s := s.setTally id ballot t
  return { s with
    votes := update s.votes id (update (s.votes id) ballot
      (update (s.votes id ballot) voter (some (weight, inFavour)))) }

end

section
variable [VetoVaults] (s : VetoLedger) (view : VetoView)

def charge (sender : Bytes) : Except VmError VetoLedger := do
  let available := balanceOf s.balance sender
  ensure (view.gasCost ≤ available) (VmError.insufficientBalance view.gasCost available)
  return { s with balance := setBalance s.balance sender (available - view.gasCost) }

def lock (holder : Bytes) (id : ProposalId) (amount : ℕ) : Except VmError VetoLedger := do
  ensure (amount ≠ 0) (VmError.invalidTransaction "a veto signal locks a positive amount")
  let p ← s.load id
  ensure (holderVetoApplies p.action) (VmError.invalidTransaction
    s!"holders veto treasury, sanction and protocol upgrade proposals; {hexEncode id.1} is {p.action.kind}")
  let mayDelay : Bool := match p.status with
    | .voting | .passed | .contested => true
    | .queued => !p.isExecutableAt view.nowMs
    | _ => false
  ensure mayDelay (VmError.invalidTransaction
    s!"proposal {hexEncode id.1} is past the point a veto signal can delay it ({p.status.debug})")
  let balance ← moveTnzo s.balance holder (VetoVaults.vault id) amount
  let total := saturatingAdd 128 (s.total id) amount
  let s := { s with
    balance
    locked := update s.locked id (update (s.locked id) holder
      (saturatingAdd 128 (s.locked id holder) amount))
    total := update s.total id total }
  let electorate := (s.tallyOf id p).totalEligible
  match if vetoBlocks total view.supply view.blockBps then p.contest view.nowMs else none with
  | some p => return (s.setTally id (ballotId p) ⟨0, 0, electorate⟩).store id p
  | none => return s.store id (p.extendByVeto
      (vetoExtensionMs total view.supply view.signalBps view.blockBps view.maxExtensionMs))

def vetoSignal (sender : Bytes) (id : ProposalId) (amount : ℕ) : Except VmError VetoLedger := do
  let available := balanceOf s.balance sender
  let required := saturatingAdd 128 amount view.gasCost
  ensure (required ≤ available) (VmError.insufficientBalance required available)
  let s ← s.charge view sender
  s.lock view sender id amount

/-- What an agent's terms allow it of votes and signals. -/
structure GovernanceScope where
  mayVetoSignal : Bool
  domains : List ActionDomain
  maxWeightBps : ℕ
  /-- Whether the action carries the principal's step-up. -/
  stepUp : Bool

def domainName : ActionDomain → String
  | .network => "network"
  | .treasury => "treasury"
  | .sanction => "sanction"

def agentSignal (scope : GovernanceScope) (wallet : Bytes) (id : ProposalId) (amount : ℕ) :
    Except VmError VetoLedger := do
  ensure scope.mayVetoSignal (VmError.invalidTransaction
    "agent veto signal refused: the agent's terms give it no veto signal")
  let p ← s.load id
  let name := domainName p.action.domain
  ensure (p.action.domain ∈ scope.domains) (VmError.invalidTransaction
    s!"agent veto signal refused: the agent may not signal in the {name} domain")
  ensure (p.action.domain = .network ∨ scope.stepUp) (VmError.invalidTransaction
    s!"agent veto signal refused: a {name} signal needs the principal's step-up")
  let cap := saturatingMul 128 view.supply (min scope.maxWeightBps view.agentWeightMaxBps) / 10000
  ensure (amount ≤ cap) (VmError.invalidTransaction
    s!"agent veto signal refused: one agent signal locks at most {cap}")
  s.lock view wallet id amount

def vetoWithdraw (sender : Bytes) (id : ProposalId) (holder : Bytes) :
    Except VmError VetoLedger := do
  ensure (holder.length = 20 ∨ holder.length = 32) (VmError.invalidTransaction
    "a veto withdrawal is selector, proposal id (32 bytes) and the holder (length-prefixed, 20 or 32 bytes)")
  let p ← s.load id
  let amount := s.locked id holder
  ensure (amount ≠ 0) (VmError.invalidTransaction
    s!"{hexEncode holder} holds no veto lock against {hexEncode id.1}")
  ensure (s.decided view id p) (VmError.invalidTransaction
    s!"proposal {hexEncode id.1} is not decided yet; a veto lock returns once it is")
  let s ← s.charge view sender
  let balance ← moveTnzo s.balance (VetoVaults.vault id) holder amount
  return { s with
    balance
    locked := update s.locked id (update (s.locked id) holder 0)
    total := update s.total id (s.total id - amount) }

/-- Queues a proposal that carried, or enacts one whose timelock has elapsed. What the enacted
action itself does to balances is another transaction's. -/
def governanceExecute (sender : Bytes) (id : ProposalId) : Except VmError VetoLedger := do
  let p ← s.load id
  ensure (¬ view.enactmentPaused) (VmError.invalidTransaction
    "governance enactment is paused by a protocol guardian; voting, proposing and vetoing continue")
  ensure (¬ (stewardScope p.action ∧ view.treasuryPaused)) (VmError.invalidTransaction
    "treasury and expedited enactment is held by Foundation stewards; the hold lifts by itself")
  ensure (p.status ≠ .vetoed) (VmError.invalidTransaction
    s!"proposal {hexEncode id.1} was vetoed during its timelock")
  ensure (p.status ≠ .executed) (VmError.invalidTransaction
    s!"proposal {hexEncode id.1} has already been executed")
  if p.status ≠ .queued then
    let t := s.tallyOf id p
    let loosens := view.loosensCaptureGuard p.action
    let outcome ← (p.decideGuarded t view.nowMs loosens).mapError
      fun e => VmError.invalidTransaction e.toString
    let reason := if loosens ∧ p.outcome t = .passed then
        s!"it loosens an economic safety bound, which needs yes votes of {p.rules.largeSpendApprovalBps} bps of all eligible stake"
      else t.failureReason p.track p.rules
    ensure (outcome = .passed) (VmError.invalidTransaction
      s!"proposal {hexEncode id.1} did not pass: {reason}")
    match { p with status := .passed }.queue view.nowMs with
    | none => .error (.internal s!"proposal {hexEncode id.1} could not be queued")
    | some p => return (← s.charge view sender).store id p
  else
    ensure (p.isExecutableAt view.nowMs) (VmError.invalidTransaction
      s!"proposal {hexEncode id.1} is in timelock until {p.etaMs.getD 0} (now {view.nowMs}); it can still be vetoed until then")
    view.readiness p.action
    return (← s.charge view sender).store id { p with status := .executed }

def mayVeto (role : Option GuardianRole) (p : Proposal) : Except VmError Unit :=
  match role with
  | none => refuse "veto refused: caller holds no guardian role"
  | some role => do
    ensure (role ≠ .protocol) (VmError.invalidTransaction
      s!"veto refused: guardian role '{role.asStr}' may not veto; that is the governance guardian's power")
    ensure (p.status = .queued) (VmError.invalidTransaction
      s!"veto refused: only a queued proposal can be vetoed (this one is {p.status.debug}); before it carries there is nothing to stop, and after it executes there is nothing left to stop")
    ensure (role ≠ .steward ∨ stewardScope p.action) (VmError.invalidTransaction
      "veto refused: a steward may veto only a treasury or expedited proposal")

def governanceVeto (sender : Bytes) (id : ProposalId) (role : Option GuardianRole)
    (carried : Bool) : Except VmError VetoLedger := do
  let p ← s.load id
  mayVeto role p
  let s ← s.charge view sender
  if carried then
    match p.veto with
    | none => .error (.internal s!"proposal {hexEncode id.1} could not be vetoed")
    | some p => return s.store id p
  else return s

def concern (sender : Bytes) (id : ProposalId) : Except VmError VetoLedger := do
  let p ← s.load id
  ensure (p.status = .queued ∧ ¬ p.isExecutableAt view.nowMs) (VmError.invalidTransaction
    s!"a concern is raised on a proposal in its timelock; {hexEncode id.1} is not")
  match view.identityOfWallet sender with
  | none => refuse s!"{hexEncode sender} has no registered identity"
  | some did =>
    let root := view.rootDid did
    ensure ("did:tenzro:human:".toList <+: root.toList ∧ ¬ view.revoked root)
      (VmError.invalidTransaction
        s!"{did} has no live human root; a concern is raised by a human identity")
    ensure ((view.registeredAt root).any fun registered => Staking.clampSigned
      (registered + min (view.rootMinAgeMs : ℤ) (2 ^ 63 - 1)) ≤ p.createdMs)
      (VmError.invalidTransaction
        s!"{root} was registered less than {view.rootMinAgeMs} ms before the proposal opened; its concern does not count")
    ensure (¬ s.concerned id root) (VmError.invalidTransaction
      s!"{root} has already raised a concern on {hexEncode id.1}")
    let s ← s.charge view sender
    let s := { s with
      concerned := update s.concerned id (update (s.concerned id) root true) }
    return s.store id (p.raiseConcern view.concernQuorum)

end

end VetoLedger

end Tenzro.VetoEscrow
