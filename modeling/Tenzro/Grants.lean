import Tenzro.RateQuotes
import Tenzro.BalanceMovers

set_option autoImplicit false

/-!
# Treasury grants

An enacted grant pays its first tranche from the treasury. A later tranche is paid by an enacted
release, or, where the grant names verifiers, once enough of them recorded its milestone.
-/
namespace Tenzro.Grants
open FixedWidth Outcome NativeBalance Treasury Function
open Staking (VmError refuse)
open BalanceMovers (fundingMoveBalance)
open ByteCodec (hexEncode)

inductive GrantVesting where
  | liquid
  | grant
  | contributor
deriving DecidableEq, Repr

inductive VestingKind where
  | reward
  | grant
  | contributor
deriving DecidableEq, Repr

def dayMillis : ℤ := 24 * 60 * 60 * 1000

def GrantVesting.schedule : GrantVesting → Option (VestingKind × ℤ × ℤ)
  | liquid => none
  | grant => some (.grant, 0, 180 * dayMillis)
  | contributor => some (.contributor, 365 * dayMillis, 3 * 365 * dayMillis)

inductive GrantRelease where
  | governed
  | scheduled (verifiers : List Bytes) (threshold : ℕ)
deriving DecidableEq, Repr

structure GrantRecord where
  recipient : Bytes
  tranches : List ℕ
  milestones : List String
  paid : ℕ
  vesting : GrantVesting
  asset : Option String
  release : GrantRelease
deriving DecidableEq, Repr

structure MilestoneRecord where
  verifiers : List String := []
  evidence : List String := []
  verifiedMs : Option ℤ := none
deriving DecidableEq, Repr

structure VestingSchedule where
  seq : ℕ
  kind : VestingKind
  total : ℕ
  released : ℕ
  startMs : ℤ
  cliffMs : ℤ
  durationMs : ℤ
deriving DecidableEq, Repr

structure FundingLedger where
  balance : Bytes → ℕ
  period : Option OutflowPeriod
  grants : String → Option GrantRecord
  milestones : String → ℕ → Option MilestoneRecord
  vesting : Bytes → List VestingSchedule

/-- The vesting escrow, a hash. -/
class GrantVaults extends TreasuryVaults where
  escrow : Bytes

/-- What a call reads besides the ledger. -/
structure FundingView where
  nowMs : ℤ
  gasCost : ℕ
  outflow : OutflowParams
  reserveTarget : ℕ
  grantFloorBps : ℕ
  approvedGrantee : Bytes → Except VmError Unit
  grantCaps : Bytes → ℕ → Except VmError Unit
  commitGrantStable : String → ℕ → Except VmError Unit
  payGrantStable : Bytes → String → ℕ → Except VmError Unit
  liveIdentity : Bytes → Except VmError Unit

def maxTextLen : ℕ := 512

namespace GrantRecord
variable (g : GrantRecord) (index : ℕ)

def checkNextTranche : Except VmError Unit := do
  ensure (index < g.tranches.length) (VmError.invalidTransaction
    s!"the grant has {g.tranches.length} tranches; there is no tranche {index}")
  ensure (index = g.paid) (VmError.invalidTransaction
    s!"tranche {g.paid} is next; tranche {index} cannot be released now")

def checkGovernedRelease : Except VmError Unit :=
  ensure (g.release = .governed) (VmError.invalidTransaction
    "this grant releases its tranches against verified milestones, not by release proposal")

end GrantRecord

namespace FundingLedger
variable (s : FundingLedger) (view : FundingView)

def loadGrant (grantId : String) : Except VmError GrantRecord :=
  match s.grants grantId with
  | none => refuse s!"no tranched grant {grantId}"
  | some g => .ok g

def setGrant (grantId : String) (g : GrantRecord) : FundingLedger :=
  { s with grants := update s.grants grantId (some g) }

def dropReleased : List VestingSchedule → List VestingSchedule
  | [] => []
  | [last] => [last]
  | v :: rest => if v.released < v.total then v :: dropReleased rest else dropReleased rest

def verifyMilestone (verifier : Bytes) (grantId : String) (index : ℕ) (evidence : String) :
    Except VmError FundingLedger := do
  let grant ← s.loadGrant grantId
  match grant.release with
  | .governed => refuse "this grant releases its tranches by release proposal"
  | .scheduled verifiers threshold =>
    ensure (verifier ∈ verifiers) (VmError.invalidTransaction
      "only a verifier the approved grant named may record its milestones")
    ensure (¬(grant.tranches.length ≤ index ∨ index < grant.paid))
      (VmError.invalidTransaction s!"tranche {index} is not awaiting a milestone")
    ensure (¬(Rates.trim evidence = [] ∨ maxTextLen < evidence.utf8ByteSize))
      (VmError.invalidTransaction "a milestone is recorded with its evidence")
    let record := (s.milestones grantId index).getD {}
    let who := hexEncode verifier
    ensure (who ∉ record.verifiers)
      (VmError.invalidTransaction "this verifier has recorded the milestone already")
    let named := record.verifiers ++ [who]
    let verifiedMs :=
      if record.verifiedMs = none ∧ threshold ≤ named.length then some view.nowMs
      else record.verifiedMs
    let record : MilestoneRecord := ⟨named, record.evidence ++ [evidence], verifiedMs⟩
    let own := update (s.milestones grantId) index (some record)
    return { s with milestones := update s.milestones grantId own }

section
variable [GrantVaults]

def checkGrantFloor : Except VmError Unit :=
  let floor := bpsOf view.reserveTarget (min view.grantFloorBps 10000)
  let held := balanceOf s.balance TreasuryVaults.reserve
  ensure (floor ≤ held) (VmError.invalidTransaction
    s!"treasury grants wait while the running-cost reserve holds {held} wei, under its floor of {floor} ({min view.grantFloorBps 10000} bps of its {view.reserveTarget} target)")

def openVesting (source beneficiary : Bytes) (kind : VestingKind) (amount : ℕ)
    (cliffMs durationMs : ℤ) : Except VmError FundingLedger := do
  let balance ← fundingMoveBalance s.balance source GrantVaults.escrow amount
  let list := dropReleased (s.vesting beneficiary)
  let seq := list.getLast?.elim 0 fun v => v.seq + 1
  let list := list ++ [⟨seq, kind, amount, 0, view.nowMs, cliffMs, durationMs⟩]
  return { s with balance, vesting := update s.vesting beneficiary list }

/-- One grant payment from the treasury, counted against the outflow period. -/
def payGrant (recipient : Bytes) (amount : ℕ) (vesting : GrantVesting) (asset : Option String) :
    Except VmError FundingLedger :=
  match asset with
  | some tokenId => do
    view.payGrantStable recipient tokenId amount
    return s
  | none => do
    view.approvedGrantee recipient
    view.grantCaps recipient amount
    let period ← recordOutflow view.outflow s.balance s.period view.nowMs amount
    let s := { s with period := some period }
    match vesting.schedule with
    | none => do
      let balance ← fundingMoveBalance s.balance TreasuryVaults.treasury recipient amount
      return { s with balance }
    | some (kind, cliffMs, durationMs) =>
      s.openVesting view TreasuryVaults.treasury recipient kind amount cliffMs durationMs

def payTranche (grantId : String) (grant : GrantRecord) (index : ℕ) :
    Except VmError FundingLedger := do
  s.checkGrantFloor view
  let amount := grant.tranches.getD index 0
  let s ← s.payGrant view grant.recipient amount grant.vesting grant.asset
  return s.setGrant grantId { grant with paid := grant.paid + 1 }

def releaseMilestone (grantId : String) (index : ℕ) : Except VmError FundingLedger := do
  let grant ← s.loadGrant grantId
  ensure (grant.release ≠ .governed) (VmError.invalidTransaction
    "this grant releases its tranches by release proposal; file one")
  grant.checkNextTranche index
  match s.milestones grantId index with
  | none => refuse s!"tranche {index}'s milestone has not been verified"
  | some record =>
    ensure (record.verifiedMs ≠ none) (VmError.invalidTransaction
      s!"tranche {index}'s milestone has {record.verifiers.length} of the verifiers it needs")
    s.payTranche view grantId grant index

def enactTrancheRelease (grantId : String) (index : ℕ) : Except VmError FundingLedger := do
  let grant ← s.loadGrant grantId
  grant.checkGovernedRelease
  grant.checkNextTranche index
  s.payTranche view grantId grant index

def enactGrant (proposalId : String) (recipient : Bytes) (amount : ℕ) (tranches : List ℕ)
    (milestones : List String) (vesting : GrantVesting) (asset : Option String)
    (release : GrantRelease) : Except VmError FundingLedger := do
  view.approvedGrantee recipient
  s.checkGrantFloor view
  match asset with
  | none => commitOutflow view.outflow s.balance amount
  | some tokenId => view.commitGrantStable tokenId amount
  let first := tranches.headD amount
  let s ← s.payGrant view recipient first vesting asset
  if tranches = [] then return s
  return s.setGrant proposalId ⟨recipient, tranches, milestones, 1, vesting, asset, release⟩

def chargeTreasury : Except VmError FundingLedger := do
  let held := balanceOf s.balance TreasuryVaults.treasury
  ensure (view.gasCost ≤ held)
    (VmError.invalidTransaction "the treasury cannot pay for funding operations right now")
  return { s with balance := setBalance s.balance TreasuryVaults.treasury (held - view.gasCost) }

def executeFunding (sender : Bytes) (op : FundingLedger → Except VmError FundingLedger) :
    Except VmError FundingLedger := do
  view.liveIdentity sender
  let s ← op s
  s.chargeTreasury view

end

end FundingLedger

end Tenzro.Grants
