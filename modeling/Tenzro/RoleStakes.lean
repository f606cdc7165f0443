import Tenzro.BalanceMovers
import Tenzro.RateQuotes
import Tenzro.StakingSlash

set_option autoImplicit false
set_option linter.dupNamespace false

/-!
# Stake per account per role

An account bonds for each role it serves. One vault holds the stake of every account and role;
each role keeps the total bonded for it and the list of its stakers.
-/
namespace Tenzro.RoleStakes
open FixedWidth Outcome NativeBalance Function
open Staking (VmError refuse clampSigned slashSplit checkedAdd checkedSub)
open BalanceMovers (roleStakeMoveBalance)
open ByteCodec (hexEncode)

inductive NetworkRole where
  | validator
  | fullNode
  | lightClient
  | teeProvider
  | modelProvider
  | computeProvider
  | storageProvider
  | rpc
  | attestor
  | walletProvider
  | catalogPublisher
  | edge
  | archive
  | bootstrap
  | microNode
deriving DecidableEq, Repr

inductive AcceleratorClass where
  | integrated
  | consumer
  | workstation
  | datacentre
deriving DecidableEq, Repr

def AcceleratorClass.stakeMultiplierBps : AcceleratorClass → ℕ
  | integrated => 5000
  | consumer => 10000
  | workstation => 20000
  | datacentre => 50000

inductive StakeCapacity where
  | none
  | accelerators (classes : List AcceleratorClass)
  | terabytes (tb : ℕ)
  | domain (name : String)
  | bridgeSigner (address : Bytes) (rpcProvider : String) (proof pqPublicKey pqProof : Bytes)
deriving DecidableEq, Repr

/-- The bond amounts in force. -/
structure StakeLadder where
  validator : ℕ
  rpc : ℕ
  attestor : ℕ
  wallet : ℕ
  catalog : ℕ
  tee : ℕ
  model : ℕ
  computeFloor : ℕ
  computePerAccelerator : ℕ
  storageFloor : ℕ
  storagePerTb : ℕ
  edge : ℕ
deriving DecidableEq, Repr

def StakeLadder.map (l : StakeLadder) (f : ℕ → ℕ) : StakeLadder where
  validator := f l.validator
  rpc := f l.rpc
  attestor := f l.attestor
  wallet := f l.wallet
  catalog := f l.catalog
  tee := f l.tee
  model := f l.model
  computeFloor := f l.computeFloor
  computePerAccelerator := f l.computePerAccelerator
  storageFloor := f l.storageFloor
  storagePerTb := f l.storagePerTb
  edge := f l.edge

namespace NetworkRole

def isValidator (r : NetworkRole) : Bool := r = validator

def isProvider : NetworkRole → Bool
  | teeProvider | modelProvider | computeProvider | storageProvider | rpc => true
  | _ => false

def requiresBond (r : NetworkRole) : Bool :=
  r.isValidator || r.isProvider ||
    r ∈ [attestor, walletProvider, catalogPublisher, edge]

def asStr : NetworkRole → String
  | validator => "validator"
  | fullNode => "fullnode"
  | lightClient => "light"
  | teeProvider => "tee"
  | modelProvider => "ai"
  | computeProvider => "compute"
  | storageProvider => "storage"
  | edge => "edge"
  | archive => "archive"
  | bootstrap => "bootstrap"
  | microNode => "micro"
  | rpc => "rpc"
  | attestor => "attestor"
  | walletProvider => "wallet"
  | catalogPublisher => "catalog"

def requiredStake (r : NetworkRole) (capacity : StakeCapacity) (ladder : StakeLadder) : ℕ :=
  match r with
  | validator => ladder.validator
  | rpc => ladder.rpc
  | attestor => ladder.attestor
  | walletProvider => ladder.wallet
  | catalogPublisher => ladder.catalog
  | teeProvider => ladder.tee
  | modelProvider => ladder.model
  | computeProvider =>
    let pledged := match capacity with
      | .accelerators classes => (classes.map fun c =>
          saturatingMul 128 ladder.computePerAccelerator c.stakeMultiplierBps / 10000).foldl
            (saturatingAdd 128) 0
      | _ => 0
    max pledged ladder.computeFloor
  | storageProvider =>
    let pledged := match capacity with
      | .terabytes tb => saturatingMul 128 ladder.storagePerTb tb
      | _ => 0
    max pledged ladder.storageFloor
  | edge => ladder.edge
  | fullNode | lightClient | archive | bootstrap | microNode => 0

def statusKey : NetworkRole → Option String
  | teeProvider => some "roles.tee.status"
  | modelProvider => some "roles.ai.status"
  | computeProvider => some "roles.compute.status"
  | storageProvider => some "roles.storage.status"
  | rpc => some "roles.rpc.status"
  | attestor => some "roles.attestor.status"
  | walletProvider => some "roles.wallet.status"
  | catalogPublisher => some "roles.catalog.status"
  | edge => some "roles.edge.status"
  | _ => none

end NetworkRole

inductive LeverStatus where
  | enabled
  | paused
  | retired
deriving DecidableEq, Repr

def LeverStatus.asStr : LeverStatus → String
  | enabled => "enabled"
  | paused => "paused"
  | retired => "retired"

structure RoleStake where
  bonded : ℕ := 0
  capacity : StakeCapacity := .none
  unbonding : ℕ := 0
  releaseAtMs : ℤ := 0
  bondedAtMs : ℤ := 0
  endpoint : Option String := none
deriving DecidableEq, Repr

/-- Stake bonded for one role across every account: the stakers as hex, in the order they
bonded. -/
structure RoleStakeTotal where
  bonded : ℕ := 0
  stakers : List String := []
deriving DecidableEq, Repr

inductive StakeOp where
  | bond (role : NetworkRole) (amount : ℕ) (capacity : StakeCapacity)
  | unbond (role : NetworkRole) (amount : ℕ)
  | withdraw (role : NetworkRole)
  | endpoint (role : NetworkRole) (url : String)
deriving DecidableEq, Repr

def StakeOp.role : StakeOp → NetworkRole
  | bond role _ _ => role
  | unbond role _ => role
  | withdraw role => role
  | endpoint role _ => role

structure RoleLedger where
  balance : Bytes → ℕ
  stake : Bytes → NetworkRole → Option RoleStake
  total : NetworkRole → Option RoleStakeTotal

/-- The role-stake vault, a hash, and the signatures that prove a bridge signer's keys over the
bonding account. -/
class RoleVault extends AccountNames where
  vault : Bytes
  signed : Bytes → Bytes → Bytes → Bool
  pqSigned : Bytes → Bytes → Bytes → Bool

/-- What a call reads besides the ledger. -/
structure RoleView where
  nowMs : ℤ
  gasPrice : ℕ
  ladder : StakeLadder
  bondFloorRate : ℕ
  safetyRate : ℕ
  unbondingMs : ℕ
  lever : String → LeverStatus
  seated : Bytes → Bool
  checkRoleEndpoint : String → Except String Unit

def gasStake : ℕ := 50000

/-- The bond amounts a new or raised bond must meet: worth no less than at the floor rate. -/
def RoleView.entryStakeLadder (view : RoleView) : StakeLadder :=
  let rate := max view.safetyRate 1
  if view.bondFloorRate ≤ rate then view.ladder
  else
    view.ladder.map fun v =>
      let scaled := (v * view.bondFloorRate + (rate - 1)) / rate
      if scaled ≤ maxValue 128 then scaled else maxValue 128

def maxRpIdLen : ℕ := 253

def validRpId (rpId : String) : Bool :=
  rpId ≠ "" && rpId.utf8ByteSize ≤ maxRpIdLen && (rpId.splitOn ".").all fun l =>
    l ≠ "" && l.utf8ByteSize ≤ 63 && l.toList.all fun c => c.isLower || c.isDigit || c = '-'

def maxRpcProviderLen : ℕ := 128

def checkCapacity [RoleVault] (role : NetworkRole) (capacity : StakeCapacity) (account : Bytes) :
    Except VmError Unit :=
  match role, capacity with
  | .walletProvider, .domain d =>
    if validRpId d then .ok ()
    else refuse "a wallet provider bonds for the domain its passkeys are bound to: declare it as a lowercase DNS name"
  | .walletProvider, _ =>
    refuse "a wallet provider bonds for the domain its passkeys are bound to: declare it as a lowercase DNS name"
  | role, .domain _ => refuse s!"the {role.asStr} role declares no domain"
  | .attestor, .bridgeSigner address rpcProvider proof pqPublicKey pqProof => do
    let label := String.ofList (Rates.trim rpcProvider)
    ensure (¬(address = List.replicate 20 0 ∨ label = "" ∨
        maxRpcProviderLen < label.utf8ByteSize))
      (VmError.invalidTransaction "a bridge signer names a non-zero address and its RPC provider")
    ensure (proof.length = 65)
      (VmError.invalidTransaction "a bridge signer's proof is a 65-byte recoverable signature")
    ensure (RoleVault.signed address account proof) (VmError.invalidTransaction
      "the bridge signer's proof is not that key's signature over this account")
    ensure (RoleVault.pqSigned pqPublicKey account pqProof) (VmError.invalidTransaction
      "a bridge signer declares an ML-DSA-65 key and proves it with that key's signature over this account")
  | role, .bridgeSigner .. => refuse s!"the {role.asStr} role declares no bridge signer"
  | _, _ => .ok ()

namespace RoleLedger
variable (s : RoleLedger) (account : Bytes) (role : NetworkRole)

def stakeOf : RoleStake := (s.stake account role).getD {}

def totalOf : RoleStakeTotal := (s.total role).getD {}

def writeRoleStake (bondedBefore : ℕ) (stake : RoleStake) : RoleLedger :=
  let own := update (s.stake account) role (some stake)
  let s := { s with stake := update s.stake account own }
  if stake.bonded = bondedBefore then s
  else
    let total := s.totalOf role
    let bonded := saturatingAdd 128 (total.bonded - bondedBefore) stake.bonded
    let me := hexEncode account
    let stakers :=
      if bondedBefore = 0 ∧ stake.bonded ≠ 0 then total.stakers ++ [me]
      else if bondedBefore ≠ 0 ∧ stake.bonded = 0 then total.stakers.filter (· ≠ me)
      else total.stakers
    { s with total := update s.total role (some ⟨bonded, stakers⟩) }

section
variable [RoleVault]

def takeParts (fromBond fromUnbonding : ℕ) : Except VmError (RoleLedger × ℕ) := do
  let stake := s.stakeOf account role
  let total := fromBond + fromUnbonding
  if total = 0 then return (s, 0)
  let held := balanceOf s.balance RoleVault.vault
  let rest ← checkedSub held total (.insufficientBalance total held)
  let s := { s with balance := setBalance s.balance RoleVault.vault rest }
  return (s.writeRoleStake account role stake.bonded { stake with
    bonded := stake.bonded - fromBond
    unbonding := stake.unbonding - fromUnbonding }, total)

def takeRoleStake (bps : ℕ) : Except VmError (RoleLedger × ℕ) :=
  match s.stake account role with
  | none => .ok (s, 0)
  | some stake =>
    match slashSplit stake.bonded stake.unbonding bps with
    | none => .error (.internal "slashed role stake overflows")
    | some (fromBond, fromUnbonding, _) => s.takeParts account role fromBond fromUnbonding

def takeRoleStakeAmount (amount : ℕ) : Except VmError (RoleLedger × ℕ) :=
  match s.stake account role with
  | none => .ok (s, 0)
  | some stake =>
    let fromBond := min amount stake.bonded
    let fromUnbonding := min (amount - fromBond) stake.unbonding
    s.takeParts account role fromBond fromUnbonding

variable (view : RoleView) (sender : Bytes)

def bond (role : NetworkRole) (amount : ℕ) (capacity : StakeCapacity) :
    Except VmError (RoleLedger × RoleStake) := do
  let stake := s.stakeOf sender role
  ensure (amount ≠ 0) (VmError.invalidTransaction "a bond adds a positive amount")
  match role.statusKey with
  | some key =>
    ensure (view.lever key = .enabled) (VmError.invalidTransaction
      s!"bonding for the {role.asStr} role is {(view.lever key).asStr} by governance ({key})")
  | none => pure ()
  checkCapacity role capacity sender
  ensure (¬(role = .walletProvider ∧ (0 < stake.bonded ∨ 0 < stake.unbonding) ∧
      stake.capacity ≠ capacity)) (VmError.invalidTransaction
    "a wallet provider's domain changes only once its stake is fully withdrawn")
  ensure (¬(role = .attestor ∧ stake.capacity ≠ capacity ∧ view.seated sender))
    (VmError.invalidTransaction
      "a seated bridge committee member keeps its bridge signer until its term ends")
  let bonded ← checkedAdd stake.bonded amount (.invalidTransaction "the bond overflows")
  let required := role.requiredStake capacity view.entryStakeLadder
  ensure (required ≤ bonded) (VmError.invalidTransaction
    s!"the {role.asStr} role requires {required} bonded for that capacity; the bond would be {bonded}")
  let balance ← roleStakeMoveBalance s.balance sender RoleVault.vault amount
  return ({ s with balance }, { stake with bonded, capacity, bondedAtMs := view.nowMs })

def unbond (role : NetworkRole) (amount : ℕ) : Except VmError (RoleLedger × RoleStake) := do
  let stake := s.stakeOf sender role
  ensure (¬(role = .attestor ∧ view.seated sender)) (VmError.invalidTransaction
    "a seated bridge committee member stays bonded until its term ends")
  ensure (¬(amount = 0 ∨ stake.bonded < amount)) (VmError.invalidTransaction
    s!"unbond 1 to {stake.bonded} of the {role.asStr} bond")
  let remaining := stake.bonded - amount
  ensure (¬(0 < remaining ∧ remaining < role.requiredStake stake.capacity view.ladder))
    (VmError.invalidTransaction
      s!"what stays bonded for {role.asStr} must be zero or meet its required stake")
  let period : ℤ := if view.unbondingMs < 2 ^ 63 then view.unbondingMs else 2 ^ 63 - 1
  return (s, { stake with
    bonded := remaining
    unbonding := saturatingAdd 128 stake.unbonding amount
    releaseAtMs := clampSigned (view.nowMs + period) })

def withdraw (role : NetworkRole) : Except VmError (RoleLedger × RoleStake) := do
  let stake := s.stakeOf sender role
  ensure (stake.unbonding ≠ 0)
    (VmError.invalidTransaction s!"nothing of the {role.asStr} stake is unbonding")
  ensure (stake.releaseAtMs ≤ view.nowMs)
    (VmError.invalidTransaction s!"the {role.asStr} stake unbonds until {stake.releaseAtMs} ms")
  let balance ← roleStakeMoveBalance s.balance RoleVault.vault sender stake.unbonding
  return ({ s with balance }, { stake with unbonding := 0, releaseAtMs := 0 })

def endpoint (role : NetworkRole) (url : String) : Except VmError (RoleLedger × RoleStake) := do
  let stake := s.stakeOf sender role
  if url = "" then return (s, { stake with endpoint := none })
  ensure (stake.bonded ≠ 0)
    (VmError.invalidTransaction s!"publish a {role.asStr} endpoint after bonding the role")
  match view.checkRoleEndpoint url with
  | .error e => refuse e
  | .ok _ => return (s, { stake with endpoint := some url })

def RoleView.cost (view : RoleView) : ℕ := saturatingMul 128 view.gasPrice gasStake

/-- The gas leaves the sender's balance. -/
def charge : Except VmError RoleLedger := do
  let cost := RoleView.cost view
  let balance := balanceOf s.balance sender
  ensure (cost ≤ balance) (VmError.insufficientBalance cost balance)
  return { s with balance := setBalance s.balance sender (balance - cost) }

def stakeAfter (op : StakeOp) : Except VmError (RoleLedger × RoleStake) :=
  match op with
  | .bond role amount capacity => s.bond view sender role amount capacity
  | .unbond role amount => s.unbond view sender role amount
  | .withdraw role => s.withdraw view sender role
  | .endpoint role url => s.endpoint view sender role url

def executeStake (op : StakeOp) : Except VmError RoleLedger := do
  ensure (op.role.isValidator = false)
    (VmError.invalidTransaction "the validator role is bonded by RegisterValidator")
  ensure (op.role.requiresBond)
    (VmError.invalidTransaction s!"the {op.role.asStr} role takes no bond")
  let s ← s.charge view sender
  let bondedBefore := (s.stakeOf sender op.role).bonded
  let (s, stake) ← s.stakeAfter view sender op
  return s.writeRoleStake sender op.role bondedBefore stake

end

end RoleLedger

/-! ### Genesis -/

/-- A role bond of the genesis configuration. -/
structure GenesisRoleBond where
  account : Bytes
  role : NetworkRole
  amount : ℕ
  capacity : StakeCapacity
  endpoint : Option String

section
variable [RoleVault]

def genesisRoleBond (ladder : StakeLadder) (check : String → Except String Unit)
    (b : GenesisRoleBond) (x : RoleLedger × ℕ) : Except VmError (RoleLedger × ℕ) := do
  let role := b.role
  ensure (role.isValidator = false)
    (VmError.invalidTransaction "the validator role is bonded by the genesis validators")
  ensure (role.requiresBond) (VmError.invalidTransaction s!"the {role.asStr} role takes no bond")
  checkCapacity role b.capacity b.account
  ensure (x.1.stake b.account role = none)
    (VmError.invalidTransaction s!"0x{hexEncode b.account} bonds the {role.asStr} role twice")
  let required := role.requiredStake b.capacity ladder
  ensure (¬(b.amount = 0 ∨ b.amount < required)) (VmError.invalidTransaction
    s!"the {role.asStr} role requires {required} bonded for that capacity; the genesis bond is {b.amount}")
  match b.endpoint with
  | some url =>
    match check url with
    | .error e => refuse s!"the {role.asStr} endpoint: {e}"
    | .ok _ => pure ()
  | none => pure ()
  let stake : RoleStake := { bonded := b.amount, capacity := b.capacity, endpoint := b.endpoint }
  let s := x.1.writeRoleStake b.account role 0 stake
  let total ← checkedAdd x.2 b.amount (.invalidTransaction "the genesis role bonds overflow")
  return (s, total)

def genesisRoleBonds (ladder : StakeLadder) (check : String → Except String Unit) :
    List GenesisRoleBond → RoleLedger × ℕ → Except VmError (RoleLedger × ℕ)
  | [], x => .ok x
  | b :: rest, x => do
    let x ← genesisRoleBond ladder check b x
    genesisRoleBonds ladder check rest x

def genesis (ladder : StakeLadder) (check : String → Except String Unit) (balance : Bytes → ℕ)
    (bonds : List GenesisRoleBond) : Except VmError RoleLedger := do
  let (s, bonded) ← genesisRoleBonds ladder check bonds (⟨balance, fun _ _ => none, fun _ => none⟩, 0)
  if bonded = 0 then return s
  return { s with balance := setBalance s.balance RoleVault.vault bonded }

end

end Tenzro.RoleStakes
