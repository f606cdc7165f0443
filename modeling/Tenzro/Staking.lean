import Tenzro.ByteCodec
import Tenzro.FixedWidth
import Tenzro.Outcome

set_option autoImplicit false
set_option linter.dupNamespace false

/-!
# The staking ledger

A validator's bond is held by the staking vault and recorded per address, with one total for
each kind of record. A function that refuses leaves no state: its transaction is undone.
-/
namespace Tenzro.Staking
open FixedWidth Outcome Function
open ByteCodec (hexEncode)

/-- How an address names a balance, and the accounts the vault pays besides validators. -/
class StakeAccounts where
  account : Bytes → Bytes
  treasury : Bytes
  pool : Bytes

def vaultAddress : Bytes := List.replicate 20 0xfe

inductive VmError where
  | invalidTransaction (msg : String)
  | insufficientBalance (required available : ℕ)
  | internal (msg : String)
deriving DecidableEq, Repr

def refuse {α : Type} (msg : String) : Except VmError α := .error (.invalidTransaction msg)

/-- A bond on its way out. -/
structure Unbonding where
  amount : ℕ
  releaseAtMs : ℤ
deriving DecidableEq, Repr

/-- One bond increase: when, and the bond just before it. -/
structure BondIncrease where
  atMs : ℤ
  before : ℕ
deriving DecidableEq, Repr

/-- An equivocation inside the correlation window, as it was slashed. -/
structure WindowOffence where
  index : ℕ
  addr : Bytes
  bonded : ℕ
  atStake : ℕ
  appliedBps : ℕ
  taken : ℕ
  takenBonded : ℕ
deriving DecidableEq, Repr

/-- Balances by account; stake records by address. -/
structure StakeLedger where
  balance : Bytes → ℕ
  bond : Bytes → ℕ
  unbonding : Bytes → Option Unbonding
  sponsored : Bytes → ℕ
  sponsoredUnbonding : Bytes → ℕ
  totalBonded : ℕ
  totalUnbonding : ℕ
  totalSponsored : ℕ
  totalSponsoredUnbonding : ℕ
  increases : Bytes → List BondIncrease
  offended : Bytes → Bool
  window : List WindowOffence
  /-- The insurance pool's tally of slash revenue. -/
  fromSlashes : ℕ

/-- What a call reads besides the ledger. -/
structure StakeView where
  nowMs : ℤ
  frozen : Option (ℕ × ℕ)
  unbondingMs : ℕ
  correlationWindow : ℕ
  minSlashBps : ℕ
  correlationMultiplier : ℕ

def clampSigned (x : ℤ) : ℤ := max (-2 ^ 63) (min x (2 ^ 63 - 1))

def longestVotingPeriodMs : ℤ := max (30 * 24 * 60 * 60 * 1000) (3 * 24 * 60 * 60 * 1000)

def maxMinBondAgeMs : ℤ := 90 * 24 * 60 * 60 * 1000

def checkedAdd (a b : ℕ) (e : VmError) : Except VmError ℕ :=
  if a + b ≤ maxValue 128 then .ok (a + b) else .error e

def checkedSub (a b : ℕ) (e : VmError) : Except VmError ℕ :=
  if b ≤ a then .ok (a - b) else .error e

/-- What an addition past its width stops with. -/
def addOverflow : VmError := .internal "attempt to add with overflow"

/-- A 64-bit counter one higher. -/
def bump (n : ℕ) : Except VmError ℕ := if n < maxValue 64 then .ok (n + 1) else .error addOverflow

def requireUnfrozen (view : StakeView) : Except VmError Unit :=
  match view.frozen with
  | none => .ok ()
  | some (held, owed) =>
    refuse s!"staking is frozen: its vault held {held} against {owed} owed; governance must lift the freeze"

def StakeView.release (view : StakeView) : ℤ :=
  clampSigned (view.nowMs + wrapSigned 64 view.unbondingMs)

namespace StakeLedger
variable (s : StakeLedger) (addr : Bytes)

def unbondingAmount : ℕ := (s.unbonding addr).elim 0 Unbonding.amount

def writeUnbonding (u : Option Unbonding) : StakeLedger :=
  { s with unbonding := update s.unbonding addr (u.filter fun u => 0 < u.amount) }

def vaultLiabilities : ℕ := saturatingAdd 128 s.totalBonded s.totalUnbonding

def setSponsored (bonded : ℕ) : StakeLedger :=
  { s with
    sponsored := update s.sponsored addr bonded
    totalSponsored := saturatingAdd 128 (s.totalSponsored - s.sponsored addr) bonded }

def setSponsoredUnbonding (unbonding : ℕ) : StakeLedger :=
  { s with
    sponsoredUnbonding := update s.sponsoredUnbonding addr unbonding
    totalSponsoredUnbonding :=
      saturatingAdd 128 (s.totalSponsoredUnbonding - s.sponsoredUnbonding addr) unbonding }

end StakeLedger

def scale (part remaining whole : ℕ) : ℕ :=
  if whole = 0 then 0
  else
    let share := part * remaining / whole
    min (if share ≤ maxValue 128 then share else remaining) remaining

namespace StakeLedger
section Balances
variable [StakeAccounts] (s : StakeLedger)

def balanceOf (addr : Bytes) : ℕ := s.balance (StakeAccounts.account addr)

def setBalance (addr : Bytes) (v : ℕ) : StakeLedger :=
  { s with balance := update s.balance (StakeAccounts.account addr) v }

/-- The move into the vault that comes before a bond is recorded. -/
def deposit (source : Bytes) (amount : ℕ) : Except VmError StakeLedger := do
  let left ← checkedSub (s.balanceOf source) amount
    (.insufficientBalance amount (s.balanceOf source))
  let s := s.setBalance source left
  let vault ← checkedAdd (s.balanceOf vaultAddress) amount (.internal "staking vault overflow")
  return s.setBalance vaultAddress vault

def payFromVault (recipient : Bytes) (amount : ℕ) : Except VmError StakeLedger :=
  if amount = 0 then .ok s
  else do
    let vault := s.balanceOf vaultAddress
    let newVault ← checkedSub vault amount (.insufficientBalance amount vault)
    let s := s.setBalance vaultAddress newVault
    let after ← checkedAdd (s.balanceOf recipient) amount (.internal "stake refund overflow")
    return s.setBalance recipient after

def creditPool (taken : ℕ) : Except VmError StakeLedger :=
  if taken = 0 then .ok s
  else do
    let after ← checkedAdd (s.balanceOf StakeAccounts.pool) taken
      (.internal "insurance pool balance overflow")
    let s := s.setBalance StakeAccounts.pool after
    return { s with fromSlashes := saturatingAdd 128 s.fromSlashes taken }

end Balances

/-! ### Bonding and leaving -/

section
variable (s : StakeLedger) (view : StakeView) (addr : Bytes)

def addBond (amount : ℕ) : Except VmError StakeLedger := do
  requireUnfrozen view
  let before := s.bond addr
  let bond ← checkedAdd before amount (.internal "bond overflow")
  let total ← checkedAdd s.totalBonded amount (.internal "total bond overflow")
  let horizon := clampSigned (clampSigned (view.nowMs - longestVotingPeriodMs) - maxMinBondAgeMs)
  let kept := (s.increases addr).filter fun i => horizon ≤ i.atMs
  return { s with
    bond := update s.bond addr bond
    totalBonded := total
    increases := update s.increases addr (kept ++ [⟨view.nowMs, before⟩]) }

def addSponsoredBond (amount : ℕ) : Except VmError StakeLedger := do
  let s ← s.addBond view addr amount
  let sponsored ← checkedAdd (s.sponsored addr) amount (.internal "sponsored bond overflow")
  return s.setSponsored addr sponsored

def recallSponsoredBond (amount : ℕ) : Except VmError (StakeLedger × Unbonding) := do
  requireUnfrozen view
  let sponsored := s.sponsored addr
  ensure (¬ (amount = 0 ∨ sponsored < amount)) (VmError.invalidTransaction
    s!"{hexEncode addr} has {sponsored} sponsored bond; {amount} cannot be recalled")
  let bond := s.bond addr
  let prior := s.unbonding addr
  let sum ← checkedAdd (prior.elim 0 Unbonding.amount) amount (.internal "unbonding overflow")
  let unbonding : Unbonding :=
    ⟨sum, prior.elim view.release fun u => max u.releaseAtMs view.release⟩
  let rest ← checkedSub bond amount (.internal "sponsored bond exceeds the bond")
  let s := { s with
    bond := update s.bond addr rest
    totalBonded := s.totalBonded - amount
    totalUnbonding := saturatingAdd 128 s.totalUnbonding amount }
  let s := s.writeUnbonding addr (some unbonding)
  let s := s.setSponsored addr (sponsored - amount)
  let lien := saturatingAdd 128 (s.sponsoredUnbonding addr) amount
  return (s.setSponsoredUnbonding addr lien, unbonding)

def beginUnbonding : Except VmError (StakeLedger × Option Unbonding) := do
  requireUnfrozen view
  let bond := s.bond addr
  if bond = 0 then return (s, none)
  let sum ← checkedAdd (s.unbondingAmount addr) bond (.internal "unbonding overflow")
  let unbonding : Unbonding := ⟨sum, view.release⟩
  let s := { s with
    bond := update s.bond addr 0
    totalBonded := s.totalBonded - bond
    totalUnbonding := saturatingAdd 128 s.totalUnbonding bond }
  let s := s.writeUnbonding addr (some unbonding)
  let sponsored := s.sponsored addr
  if 0 < sponsored then
    let s := s.setSponsored addr 0
    let lien := saturatingAdd 128 (s.sponsoredUnbonding addr) sponsored
    return (s.setSponsoredUnbonding addr lien, some unbonding)
  return (s, some unbonding)

variable [StakeAccounts]

/-- The matured sponsored part of an unbonding returns to the treasury. -/
def releaseRecalled : Except VmError (StakeLedger × ℕ) := do
  requireUnfrozen view
  let lien := s.sponsoredUnbonding addr
  match (s.unbonding addr).filter (fun _ => 0 < lien) with
  | none => refuse s!"{hexEncode addr} has no sponsored stake unbonding"
  | some unbonding =>
    ensure (unbonding.releaseAtMs ≤ view.nowMs) (VmError.invalidTransaction
      s!"sponsored stake is unbonding until {unbonding.releaseAtMs} ms, block time is {view.nowMs} ms")
    let returned := min lien unbonding.amount
    let s ← s.payFromVault StakeAccounts.treasury returned
    let s := { s with totalUnbonding := s.totalUnbonding - returned }
    let s := s.writeUnbonding addr (some ⟨unbonding.amount - returned, unbonding.releaseAtMs⟩)
    return (s.setSponsoredUnbonding addr 0, returned)

def withdrawUnbondedSplit (payee : Bytes) : Except VmError (StakeLedger × ℕ × ℕ) := do
  requireUnfrozen view
  match s.unbonding addr with
  | none => refuse "no bond and nothing unbonding"
  | some unbonding =>
    ensure (unbonding.releaseAtMs ≤ view.nowMs) (VmError.invalidTransaction
      s!"bond is unbonding until {unbonding.releaseAtMs} ms, block time is {view.nowMs} ms")
    let vault := s.balanceOf vaultAddress
    ensure (unbonding.amount ≤ vault) (VmError.insufficientBalance unbonding.amount vault)
    let returned := min (s.sponsoredUnbonding addr) unbonding.amount
    let paid := unbonding.amount - returned
    let s ← s.payFromVault StakeAccounts.treasury returned
    let s ← s.payFromVault payee paid
    let s := { s with totalUnbonding := s.totalUnbonding - unbonding.amount }
    let s := s.writeUnbonding addr none
    return (s.setSponsoredUnbonding addr 0, paid, returned)

end

end StakeLedger

/-! ### Slashing -/

def shareOfLots (lots bps : ℕ) : ℕ := lots * bps

def shareOfRest (rest bps : ℕ) : ℕ := rest * bps / 10000

def bpsShare (amount bps : ℕ) : ℕ :=
  let bps := min bps 10000
  shareOfLots (amount / 10000) bps + shareOfRest (amount % 10000) bps

def slashSplit (bond unbonding bps : ℕ) : Option (ℕ × ℕ × ℕ) :=
  let fromBond := bpsShare bond bps
  let fromUnbonding := bpsShare unbonding bps
  if fromBond + fromUnbonding ≤ maxValue 128 then
    some (fromBond, fromUnbonding, fromBond + fromUnbonding)
  else none

/-- The rate when offenders holding `correlatedBonded` of `totalBonded` equivocated together. -/
def correlatedSlashBps (correlatedBonded totalBonded floorBps multiplier : ℕ) : ℕ :=
  if totalBonded = 0 then 10000
  else
    let scaled := min (saturatingMul 128 correlatedBonded multiplier) totalBonded
    let bps := if scaled * 10000 ≤ maxValue 128 then scaled * 10000 / totalBonded
      else scaled / (totalBonded / 10000)
    min (max bps floorBps) 10000

/-- The window after the evidence against `addr` at checkpoint `index`: its own offence is
dated anew, or entered with what it has at stake. -/
def noteOffence (addr : Bytes) (index bonded unbonding : ℕ) :
    List WindowOffence → List WindowOffence
  | [] => [⟨index, addr, bonded, saturatingAdd 128 bonded unbonding, 0, 0, 0⟩]
  | o :: rest =>
    if o.addr = addr then { o with index := max o.index index } :: rest
    else o :: noteOffence addr index bonded unbonding rest

namespace StakeLedger
section
variable (s : StakeLedger) (addr : Bytes)

/-- A slash takes the sponsored part of a stake in proportion, exactly as it takes the rest. -/
def scaleSponsored (bond fromBond : ℕ) : StakeLedger :=
  let sponsored := s.sponsored addr
  if 0 < fromBond ∧ 0 < sponsored then
    s.setSponsored addr (scale sponsored (bond - fromBond) bond)
  else s

def scaleSponsoredUnbonding (unbonding : Option Unbonding) (fromUnbonding : ℕ) : StakeLedger :=
  match unbonding with
  | some u =>
    let lien := s.sponsoredUnbonding addr
    if 0 < fromUnbonding ∧ 0 < lien then
      s.setSponsoredUnbonding addr (scale lien (u.amount - fromUnbonding) u.amount)
    else s
  | none => s

def lowerBond (bond fromBond : ℕ) : StakeLedger :=
  if 0 < fromBond then
    { s with
      bond := update s.bond addr (bond - fromBond)
      totalBonded := s.totalBonded - fromBond }
  else s

def lowerUnbonding (unbonding : Option Unbonding) (fromUnbonding : ℕ) : StakeLedger :=
  match unbonding with
  | some u =>
    if 0 < fromUnbonding then
      { s.writeUnbonding addr (some ⟨u.amount - fromUnbonding, u.releaseAtMs⟩) with
        totalUnbonding := s.totalUnbonding - fromUnbonding }
    else s
  | none => s

end

variable [StakeAccounts] (s : StakeLedger) (addr : Bytes)

def remove (bond : ℕ) (unbonding : Option Unbonding) (fromBond fromUnbonding : ℕ) :
    Except VmError StakeLedger :=
  let total := fromBond + fromUnbonding
  if total = 0 then .ok s
  else do
    let vault := s.balanceOf vaultAddress
    let newVault ← checkedSub vault total (.insufficientBalance total vault)
    let s := s.setBalance vaultAddress newVault
    let s := s.scaleSponsored addr bond fromBond
    let s := s.scaleSponsoredUnbonding addr unbonding fromUnbonding
    let s := s.lowerBond addr bond fromBond
    return s.lowerUnbonding addr unbonding fromUnbonding

def slash (bps : ℕ) : Except VmError (StakeLedger × ℕ) := do
  let bond := s.bond addr
  let unbonding := s.unbonding addr
  match slashSplit bond (unbonding.elim 0 Unbonding.amount) bps with
  | none => .error (.internal "slashed stake overflows")
  | some (fromBond, fromUnbonding, total) =>
    if total = 0 then return (s, 0)
    let s ← s.remove addr bond unbonding fromBond fromUnbonding
    return (s, total)

def take (amount : ℕ) : Except VmError (StakeLedger × ℕ × ℕ) := do
  let bond := s.bond addr
  let unbonding := s.unbonding addr
  let fromBond := min amount bond
  let fromUnbonding := min (amount - fromBond) (unbonding.elim 0 Unbonding.amount)
  let s ← s.remove addr bond unbonding fromBond fromUnbonding
  return (s, fromBond, fromUnbonding)

def slashToInsurance (bps : ℕ) : Except VmError (StakeLedger × ℕ) := do
  let (s, taken) ← s.slash addr bps
  let s ← s.creditPool taken
  return (s, taken)

/-- The pass over the window that takes what each offender owes at its rate, given what was
taken before. -/
def topUp (s : StakeLedger) (rate : WindowOffence → ℕ) (takenTotal : ℕ) :
    List WindowOffence → Except VmError (StakeLedger × List WindowOffence × ℕ)
  | [] => .ok (s, [], takenTotal)
  | o :: rest =>
    if rate o ≤ o.appliedBps then do
      let (s, rest, takenTotal) ← topUp s rate takenTotal rest
      return (s, o :: rest, takenTotal)
    else do
      let owed := bpsShare o.atStake (rate o) - o.taken
      let (s, fromBond, fromUnbonding) ← s.take o.addr owed
      let o := { o with
        appliedBps := rate o
        taken := saturatingAdd 128 o.taken (saturatingAdd 128 fromBond fromUnbonding)
        takenBonded := o.takenBonded + fromBond }
      let (s, rest, takenTotal) ← topUp s rate
        (saturatingAdd 128 takenTotal (saturatingAdd 128 fromBond fromUnbonding)) rest
      return (s, o :: rest, takenTotal)

/-- Slashes `addr` for signing two different checkpoints of one index. Every offender in the window
pays the window's rate, earlier ones topped up to it. -/
def slashForEquivocation (view : StakeView) (index : ℕ) : Except VmError (StakeLedger × ℕ) := do
  let floorBps := min view.minSlashBps 10000
  let multiplier := min view.correlationMultiplier 100
  let window := s.window.filter fun o => Nat.dist o.index index ≤ view.correlationWindow
  let again := s.offended addr
  let s := { s with offended := update s.offended addr true }
  let window := noteOffence addr index (s.bond addr) (s.unbondingAmount addr) window
  let correlated := window.foldl (fun t o => saturatingAdd 128 t o.atStake) 0
  let bondedBefore := window.foldl (fun t o =>
    saturatingAdd 128 t (saturatingAdd 128 o.takenBonded (o.atStake - o.bonded))) s.totalBonded
  let windowRate := correlatedSlashBps correlated bondedBefore floorBps multiplier
  let ownFloor := if again then floorBps * multiplier else floorBps
  let rate := fun o : WindowOffence =>
    if o.addr = addr then max windowRate (min ownFloor 10000) else windowRate
  let (s, window, takenTotal) ← s.topUp rate 0 window
  let s ← { s with window }.creditPool takenTotal
  return (s, takenTotal)

end StakeLedger

end Tenzro.Staking
