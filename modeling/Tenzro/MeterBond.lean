import Tenzro.BalanceMovers
import Tenzro.RateQuotes
import Tenzro.TokenLedger

set_option autoImplicit false
set_option linter.dupNamespace false

/-!
# Bonds behind usage meters

For a governed window after a record is measured its payer may prove that the
meter lied, and is repaid from the bond what it settled above what the meter
could charge.
-/
namespace Tenzro.Metering
open ByteCodec FixedWidth Outcome NativeBalance Function
open Staking (VmError refuse checkedAdd clampSigned)
open BalanceMovers (roleStakeMoveBalance)

/-! ### Records -/

structure UsageLine where
  unit : String
  quantity : ℕ
  unitPrice : ℕ
deriving DecidableEq, Repr

structure UsageRecord where
  challengeId : String
  payer : String
  ceiling : ℕ
  lines : List UsageLine
  measuredAtMs : ℤ
  commitments : List (String × String)
  meterKey : String
  signature : Bytes
deriving DecidableEq, Repr

/-- What the meter key signs. -/
structure UsagePreimage where
  challengeId : String
  payer : String
  ceiling : ℕ
  lines : List UsageLine
  measuredAtMs : ℤ
  meterKey : String
  commitments : List (String × String)
deriving DecidableEq, Repr

def maxCommitments : ℕ := 8

def isLowerHex (c : Char) : Bool := c.isDigit ∨ ('a' ≤ c ∧ c ≤ 'f')

def commitmentsWellFormed (commitments : List (String × String)) : Bool :=
  commitments.length ≤ maxCommitments ∧ commitments.all fun (l, v) =>
    0 < l.utf8ByteSize ∧ l.utf8ByteSize ≤ 24 ∧
      (l.toList.all fun c => c.isLower ∨ c.isDigit ∨ c = '_') ∧
        v.utf8ByteSize = 64 ∧ v.toList.all isLowerHex

/-- A `u128`, if it is one. -/
def checked (n : ℕ) : Option ℕ := if n ≤ maxValue 128 then some n else none

namespace UsageRecord
variable (r : UsageRecord)

/-- The charge the lines add up to; none when it overflows. -/
def charge : Option ℕ :=
  r.lines.foldlM (fun acc l => do checked (acc + (← checked (l.quantity * l.unitPrice)))) 0

def preimage : UsagePreimage :=
  ⟨r.challengeId, r.payer, r.ceiling, r.lines, r.measuredAtMs, r.meterKey, r.commitments⟩

def meterPublicKey : Option Bytes :=
  (Rates.hexDecode (Rates.stripHexPrefix r.meterKey.toList)).filter fun k => k.length = 64

end UsageRecord

inductive MeterDispute where
  | equivocation (first second : UsageRecord)
  | overCeiling (record : UsageRecord)
  | overSettled (record : UsageRecord)
deriving DecidableEq, Repr

def MeterDispute.record : MeterDispute → UsageRecord
  | equivocation first _ => first
  | overCeiling record => record
  | overSettled record => record

/-! ### The ledger -/

structure MeterBond where
  owner : Bytes
  amount : ℕ
  withdrawalRequestedAtMs : Option ℤ
deriving DecidableEq, Repr

/-- One leg of a settled payment: who it paid, and how much. -/
structure ReceiptLeg where
  role : String
  account : String
  amount : ℕ
deriving DecidableEq, Repr

/-- A payment settled on this ledger. -/
structure PaymentRecord where
  payer : String
  payee : Bytes
  asset : String
  amount : ℕ
  legs : List ReceiptLeg
  refunded : ℕ
deriving DecidableEq, Repr

/-- Bonds by meter, upheld penalties by meter and challenge, payments by id. -/
structure MeterLedger where
  balance : Bytes → ℕ
  bonds : Bytes → Option MeterBond
  disputes : Bytes → String → Option ℕ
  payments : String → Option PaymentRecord
  fromSlashes : ℕ

/-- A meter's id under its key, its bond's vault and the insurance pool. The vaults are hashes of
the meter ids. -/
class MeterVaults extends AccountNames where
  accountSlot : Bytes → Bytes
  bondVault : Bytes → Bytes
  pool : Bytes
  apart : ∀ m m', account (bondVault m) = account (bondVault m') → m = m'
  poolApart : ∀ m, account pool ≠ account (bondVault m)

/-- What an operation reads besides the ledger. -/
structure MeterView where
  nowMs : ℤ
  gasPrice : ℕ
  disputeWindowMs : ℕ
  penaltyMultiple : ℕ
  verifyConsent : Bytes → Bytes → Bytes → Except VmError Unit
  verifySignature : Bytes → UsageRecord → Except VmError Unit
  moveToken : String → Except VmError Unit

structure Upheld where
  meter : Bytes
  challenge : String
  kind : String
  payer : Bytes
  owner : Bytes
  penalty : ℕ
  repaid : ℕ
  legitimate : ℕ
deriving DecidableEq, Repr

/-- What an operation logs. -/
inductive MeterEvent where
  | posted (meter owner : Bytes) (amount : ℕ)
  | unbonding (meter : Bytes) (payout : ℤ)
  | withdrawn (meter owner : Bytes) (amount : ℕ) (asked window now : ℤ)
  | upheld (u : Upheld)
deriving DecidableEq, Repr

def gasMeterBondPost : ℕ := 60000

def gasMeterBondWithdraw : ℕ := 40000

def gasMeterDispute : ℕ := 90000

def MeterView.window (view : MeterView) : ℤ :=
  if view.disputeWindowMs < 2 ^ 63 then view.disputeWindowMs else 2 ^ 63 - 1

def coveredUntil (asked window : ℤ) : ℤ := clampSigned (asked + window)

def payoutAt (asked window : ℤ) : ℤ := clampSigned (coveredUntil asked window + window)

def from32 (sender : Bytes) : Except VmError Bytes :=
  if sender.length = 32 then .ok sender
  else refuse s!"sender is {sender.length} bytes; a Tenzro account is 32"

/-- What a dispute's evidence proves. -/
structure Proven where
  kind : String
  ceiling : ℕ
  latestMeasured : ℤ
  legitimate : ℕ
deriving DecidableEq, Repr

section
variable [MeterVaults] (view : MeterView)

def verifyRecord (record : UsageRecord) : Except VmError Bytes :=
  match record.meterPublicKey with
  | none => refuse "the record's meter key is not a 64-byte P-256 key in hex"
  | some key => do
    ensure (commitmentsWellFormed record.commitments) (VmError.invalidTransaction
      "the record's commitments are not at most 8 labelled 32-byte hex values")
    view.verifySignature key record
    return MeterVaults.accountSlot key

def MeterDispute.proves (meterId : Bytes) : MeterDispute → Except VmError Proven
  | .equivocation first second => do
    let otherKey ← verifyRecord view second
    ensure (otherKey = meterId)
      (VmError.invalidTransaction "the two records are signed by different meters")
    ensure (first.challengeId = second.challengeId)
      (VmError.invalidTransaction "the two records meter different challenges")
    ensure (first.preimage ≠ second.preimage)
      (VmError.invalidTransaction "the two records are the same record")
    let lower (r : UsageRecord) := min (r.charge.getD (maxValue 128)) r.ceiling
    return ⟨"equivocation", max first.ceiling second.ceiling,
      max first.measuredAtMs second.measuredAtMs, min (lower first) (lower second)⟩
  | .overCeiling record => do
    ensure (¬ record.charge.any (· ≤ record.ceiling))
      (VmError.invalidTransaction "the record charges within its ceiling")
    return ⟨"over_ceiling", record.ceiling, record.measuredAtMs, record.ceiling⟩
  | .overSettled record =>
    match record.charge with
    | none => refuse "the record's charge overflows; dispute it as over-ceiling"
    | some charge =>
      return ⟨"over_settled", record.ceiling, record.measuredAtMs, min charge record.ceiling⟩

namespace MeterLedger
variable (s : MeterLedger)

def verifiedLoss (challengeId : String) (payer owner : Bytes) (legitimate : ℕ) : ℕ :=
  match s.payments challengeId with
  | none => 0
  | some payment =>
    if payment.asset ≠ "TNZO" ∨ payment.payee ≠ owner ∨
        ¬ Token.eqIgnoreAsciiCase payment.payer (hexEncode payer) then 0
    else payment.amount - payment.refunded - legitimate

def chargeGas (sender : Bytes) (gas : ℕ) : Except VmError MeterLedger := do
  let cost := saturatingMul 128 view.gasPrice gas
  let held := balanceOf s.balance sender
  ensure (cost ≤ held) (VmError.insufficientBalance cost held)
  return { s with balance := setBalance s.balance sender (held - cost) }

def moveValue (source dest : Bytes) (amount : ℕ) : Except VmError MeterLedger := do
  let balance ← roleStakeMoveBalance s.balance source dest amount
  return { s with balance }

def writeBond (bond : Option MeterBond) (meterId : Bytes) : MeterLedger :=
  { s with bonds := update s.bonds meterId bond }

def bondToPost (meterId owner : Bytes) : Except VmError MeterBond :=
  match s.bonds meterId with
  | none => .ok ⟨owner, 0, none⟩
  | some b => do
    ensure (b.owner = owner)
      (VmError.invalidTransaction "this meter's bond belongs to another account")
    ensure (b.withdrawalRequestedAtMs = none)
      (VmError.invalidTransaction "this meter's bond is being withdrawn")
    return b

def meterBondPost (sender meterPublicKey : Bytes) (amount : ℕ) (consent : Bytes) :
    Except VmError (MeterLedger × MeterEvent) := do
  ensure (amount ≠ 0) (VmError.invalidTransaction "a meter bond must hold something")
  let owner ← from32 sender
  let meterId := MeterVaults.accountSlot meterPublicKey
  view.verifyConsent meterPublicKey owner consent
  let bond ← s.bondToPost meterId owner
  let total ← checkedAdd bond.amount amount (.internal "meter bond overflow")
  let s ← s.chargeGas view sender gasMeterBondPost
  let s ← s.moveValue sender (MeterVaults.bondVault meterId) amount
  return (s.writeBond (some { bond with amount := total }) meterId, .posted meterId owner amount)

/-- The owner's first call starts the window; one after it has passed pays the bond back. -/
def meterBondWithdraw (sender meterId : Bytes) : Except VmError (MeterLedger × MeterEvent) := do
  let owner ← from32 sender
  match s.bonds meterId with
  | none => refuse "no bond stands behind this meter"
  | some bond => do
    ensure (bond.owner = owner)
      (VmError.invalidTransaction "only the bond's owner may withdraw it")
    let s ← s.chargeGas view sender gasMeterBondWithdraw
    match bond.withdrawalRequestedAtMs with
    | none =>
      return (s.writeBond (some { bond with withdrawalRequestedAtMs := some view.nowMs }) meterId,
        .unbonding meterId (payoutAt view.nowMs view.window))
    | some asked => do
      ensure (payoutAt asked view.window ≤ view.nowMs) (VmError.invalidTransaction
        s!"the bond stays disputable until {payoutAt asked view.window}")
      let s ← s.moveValue (MeterVaults.bondVault meterId) sender bond.amount
      return (s.writeBond none meterId,
        .withdrawn meterId owner bond.amount asked view.window view.nowMs)

def bondToDispute (meterId : Bytes) (latestMeasured : ℤ) : Except VmError MeterBond :=
  match (s.bonds meterId).filter fun b => 0 < b.amount with
  | none => refuse "no bond stands behind this meter"
  | some bond => do
    ensure (∀ asked, bond.withdrawalRequestedAtMs = some asked →
        latestMeasured ≤ coveredUntil asked view.window)
      (VmError.invalidTransaction
        "the record was measured after the bond stopped covering this meter")
    return bond

/-- What a dispute takes beyond the repayment goes to the insurance pool. -/
def creditPool (vault : Bytes) (amount : ℕ) : Except VmError MeterLedger :=
  if amount = 0 then .ok s
  else do
    let s ← s.moveValue vault MeterVaults.pool amount
    return { s with fromSlashes := saturatingAdd 128 s.fromSlashes amount }

/-- Decides a dispute and pays a proven one out of the meter's bond, once per meter and
challenge. -/
def meterDispute (sender : Bytes) (dispute : MeterDispute) :
    Except VmError (MeterLedger × MeterEvent) := do
  let record := dispute.record
  let meterId ← verifyRecord view record
  let proven ← dispute.proves view meterId
  ensure (view.nowMs ≤ clampSigned (proven.latestMeasured + view.window))
    (VmError.invalidTransaction "the dispute window for this record has closed")
  ensure (Token.eqIgnoreAsciiCase record.payer (hexEncode (sender.take 20)))
    (VmError.invalidTransaction "only the record's payer may dispute it")
  ensure (s.disputes meterId record.challengeId = none)
    (VmError.invalidTransaction "this charge has already been disputed")
  let bond ← s.bondToDispute view meterId proven.latestMeasured
  let loss := s.verifiedLoss record.challengeId sender bond.owner proven.legitimate
  ensure (loss ≠ 0) (VmError.invalidTransaction
    "nothing was settled to the bond's owner above what the meter could charge")
  let penalty := min (max (saturatingMul 128 proven.ceiling view.penaltyMultiple) loss) bond.amount
  let repaid := min loss penalty
  let toPool := penalty - repaid
  let s ← s.chargeGas view sender gasMeterDispute
  let vault := MeterVaults.bondVault meterId
  let s ← s.moveValue vault sender repaid
  let s ← s.creditPool vault toPool
  let s := s.writeBond (some { bond with amount := bond.amount - penalty }) meterId
  let marked := update (s.disputes meterId) record.challengeId (some penalty)
  return ({ s with disputes := update s.disputes meterId marked },
    .upheld ⟨meterId, record.challengeId, proven.kind, sender, bond.owner, penalty, repaid,
      proven.legitimate⟩)

def settlePayment (id : String) (payer payee : Bytes) (asset : String) (legs : List ReceiptLeg)
    (balance : Bytes → ℕ) : Except VmError MeterLedger := do
  ensure (s.payments id = none) (VmError.invalidTransaction s!"payment {id} is already settled")
  let amount := (legs.map ReceiptLeg.amount).sum
  let record : PaymentRecord := ⟨hexEncode payer, payee, asset, amount, legs, 0⟩
  return { s with balance, payments := update s.payments id (some record) }

/-- Only the native coin is kept in the balances. -/
def moveRefund (asset : String) (sender payer : Bytes) (amount : ℕ) : Except VmError (Bytes → ℕ) :=
  if asset = "TNZO" then moveTnzo s.balance sender payer amount
  else (view.moveToken asset).map fun _ => s.balance

def refundPayment (sender : Bytes) (id : String) (amount : ℕ) : Except VmError MeterLedger :=
  match s.payments id with
  | none => refuse s!"no payment is recorded at {id}"
  | some record => do
    ensure (record.payee = sender)
      (VmError.invalidTransaction "only the payee refunds its payment")
    let left := record.amount - record.refunded
    ensure (amount ≤ left) (VmError.invalidTransaction s!"{left} of the payment is left to refund")
    match Rates.hexDecode record.payer.toList with
    | none => .error (.internal "a native record's payer is not hex")
    | some payer => do
      let balance ← s.moveRefund view record.asset sender payer amount
      let record := { record with refunded := record.refunded + amount }
      return { s with balance, payments := update s.payments id (some record) }

end MeterLedger

end

end Tenzro.Metering
