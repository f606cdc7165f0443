import Tenzro.NativeBalance
import Tenzro.Reconciliation

set_option autoImplicit false
set_option linter.dupNamespace false

/-!
# The insurance pool and the claims it pays

A claim names a reconciliation mismatch. The pool pays the account the mismatch harmed what it lost,
within what governance allows one claim and one epoch.
-/
namespace Tenzro.Insurance
open ByteCodec FixedWidth Outcome NativeBalance
open Staking (VmError refuse checkedAdd addOverflow bump bpsShare)
open Settlement (ReconMismatch Route)
open Bridge (BridgeRouteAdapter toAsciiLower)

/-- Evidence of a loss, as a claim submits it. -/
inductive InsuranceEvidence where
  | reconMismatch (adapter : BridgeRouteAdapter) (chain : String) (position : ℕ)
deriving DecidableEq, Repr

def InsuranceEvidence.mismatch : InsuranceEvidence → Route × ℕ
  | .reconMismatch adapter chain position => ((adapter, toAsciiLower chain), position)

/-- The pool's address, and the hash of evidence that names a claim. -/
class InsuranceNames extends AccountNames where
  pool : Bytes
  claimId : InsuranceEvidence → Bytes

structure InsuranceClaim where
  claimId : Bytes
  claimant : Bytes
  evidence : InsuranceEvidence
  loss : ℕ
  paid : ℕ
  paidAtMs : ℤ
deriving DecidableEq, Repr

structure InsurancePoolTotals where
  claimsPaid : ℕ
  totalPaid : ℕ
  fromFees : ℕ
  fromSlashes : ℕ
deriving DecidableEq, Repr

structure PaidEpoch where
  epoch : ℕ
  paid : ℕ
deriving DecidableEq, Repr

inductive PoolSource where
  | fees
  | slash
deriving DecidableEq, Repr

structure InsuranceState where
  balance : Bytes → ℕ
  nonce : Bytes → ℕ
  mismatches : Route → ℕ → Option ReconMismatch
  claims : Bytes → Option InsuranceClaim
  claimIds : List Bytes
  paidEpoch : Option PaidEpoch
  totals : InsurancePoolTotals

/-- What a claim reads besides the records. -/
structure InsuranceView where
  frozen : Option (ℕ × ℕ)
  maxClaimBps : ℕ
  maxClaimTnzo : ℕ
  maxPaidTnzoEpoch : ℕ
  safetyRate : ℕ
  rateNanoUsd : ℕ
  holdings : List (ℕ × ℕ × ℕ)
  currentEpoch : ℕ
  nowMs : ℤ

structure InsuranceCall where
  sender : Bytes
  gasPrice : ℕ
  payload : Except String InsuranceEvidence

def gasPayInsuranceClaim : ℕ := 90000

def weiPerTnzo : ℕ := 10 ^ 18

def mostPaidTnzoEpoch : ℕ := 1000000000

/-- Micro-units an amount is worth, rounded down. -/
def valueE6 (amount rate decimals : ℕ) : ℕ :=
  min (amount * rate / (10 ^ decimals * 1000)) (maxValue 128)

def tnzoValueE6 (wei rate : ℕ) : ℕ := valueE6 wei rate 18

namespace InsuranceView
variable (view : InsuranceView)

def requireUnfrozen : Except VmError Unit :=
  match view.frozen with
  | none => .ok ()
  | some (held, owed) => refuse (s!"insurance is frozen: its vault held {held} against {owed} " ++
    "owed; governance must lift the freeze")

def holdingsValueE6 : ℕ :=
  view.holdings.foldl (fun acc h => saturatingAdd 128 acc (valueE6 h.1 h.2.1 h.2.2)) 0

def valueE6AtSafety (poolTnzo : ℕ) : ℕ :=
  saturatingAdd 128 (tnzoValueE6 poolTnzo view.safetyRate) view.holdingsValueE6

def weiForE6 (e6 : ℕ) : ℕ := min (e6 * 1000 * weiPerTnzo / max view.rateNanoUsd 1) (maxValue 128)

def claimCap (pool : ℕ) : ℕ :=
  let bps := min view.maxClaimBps 10000
  let abs := saturatingMul 128 view.maxClaimTnzo weiPerTnzo
  let capE6 := bpsShare (view.valueE6AtSafety pool) bps
  min (view.weiForE6 capE6) abs

def epochCeiling : ℕ := saturatingMul 128 (min view.maxPaidTnzoEpoch mostPaidTnzoEpoch) weiPerTnzo

end InsuranceView

namespace InsuranceState
variable (view : InsuranceView) (s : InsuranceState)

def readEpochPaid : ℕ :=
  ((s.paidEpoch.filter (fun p => p.epoch = view.currentEpoch)).map PaidEpoch.paid).getD 0

/-- Counts `paid` against the epoch's ceiling. -/
def bookPaid (paid : ℕ) : InsuranceState :=
  { s with
    paidEpoch := some ⟨view.currentEpoch, saturatingAdd 128 (s.readEpochPaid view) paid⟩ }

def noteCredit (amount : ℕ) (source : PoolSource) : InsuranceState :=
  if amount = 0 then s
  else
    match source with
    | .fees => { s with totals := { s.totals with
        fromFees := saturatingAdd 128 s.totals.fromFees amount } }
    | .slash => { s with totals := { s.totals with
        fromSlashes := saturatingAdd 128 s.totals.fromSlashes amount } }

def proveLoss (evidence : InsuranceEvidence) : Except VmError (Bytes × ℕ) :=
  match s.mismatches evidence.mismatch.1 evidence.mismatch.2 with
  | none => refuse "no reconciliation mismatch is stored at that position"
  | some m =>
    if m.attested = false then
      refuse "the route proves its lock by light client; no committee answers for it"
    else
      match m.harmed with
      | none => refuse "the mismatch cost no account on Tenzro"
      | some harmed =>
        if m.loss = 0 then refuse "the mismatched leg carries no value" else .ok (harmed, m.loss)

variable [InsuranceNames]

def payable (loss : ℕ) : ℕ :=
  let held := balanceOf s.balance InsuranceNames.pool
  min (min (min loss (view.claimCap held)) (view.epochCeiling - s.readEpochPaid view)) held

def chargeGas (call : InsuranceCall) : Except VmError InsuranceState := do
  let cost := saturatingMul 128 call.gasPrice gasPayInsuranceClaim
  let held := balanceOf s.balance call.sender
  ensure (cost ≤ held) (VmError.insufficientBalance cost held)
  return { s with balance := setBalance s.balance call.sender (held - cost) }

def payClaim (sender : Bytes) (claim : InsuranceClaim) : Except VmError InsuranceState := do
  let held := balanceOf s.balance InsuranceNames.pool
  let debited := setBalance s.balance InsuranceNames.pool (held - claim.paid)
  let after ← checkedAdd (balanceOf debited sender) claim.paid addOverflow
  let claimsPaid ← bump s.totals.claimsPaid
  let nonce ← bump (s.nonce sender)
  let booked := s.bookPaid view claim.paid
  return { booked with
    balance := setBalance debited sender after
    nonce := Function.update s.nonce sender nonce
    claims := Function.update s.claims claim.claimId (some claim)
    claimIds := s.claimIds ++ [claim.claimId]
    totals := { s.totals with
      claimsPaid := claimsPaid
      totalPaid := saturatingAdd 128 s.totals.totalPaid claim.paid } }

/-- Pays the sender the loss its evidence proves, capped by governance, from the pool. -/
def executePayInsuranceClaim (call : InsuranceCall) :
    Except VmError (InsuranceState × InsuranceClaim) := do
  view.requireUnfrozen
  let evidence ← call.payload.mapError
    (fun e => VmError.invalidTransaction s!"Invalid PayInsuranceClaim payload: {e}")
  let id := InsuranceNames.claimId evidence
  ensure (s.claims id = none) (VmError.invalidTransaction "this evidence has already been paid")
  let s ← s.chargeGas call
  let (owedTo, loss) ← s.proveLoss evidence
  ensure (owedTo = call.sender)
    (VmError.invalidTransaction "the evidence names another account as the one harmed")
  let paid := s.payable view loss
  ensure (balanceOf s.balance InsuranceNames.pool ≠ 0)
    (VmError.invalidTransaction "the insurance pool is empty")
  ensure (paid ≠ 0) (VmError.invalidTransaction
    s!"insurance claims have paid this epoch's ceiling of {view.epochCeiling} wei")
  let claim : InsuranceClaim := ⟨id, call.sender, evidence, loss, paid, view.nowMs⟩
  let s ← s.payClaim view call.sender claim
  return (s, claim)

end InsuranceState

end Tenzro.Insurance
