import Tenzro.MeterBond

set_option autoImplicit false
set_option linter.dupNamespace false

/-!
# Runs of the meter bonds

What was locked behind each meter, what left it and what each challenge's payer was repaid, over any
order of postings, withdrawals, disputes, payments and refunds.
-/
namespace Tenzro.Metering
open ByteCodec FixedWidth Outcome NativeBalance Function
open Staking (VmError checkedAdd clampSigned)
open BalanceMovers (roleStakeMoveBalance roleStakeMoveBalance_ok)

/-- A ledger and what was logged, newest first. -/
structure MeterHistory where
  ledger : MeterLedger
  events : List MeterEvent

inductive MeterOp where
  | post (view : MeterView) (sender meterPublicKey : Bytes) (amount : ℕ) (consent : Bytes)
  | withdraw (view : MeterView) (sender meterId : Bytes)
  | dispute (view : MeterView) (sender : Bytes) (dispute : MeterDispute)
  | settle (id : String) (payer payee : Bytes) (asset : String) (legs : List ReceiptLeg)
    (balance : Bytes → ℕ)
  | refund (view : MeterView) (sender : Bytes) (id : String) (amount : ℕ)
  /-- Any other transaction, by the balances it leaves. -/
  | other (balance : Bytes → ℕ)

section
variable [MeterVaults]

def vaultOf (b : Bytes → ℕ) (m : Bytes) : ℕ := balanceOf b (MeterVaults.bondVault m)

namespace MeterHistory
variable (h : MeterHistory)

/-- An operation that fails is undone. -/
def logged : Except VmError (MeterLedger × MeterEvent) → MeterHistory
  | .ok (s, e) => ⟨s, e :: h.events⟩
  | .error _ => h

def moved : Except VmError MeterLedger → MeterHistory
  | .ok s => ⟨s, h.events⟩
  | .error _ => h

def apply : MeterOp → MeterHistory
  | .post view sender key amount consent =>
    h.logged (h.ledger.meterBondPost view sender key amount consent)
  | .withdraw view sender meterId => h.logged (h.ledger.meterBondWithdraw view sender meterId)
  | .dispute view sender dispute => h.logged (h.ledger.meterDispute view sender dispute)
  | .settle id payer payee asset legs balance =>
    h.moved (h.ledger.settlePayment id payer payee asset legs balance)
  | .refund view sender id amount => h.moved (h.ledger.refundPayment view sender id amount)
  | .other balance => ⟨{ h.ledger with balance }, h.events⟩

end MeterHistory

def Admissible (h : MeterHistory) : MeterOp → Prop
  | .post _ sender .. | .withdraw _ sender _ | .dispute _ sender _ | .refund _ sender .. =>
    ∀ m, AccountNames.account sender ≠ AccountNames.account (MeterVaults.bondVault m)
  | .settle _ _ _ _ _ balance | .other balance =>
    ∀ m, vaultOf h.ledger.balance m ≤ vaultOf balance m

def run : MeterHistory → List MeterOp → MeterHistory
  | h, [] => h
  | h, op :: rest => run (h.apply op) rest

def Along (p : MeterHistory → MeterOp → Prop) : MeterHistory → List MeterOp → Prop
  | _, [] => True
  | h, op :: rest => p h op ∧ Along p (h.apply op) rest

end

/-! ### What the log adds up to -/

namespace MeterEvent

def postedTo (m : Bytes) : MeterEvent → ℕ
  | posted meter _ amount => if meter = m then amount else 0
  | _ => 0

def withdrawnFrom (m : Bytes) : MeterEvent → ℕ
  | withdrawn meter _ amount _ _ _ => if meter = m then amount else 0
  | _ => 0

def repaidFrom (m : Bytes) : MeterEvent → ℕ
  | upheld u => if u.meter = m then u.repaid else 0
  | _ => 0

def pooledFrom (m : Bytes) : MeterEvent → ℕ
  | upheld u => if u.meter = m then u.penalty - u.repaid else 0
  | _ => 0

def takenFrom (m : Bytes) (e : MeterEvent) : ℕ :=
  e.withdrawnFrom m + e.repaidFrom m + e.pooledFrom m

def repaidFor (c : String) : MeterEvent → ℕ
  | upheld u => if u.challenge = c then u.repaid else 0
  | _ => 0

/-- The least charge the evidence about the challenge proves. -/
def legitimateFor (c : String) : MeterEvent → Option ℕ
  | upheld u => if u.challenge = c then some u.legitimate else none
  | _ => none

end MeterEvent

def total (f : MeterEvent → ℕ) (events : List MeterEvent) : ℕ := (events.map f).sum

def PaymentRecord.settledTo (r : PaymentRecord) (owner : Bytes) : ℕ :=
  ((r.legs.filter fun leg => leg.account = hexEncode owner).map ReceiptLeg.amount).sum

def MeterLedger.left (s : MeterLedger) (m : Bytes) : ℕ := (s.bonds m).elim 0 MeterBond.amount

section
variable {f : MeterEvent → ℕ} {e : MeterEvent} {events : List MeterEvent}

theorem total_cons : total f (e :: events) = f e + total f events := List.sum_cons

theorem total_taken {m : Bytes} : total (MeterEvent.takenFrom m) events =
    total (MeterEvent.withdrawnFrom m) events + total (MeterEvent.repaidFrom m) events +
      total (MeterEvent.pooledFrom m) events := by
  induction events with
  | nil => rfl
  | cons e events ih =>
    simp only [total_cons, ih, MeterEvent.takenFrom]
    omega

end

/-! ### What each operation does -/

section
variable [MeterVaults] {s s' : MeterLedger} {view : MeterView} {sender m m' : Bytes} {amount : ℕ}

theorem vault_ne (other : m' ≠ m) : AccountNames.account (MeterVaults.bondVault m') ≠
    AccountNames.account (MeterVaults.bondVault m) := fun same =>
  other (MeterVaults.apart m' m same)

theorem moveValue_ok {source dest : Bytes} (ran : s.moveValue source dest amount = .ok s') :
    amount ≤ balanceOf s.balance source ∧ ∃ b, s' = { s with balance := b } ∧
      roleStakeMoveBalance s.balance source dest amount = .ok b ∧
      b = NativeBalance.moved s.balance (AccountNames.account source)
        (AccountNames.account dest) amount := by
  obtain ⟨b, ran, same⟩ := bind_ok.1 ran
  obtain ⟨enough, -, moved⟩ := roleStakeMoveBalance_ok ran
  exact ⟨enough, b, (pure_ok.1 same).symm, ran, moved⟩

theorem chargeGas_ok {gas : ℕ} (ran : s.chargeGas view sender gas = .ok s')
    (apart : ∀ m, AccountNames.account sender ≠ AccountNames.account (MeterVaults.bondVault m)) :
    ∃ b, s' = { s with balance := b } ∧ ∀ m, vaultOf b m = vaultOf s.balance m := by
  obtain ⟨_, -, ran⟩ := bind_ok.1 ran
  refine ⟨_, (pure_ok.1 ran).symm, fun m => ?_⟩
  unfold vaultOf balanceOf setBalance
  rw [update_of_ne (Ne.symm (apart m))]

theorem moved_into
    (apart : ∀ m, AccountNames.account sender ≠ AccountNames.account (MeterVaults.bondVault m)) :
    vaultOf (NativeBalance.moved s.balance (AccountNames.account sender)
        (AccountNames.account (MeterVaults.bondVault m)) amount) m' =
      vaultOf s.balance m' + if m = m' then amount else 0 := by
  unfold vaultOf balanceOf
  split_ifs with same
  · subst same
    rw [moved_dest (Ne.symm (apart m))]
  · rw [moved_of_ne (Ne.symm (apart m')) (vault_ne (Ne.symm same)), Nat.add_zero]

theorem moved_outof {dest : Bytes}
    (apart : ∀ m, AccountNames.account dest ≠ AccountNames.account (MeterVaults.bondVault m))
    (enough : amount ≤ balanceOf s.balance (MeterVaults.bondVault m)) :
    vaultOf (NativeBalance.moved s.balance (AccountNames.account (MeterVaults.bondVault m))
        (AccountNames.account dest) amount) m' + (if m = m' then amount else 0) =
      vaultOf s.balance m' := by
  unfold vaultOf balanceOf at *
  split_ifs with same
  · subst same
    rw [moved_source (apart m)]
    omega
  · rw [moved_of_ne (vault_ne (Ne.symm same)) (Ne.symm (apart m')), Nat.add_zero]

theorem meterBondPost_ok {key consent : Bytes} {e : MeterEvent}
    (ran : s.meterBondPost view sender key amount consent = .ok (s', e))
    (apart : ∀ m, AccountNames.account sender ≠ AccountNames.account (MeterVaults.bondVault m)) :
    ∃ m bond b, e = .posted m sender amount ∧ bond.amount = s.left m + amount ∧
      s' = { s.writeBond (some bond) m with balance := b } ∧
      ∀ m', vaultOf b m' = vaultOf s.balance m' + if m = m' then amount else 0 := by
  obtain ⟨_, -, ran⟩ := bind_ok.1 ran
  obtain ⟨owner, short, ran⟩ := bind_ok.1 ran
  obtain ⟨_, -, ran⟩ := bind_ok.1 ran
  obtain ⟨bond, found, ran⟩ := bind_ok.1 ran
  obtain ⟨sum, added, ran⟩ := bind_ok.1 ran
  obtain ⟨s₁, charged, ran⟩ := bind_ok.1 ran
  obtain ⟨s₂, locked, ran⟩ := bind_ok.1 ran
  unfold from32 Staking.refuse at short
  split_ifs at short
  cases short
  unfold checkedAdd at added
  split_ifs at added
  cases added
  obtain ⟨b, rfl, paid⟩ := chargeGas_ok charged apart
  obtain ⟨-, _, rfl, -, rfl⟩ := moveValue_ok locked
  cases pure_ok.1 ran
  have held : bond.amount = s.left (MeterVaults.accountSlot key) := by
    unfold MeterLedger.bondToPost at found
    unfold MeterLedger.left
    cases stored : s.bonds (MeterVaults.accountSlot key) with
    | none =>
      rw [stored] at found
      cases found
      rfl
    | some b =>
      simp only [stored] at found
      obtain ⟨_, -, found⟩ := bind_ok.1 found
      obtain ⟨_, -, found⟩ := bind_ok.1 found
      rw [← pure_ok.1 found]
      rfl
  refine ⟨MeterVaults.accountSlot key, _, _, rfl, ?_, rfl, fun m' => ?_⟩
  · exact congrArg (· + amount) held
  · rw [moved_into apart, paid]

theorem meterBondWithdraw_ok {e : MeterEvent}
    (ran : s.meterBondWithdraw view sender m = .ok (s', e))
    (apart : ∀ m, AccountNames.account sender ≠ AccountNames.account (MeterVaults.bondVault m)) :
    ∃ bond, s.bonds m = some bond ∧ bond.owner = sender ∧
      ((∃ b, bond.withdrawalRequestedAtMs = none ∧
          e = .unbonding m (payoutAt view.nowMs view.window) ∧
          s' = { s.writeBond (some { bond with withdrawalRequestedAtMs := some view.nowMs }) m with
            balance := b } ∧ ∀ m', vaultOf b m' = vaultOf s.balance m') ∨
        ∃ asked b, bond.withdrawalRequestedAtMs = some asked ∧
          payoutAt asked view.window ≤ view.nowMs ∧
          e = .withdrawn m sender bond.amount asked view.window view.nowMs ∧
          s' = { s.writeBond none m with balance := b } ∧
          (∃ b₀, roleStakeMoveBalance b₀ (MeterVaults.bondVault m) sender bond.amount = .ok b) ∧
          ∀ m', vaultOf b m' + (if m = m' then bond.amount else 0) = vaultOf s.balance m') := by
  obtain ⟨owner, short, ran⟩ := bind_ok.1 ran
  unfold from32 Staking.refuse at short
  split_ifs at short
  cases short
  cases stored : s.bonds m with
  | none =>
    simp only [stored, Staking.refuse] at ran
    cases ran
  | some bond =>
    simp only [stored] at ran
    obtain ⟨_, own, ran⟩ := bind_ok.1 ran
    obtain ⟨s₁, charged, ran⟩ := bind_ok.1 ran
    obtain ⟨b, rfl, paid⟩ := chargeGas_ok charged apart
    refine ⟨bond, rfl, ensure_ok.1 own, ?_⟩
    cases asked : bond.withdrawalRequestedAtMs with
    | none =>
      simp only [asked] at ran
      cases pure_ok.1 ran
      exact .inl ⟨b, rfl, rfl, rfl, paid⟩
    | some asked_at =>
      simp only [asked] at ran
      obtain ⟨_, late, ran⟩ := bind_ok.1 ran
      obtain ⟨s₂, moved, ran⟩ := bind_ok.1 ran
      obtain ⟨enough, _, rfl, made, rfl⟩ := moveValue_ok moved
      cases pure_ok.1 ran
      refine .inr ⟨asked_at, _, rfl, ensure_ok.1 late, rfl, rfl, ⟨_, made⟩, fun m' => ?_⟩
      rw [moved_outof apart enough, paid]

theorem creditPool_ok (ran : s.creditPool (MeterVaults.bondVault m) amount = .ok s') :
    s'.bonds = s.bonds ∧ s'.disputes = s.disputes ∧ s'.payments = s.payments ∧
      (if amount = 0 then s'.balance = s.balance
       else roleStakeMoveBalance s.balance (MeterVaults.bondVault m) MeterVaults.pool amount =
         .ok s'.balance) ∧
      ∀ m', vaultOf s'.balance m' + (if m = m' then amount else 0) = vaultOf s.balance m' := by
  unfold MeterLedger.creditPool at ran
  split_ifs at ran ⊢ with nothing
  · cases ran
    subst nothing
    exact ⟨rfl, rfl, rfl, rfl, fun m' => by rw [ite_self, Nat.add_zero]⟩
  · obtain ⟨s₁, moved, ran⟩ := bind_ok.1 ran
    obtain ⟨enough, _, rfl, made, rfl⟩ := moveValue_ok moved
    obtain rfl := pure_ok.1 ran
    exact ⟨rfl, rfl, rfl, made, fun m' => moved_outof MeterVaults.poolApart enough⟩

omit [MeterVaults] in
theorem verifiedLoss_pos {c : String} {payer owner : Bytes} {legitimate : ℕ}
    (lost : s.verifiedLoss c payer owner legitimate ≠ 0) :
    ∃ r, s.payments c = some r ∧ r.asset = "TNZO" ∧ r.payee = owner ∧
      Token.eqIgnoreAsciiCase r.payer (hexEncode payer) = true ∧
        s.verifiedLoss c payer owner legitimate = r.amount - r.refunded - legitimate := by
  unfold MeterLedger.verifiedLoss at lost ⊢
  cases found : s.payments c with
  | none =>
    simp only [found] at lost
    exact absurd rfl lost
  | some r =>
    simp only [found] at lost ⊢
    split_ifs at lost ⊢ with other
    · exact absurd rfl lost
    · rw [not_or, not_or, not_not, not_not, not_not] at other
      exact ⟨r, rfl, other.1, other.2.1, other.2.2, rfl⟩

/-- What an upheld dispute took from the bond, for whom and why. -/
structure Upholds (s s' : MeterLedger) (u : Upheld) (bond : MeterBond) : Prop where
  unmarked : s.disputes u.meter u.challenge = none
  bonded : s.bonds u.meter = some bond
  owner : u.owner = bond.owner
  part : u.repaid ≤ u.penalty
  covered : u.penalty ≤ bond.amount
  settled : ∃ r, s.payments u.challenge = some r ∧ r.asset = "TNZO" ∧ r.payee = u.owner ∧
    Token.eqIgnoreAsciiCase r.payer (hexEncode u.payer) = true ∧
      u.repaid ≤ r.amount - r.refunded - u.legitimate
  bonds : s'.bonds =
    update s.bonds u.meter (some { bond with amount := bond.amount - u.penalty })
  disputes : s'.disputes = update s.disputes u.meter
    (update (s.disputes u.meter) u.challenge (some u.penalty))
  payments : s'.payments = s.payments
  vaults : ∀ m, vaultOf s'.balance m + (if u.meter = m then u.penalty else 0) =
    vaultOf s.balance m
  made : ∃ b b₁, roleStakeMoveBalance b (MeterVaults.bondVault u.meter) u.payer u.repaid = .ok b₁ ∧
    if u.penalty - u.repaid = 0 then s'.balance = b₁
    else roleStakeMoveBalance b₁ (MeterVaults.bondVault u.meter) MeterVaults.pool
      (u.penalty - u.repaid) = .ok s'.balance

theorem meterDispute_ok {dispute : MeterDispute} {e : MeterEvent}
    (ran : s.meterDispute view sender dispute = .ok (s', e))
    (apart : ∀ m, AccountNames.account sender ≠ AccountNames.account (MeterVaults.bondVault m)) :
    ∃ key u bond, dispute.record.meterPublicKey = some key ∧
      u.meter = MeterVaults.accountSlot key ∧ u.challenge = dispute.record.challengeId ∧
        e = .upheld u ∧ Upholds s s' u bond := by
  unfold MeterLedger.meterDispute at ran
  simp only [bind_ok] at ran
  obtain ⟨meter, signed, proven, -, _, -, _, -, _, fresh, bond, found, _, lost, s₁, charged,
    s₂, repaid, s₃, pooled, ran⟩ := ran
  cases pure_ok.1 ran
  have key : ∃ key, dispute.record.meterPublicKey = some key ∧
      meter = MeterVaults.accountSlot key := by
    unfold verifyRecord at signed
    cases named : dispute.record.meterPublicKey with
    | none =>
      simp only [named, Staking.refuse] at signed
      cases signed
    | some key =>
      simp only [named] at signed
      obtain ⟨_, -, signed⟩ := bind_ok.1 signed
      obtain ⟨_, -, signed⟩ := bind_ok.1 signed
      exact ⟨key, rfl, (pure_ok.1 signed).symm⟩
  obtain ⟨key, named, own⟩ := key
  have bonded : s.bonds meter = some bond := by
    unfold MeterLedger.bondToDispute at found
    cases stored : s.bonds meter with
    | none =>
      simp only [stored, Option.filter_none, Staking.refuse] at found
      cases found
    | some b =>
      rw [stored] at found
      cases kept : (some b).filter fun b : MeterBond => 0 < b.amount with
      | none =>
        simp only [kept, Staking.refuse] at found
        cases found
      | some b' =>
        simp only [kept] at found
        obtain ⟨_, -, found⟩ := bind_ok.1 found
        obtain rfl := pure_ok.1 found
        rw [Option.filter_eq_some_iff] at kept
        exact kept.1
  obtain ⟨r, paid, asset, payee, payer, loss⟩ := verifiedLoss_pos (ensure_ok.1 lost)
  obtain ⟨b, rfl, gas⟩ := chargeGas_ok charged apart
  obtain ⟨enough, _, rfl, made, rfl⟩ := moveValue_ok repaid
  obtain ⟨same_bonds, same_disputes, same_payments, credited, left⟩ := creditPool_ok pooled
  refine ⟨key, _, bond, named, own, rfl, rfl, ?_⟩
  refine ⟨ensure_ok.1 fresh, bonded, rfl, Nat.min_le_right _ _, Nat.min_le_right _ _,
    ⟨r, paid, asset, payee, payer, ?_⟩, ?_, ?_, same_payments, fun m => ?_, ⟨_, _, made, credited⟩⟩
  · exact (Nat.min_le_left _ _).trans loss.le
  · change update s₃.bonds _ _ = _
    rw [same_bonds]
  · change update s₃.disputes _ (update (s₃.disputes _) _ _) = _
    rw [same_disputes]
  · have pool := left m
    have owner := @moved_outof _ { s with balance := b } _ m _ _ apart enough
    rw [gas m] at owner
    have part : ∀ loss penalty : ℕ, min loss penalty ≤ penalty := Nat.min_le_right
    simp only at pool owner ⊢
    change vaultOf s₃.balance m + _ = _
    rw [← owner, ← pool]
    split_ifs
    · have within := part (s.verifiedLoss dispute.record.challengeId sender bond.owner
        proven.legitimate) (min (max (saturatingMul 128 proven.ceiling view.penaltyMultiple)
          (s.verifiedLoss dispute.record.challengeId sender bond.owner proven.legitimate))
          bond.amount)
      omega
    · omega

end

end Tenzro.Metering
