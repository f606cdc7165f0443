import Tenzro.MeterBondRuns

set_option autoImplicit false
set_option linter.dupNamespace false

/-!
# Meter bonds over whole runs

A payer is repaid what it lost, unless two meters of one owner are disputed
about one charge, or the payee refunds after a dispute.
-/
namespace Tenzro.Metering
open ByteCodec FixedWidth Outcome NativeBalance List Function Option
open Staking (VmError clampSigned)
open BalanceMovers (roleStakeMoveBalance)

section
variable [MeterVaults]

def Made (h : MeterHistory) : MeterEvent → Prop
  | .withdrawn m owner amount _ _ _ =>
    ∃ b, roleStakeMoveBalance b (MeterVaults.bondVault m) owner amount = .ok h.ledger.balance
  | .upheld u =>
    ∃ b b₁, roleStakeMoveBalance b (MeterVaults.bondVault u.meter) u.payer u.repaid = .ok b₁ ∧
      if u.penalty - u.repaid = 0 then h.ledger.balance = b₁
      else roleStakeMoveBalance b₁ (MeterVaults.bondVault u.meter) MeterVaults.pool
        (u.penalty - u.repaid) = .ok h.ledger.balance
  | _ => True

/-- What holds of the vaults after every run. -/
structure Custody (h : MeterHistory) : Prop where
  covered : ∀ m bond, h.ledger.bonds m = some bond → bond.amount ≤ vaultOf h.ledger.balance m
  /-- What was posted is what left, in one of the three ways, and what is left. -/
  conserved : ∀ m, total (MeterEvent.postedTo m) h.events =
    total (MeterEvent.withdrawnFrom m) h.events + total (MeterEvent.repaidFrom m) h.events +
      total (MeterEvent.pooledFrom m) h.events + h.ledger.left m
  /-- No vault lost more than what was logged as leaving it. -/
  backed : ∀ m, total (MeterEvent.postedTo m) h.events ≤
    vaultOf h.ledger.balance m + total (MeterEvent.takenFrom m) h.events
  /-- A payout goes to the bond's owner, and what is logged was paid. -/
  delivered : ∀ op e, Admissible h op → (h.apply op).events = e :: h.events →
    Made (h.apply op) e ∧ ∀ m owner amount asked window now,
      e = .withdrawn m owner amount asked window now →
        ∃ bond, h.ledger.bonds m = some bond ∧ bond.owner = owner ∧ bond.amount = amount

/-- What a payer is repaid, and when a bond is paid out. -/
structure Fair (h : MeterHistory) : Prop where
  /-- About one challenge, at most what was settled to the owner, net of refunds, above the least
  legitimate charge. -/
  repaid : ∀ c least, (h.events.filterMap (MeterEvent.legitimateFor c)).min? = some least →
    ∃ r, h.ledger.payments c = some r ∧ r.asset = "TNZO" ∧
      (∀ u, .upheld u ∈ h.events → u.challenge = c → u.owner = r.payee ∧
        Token.eqIgnoreAsciiCase r.payer (hexEncode u.payer) = true) ∧
      total (MeterEvent.repaidFor c) h.events ≤ r.settledTo r.payee - r.refunded - least
  /-- At a payout, no record the bond covered can still be disputed. -/
  late : ∀ m owner amount asked window now,
    .withdrawn m owner amount asked window now ∈ h.events →
      ∀ measured ≤ coveredUntil asked window, ¬ now ≤ clampSigned (measured + window)

/-- A payout later than the last instant of the window; no other meter disputed about the
challenge, whose payment was all the owner's; no refund after a dispute. -/
def InTurn (h : MeterHistory) : MeterOp → Prop
  | .withdraw view _ m => ∀ bond asked, h.ledger.bonds m = some bond →
    bond.withdrawalRequestedAtMs = some asked → view.nowMs ≠ payoutAt asked view.window
  | .dispute _ _ dispute =>
    (∀ key, dispute.record.meterPublicKey = some key → ∀ m,
      h.ledger.disputes m dispute.record.challengeId ≠ none → m = MeterVaults.accountSlot key) ∧
    ∀ r, h.ledger.payments dispute.record.challengeId = some r →
      ∀ leg ∈ r.legs, leg.account = hexEncode r.payee
  | .refund _ _ id _ => ∀ m, h.ledger.disputes m id = none
  | _ => True

/-! ### The vaults -/

structure Kept (h : MeterHistory) : Prop where
  conserved : ∀ m, total (MeterEvent.postedTo m) h.events =
    total (MeterEvent.takenFrom m) h.events + h.ledger.left m
  backed : ∀ m, total (MeterEvent.postedTo m) h.events ≤
    vaultOf h.ledger.balance m + total (MeterEvent.takenFrom m) h.events

section
variable {h : MeterHistory} {op : MeterOp}

theorem Kept.log (kept : Kept h) {s' : MeterLedger} {e : MeterEvent}
    (left : ∀ m, e.postedTo m + h.ledger.left m = e.takenFrom m + s'.left m)
    (vaults : ∀ m, e.postedTo m + vaultOf h.ledger.balance m ≤
      vaultOf s'.balance m + e.takenFrom m) : Kept ⟨s', e :: h.events⟩ := by
  constructor
  · intro m
    have before := kept.conserved m
    have step := left m
    simp only [total_cons]
    omega
  · intro m
    have before := kept.backed m
    have step := vaults m
    simp only [total_cons]
    omega

omit [MeterVaults] in
theorem left_update {s : MeterLedger} {bond : Option MeterBond} {m m' : Bytes}
    {b : Bytes → ℕ} : MeterLedger.left { s.writeBond bond m with balance := b } m' =
      if m = m' then bond.elim 0 MeterBond.amount else s.left m' := by
  unfold MeterLedger.left MeterLedger.writeBond
  split_ifs with same
  · subst same
    simp only [update_self]
  · simp only [update_of_ne (Ne.symm same)]

theorem Kept.post (kept : Kept h) {view : MeterView} {sender key consent : Bytes} {amount : ℕ}
    (apart : Admissible h (.post view sender key amount consent)) :
    Kept (h.apply (.post view sender key amount consent)) := by
  unfold MeterHistory.apply
  simp only
  cases ran : h.ledger.meterBondPost view sender key amount consent with
  | error e => exact kept
  | ok done =>
    obtain ⟨s', e⟩ := done
    obtain ⟨m, bond, b, rfl, sum, rfl, vaults⟩ := meterBondPost_ok ran apart
    refine kept.log (fun m' => ?_) fun m' => ?_
    · rw [left_update]
      simp only [MeterEvent.postedTo, MeterEvent.takenFrom, MeterEvent.withdrawnFrom,
        MeterEvent.repaidFrom, MeterEvent.pooledFrom]
      split_ifs with same
      · subst same
        simp only [elim_some]
        omega
      · omega
    · have step := vaults m'
      simp only [MeterEvent.postedTo, MeterEvent.takenFrom, MeterEvent.withdrawnFrom,
        MeterEvent.repaidFrom, MeterEvent.pooledFrom]
      omega

theorem Kept.withdraw (kept : Kept h) {view : MeterView} {sender m : Bytes}
    (apart : Admissible h (.withdraw view sender m)) :
    Kept (h.apply (.withdraw view sender m)) := by
  unfold MeterHistory.apply
  simp only
  cases ran : h.ledger.meterBondWithdraw view sender m with
  | error e => exact kept
  | ok done =>
    obtain ⟨s', e⟩ := done
    obtain ⟨bond, stored, -, ⟨b, -, rfl, rfl, vaults⟩ | ⟨asked, b, -, -, rfl, rfl, -, vaults⟩⟩ :=
      meterBondWithdraw_ok ran apart
    · refine kept.log (fun m' => ?_) fun m' => ?_
      · rw [left_update]
        simp only [MeterEvent.postedTo, MeterEvent.takenFrom, MeterEvent.withdrawnFrom,
          MeterEvent.repaidFrom, MeterEvent.pooledFrom]
        split_ifs with same
        · subst same
          unfold MeterLedger.left
          rw [stored]
          rfl
        · rfl
      · have step := vaults m'
        simp only [MeterEvent.postedTo, MeterEvent.takenFrom, MeterEvent.withdrawnFrom,
          MeterEvent.repaidFrom, MeterEvent.pooledFrom]
        omega
    · refine kept.log (fun m' => ?_) fun m' => ?_
      · rw [left_update]
        simp only [MeterEvent.postedTo, MeterEvent.takenFrom, MeterEvent.withdrawnFrom,
          MeterEvent.repaidFrom, MeterEvent.pooledFrom]
        split_ifs with same
        · subst same
          unfold MeterLedger.left
          rw [stored]
          simp only [elim_some, elim_none]
          omega
        · omega
      · have step := vaults m'
        simp only [MeterEvent.postedTo, MeterEvent.takenFrom, MeterEvent.withdrawnFrom,
          MeterEvent.repaidFrom, MeterEvent.pooledFrom]
        omega

theorem Kept.dispute (kept : Kept h) {view : MeterView} {sender : Bytes} {dispute : MeterDispute}
    (apart : Admissible h (.dispute view sender dispute)) :
    Kept (h.apply (.dispute view sender dispute)) := by
  unfold MeterHistory.apply
  simp only
  cases ran : h.ledger.meterDispute view sender dispute with
  | error e => exact kept
  | ok done =>
    obtain ⟨s', e⟩ := done
    obtain ⟨key, u, bond, -, -, -, rfl, upholds⟩ := meterDispute_ok ran apart
    have part := upholds.part
    have covered := upholds.covered
    refine kept.log (fun m' => ?_) fun m' => ?_
    · have bonds := congrFun upholds.bonds m'
      unfold MeterLedger.left
      rw [bonds]
      simp only [MeterEvent.postedTo, MeterEvent.takenFrom, MeterEvent.withdrawnFrom,
        MeterEvent.repaidFrom, MeterEvent.pooledFrom]
      by_cases same : u.meter = m'
      · subst same
        simp only [update_self, upholds.bonded, elim_some, if_true]
        omega
      · simp only [update_of_ne (Ne.symm same), if_neg same]
    · have step := upholds.vaults m'
      simp only [MeterEvent.postedTo, MeterEvent.takenFrom, MeterEvent.withdrawnFrom,
        MeterEvent.repaidFrom, MeterEvent.pooledFrom]
      split_ifs at step ⊢ <;> omega

theorem Kept.raise (kept : Kept h) {s' : MeterLedger} (bonds : s'.bonds = h.ledger.bonds)
    (raised : ∀ m, vaultOf h.ledger.balance m ≤ vaultOf s'.balance m) : Kept ⟨s', h.events⟩ where
  conserved m := by
    have before := kept.conserved m
    unfold MeterLedger.left at before ⊢
    rw [bonds]
    exact before
  backed m := (kept.backed m).trans (Nat.add_le_add_right (raised m) _)

omit [MeterVaults] in
theorem settlePayment_ok {s s' : MeterLedger} {id asset : String} {payer payee : Bytes}
    {legs : List ReceiptLeg} {balance : Bytes → ℕ}
    (ran : s.settlePayment id payer payee asset legs balance = .ok s') :
    s.payments id = none ∧ s'.bonds = s.bonds ∧ s'.disputes = s.disputes ∧ s'.balance = balance ∧
      ∃ r, s'.payments = update s.payments id (some r) ∧
        r.amount = (r.legs.map ReceiptLeg.amount).sum := by
  obtain ⟨_, fresh, ran⟩ := bind_ok.1 ran
  obtain rfl := pure_ok.1 ran
  exact ⟨ensure_ok.1 fresh, rfl, rfl, rfl, _, rfl, rfl⟩

theorem refundPayment_ok {s s' : MeterLedger} {view : MeterView} {sender : Bytes} {id : String}
    {amount : ℕ} (ran : s.refundPayment view sender id amount = .ok s')
    (apart : ∀ m, AccountNames.account sender ≠ AccountNames.account (MeterVaults.bondVault m)) :
    s'.bonds = s.bonds ∧ s'.disputes = s.disputes ∧
      (∀ m, vaultOf s.balance m ≤ vaultOf s'.balance m) ∧
      ∃ r, s.payments id = some r ∧ s'.payments =
        update s.payments id (some { r with refunded := r.refunded + amount }) := by
  unfold MeterLedger.refundPayment at ran
  cases found : s.payments id with
  | none =>
    simp only [found, Staking.refuse] at ran
    cases ran
  | some r =>
    simp only [found] at ran
    obtain ⟨_, -, ran⟩ := bind_ok.1 ran
    obtain ⟨_, -, ran⟩ := bind_ok.1 ran
    cases decoded : Rates.hexDecode r.payer.toList with
    | none =>
      simp only [decoded] at ran
      cases ran
    | some payer =>
      simp only [decoded] at ran
      obtain ⟨b, moved, ran⟩ := bind_ok.1 ran
      obtain rfl := pure_ok.1 ran
      refine ⟨rfl, rfl, fun m => ?_, r, rfl, rfl⟩
      unfold MeterLedger.moveRefund at moved
      split_ifs at moved
      · obtain ⟨-, rfl⟩ := moveTnzo_ok moved
        exact le_moved (Ne.symm (apart m))
      · cases ran : view.moveToken r.asset with
        | error e =>
          rw [ran] at moved
          cases moved
        | ok u =>
          rw [ran] at moved
          cases moved
          exact le_rfl

theorem Kept.apply (kept : Kept h) (fits : Admissible h op) : Kept (h.apply op) := by
  cases op with
  | post view sender key amount consent => exact kept.post fits
  | withdraw view sender m => exact kept.withdraw fits
  | dispute view sender dispute => exact kept.dispute fits
  | settle id payer payee asset legs balance =>
    unfold MeterHistory.apply
    simp only
    cases ran : h.ledger.settlePayment id payer payee asset legs balance with
    | error e => exact kept
    | ok s' =>
      obtain ⟨-, bonds, -, rfl, -⟩ := settlePayment_ok ran
      exact kept.raise bonds fits
  | refund view sender id amount =>
    unfold MeterHistory.apply
    simp only
    cases ran : h.ledger.refundPayment view sender id amount with
    | error e => exact kept
    | ok s' =>
      obtain ⟨bonds, -, raised, -⟩ := refundPayment_ok ran fits
      exact kept.raise bonds raised
  | other balance => exact kept.raise rfl fits

omit [MeterVaults] in
theorem cons_ne {e : MeterEvent} {events : List MeterEvent} : events ≠ e :: events := fun same => by
  have longer := congrArg List.length same
  rw [length_cons] at longer
  omega

theorem made_apply {e : MeterEvent} (fits : Admissible h op)
    (logs : (h.apply op).events = e :: h.events) :
    Made (h.apply op) e ∧ ∀ m owner amount asked window now,
      e = .withdrawn m owner amount asked window now →
        ∃ bond, h.ledger.bonds m = some bond ∧ bond.owner = owner ∧ bond.amount = amount := by
  unfold MeterHistory.apply at logs ⊢
  cases op with
  | post view sender key amount consent =>
    simp only at logs ⊢
    cases ran : h.ledger.meterBondPost view sender key amount consent with
    | error e =>
      rw [ran] at logs
      exact absurd logs cons_ne
    | ok done =>
      obtain ⟨s', e'⟩ := done
      rw [ran] at logs
      obtain ⟨m, bond, b, rfl, -⟩ := meterBondPost_ok ran fits
      cases (List.cons.inj logs).1
      exact ⟨trivial, fun _ _ _ _ _ _ other => nomatch other⟩
  | withdraw view sender m =>
    simp only at logs ⊢
    cases ran : h.ledger.meterBondWithdraw view sender m with
    | error e =>
      rw [ran] at logs
      exact absurd logs cons_ne
    | ok done =>
      obtain ⟨s', e'⟩ := done
      rw [ran] at logs
      obtain ⟨bond, stored, own, ⟨b, -, rfl, -⟩ | ⟨asked, b, -, -, rfl, rfl, made, -⟩⟩ :=
        meterBondWithdraw_ok ran fits
      · cases (List.cons.inj logs).1
        exact ⟨trivial, fun _ _ _ _ _ _ other => nomatch other⟩
      · cases (List.cons.inj logs).1
        refine ⟨made, fun m' owner amount asked' window now same => ?_⟩
        cases same
        exact ⟨bond, stored, own, rfl⟩
  | dispute view sender dispute =>
    simp only at logs ⊢
    cases ran : h.ledger.meterDispute view sender dispute with
    | error e =>
      rw [ran] at logs
      exact absurd logs cons_ne
    | ok done =>
      obtain ⟨s', e'⟩ := done
      rw [ran] at logs
      obtain ⟨key, u, bond, -, -, -, rfl, upholds⟩ := meterDispute_ok ran fits
      cases (List.cons.inj logs).1
      exact ⟨upholds.made, fun _ _ _ _ _ _ other => nomatch other⟩
  | settle id payer payee asset legs balance =>
    simp only at logs
    cases ran : h.ledger.settlePayment id payer payee asset legs balance with
    | error e =>
      rw [ran] at logs
      exact absurd logs cons_ne
    | ok s' =>
      rw [ran] at logs
      exact absurd logs cons_ne
  | refund view sender id amount =>
    simp only at logs
    cases ran : h.ledger.refundPayment view sender id amount with
    | error e =>
      rw [ran] at logs
      exact absurd logs cons_ne
    | ok s' =>
      rw [ran] at logs
      exact absurd logs cons_ne
  | other balance => exact absurd logs cons_ne

theorem Kept.run {ops : List MeterOp} (kept : Kept h) (fits : Along Admissible h ops) :
    Kept (run h ops) := by
  induction ops generalizing h with
  | nil => exact kept
  | cons op rest ih => exact ih (kept.apply fits.1) fits.2

theorem Kept.custody (kept : Kept h) : Custody h where
  covered m bond stored := by
    have conserved := kept.conserved m
    have backed := kept.backed m
    unfold MeterLedger.left at conserved
    rw [stored] at conserved
    simp only [elim_some] at conserved
    omega
  conserved m := by
    rw [kept.conserved m, total_taken]
  backed := kept.backed
  delivered _ _ := made_apply

/-! ### Repayments -/

/-- While operations come in turn, a challenge has one dispute, and it repays what was lost. -/
structure Reckoned (h : MeterHistory) : Prop where
  priced : ∀ id r, h.ledger.payments id = some r →
    r.amount = (r.legs.map ReceiptLeg.amount).sum
  upheld : ∀ u, .upheld u ∈ h.events → ∃ r, h.ledger.payments u.challenge = some r ∧
    r.asset = "TNZO" ∧ u.owner = r.payee ∧
    Token.eqIgnoreAsciiCase r.payer (hexEncode u.payer) = true ∧
    h.ledger.disputes u.meter u.challenge ≠ none ∧
    h.events.filterMap (MeterEvent.legitimateFor u.challenge) = [u.legitimate] ∧
    total (MeterEvent.repaidFor u.challenge) h.events = u.repaid ∧
    u.repaid ≤ r.settledTo r.payee - r.refunded - u.legitimate
  late : ∀ m owner amount asked window now,
    .withdrawn m owner amount asked window now ∈ h.events →
      ∀ measured ≤ coveredUntil asked window, ¬ now ≤ clampSigned (measured + window)

omit [MeterVaults] in
theorem plain_event {c : String} {e : MeterEvent} (plain : ∀ u, e ≠ .upheld u) :
    e.legitimateFor c = none ∧ e.repaidFor c = 0 := by
  cases e with
  | upheld u => exact absurd rfl (plain u)
  | posted meter owner amount => exact ⟨rfl, rfl⟩
  | unbonding meter payout => exact ⟨rfl, rfl⟩
  | withdrawn meter owner amount asked window now => exact ⟨rfl, rfl⟩

omit [MeterVaults] in
theorem undisputed {c : String} {events : List MeterEvent}
    (none_about : ∀ u, .upheld u ∈ events → u.challenge ≠ c) :
    events.filterMap (MeterEvent.legitimateFor c) = [] ∧
      total (MeterEvent.repaidFor c) events = 0 := by
  induction events with
  | nil => exact ⟨rfl, rfl⟩
  | cons e events ih =>
    obtain ⟨charges, sum⟩ := ih fun u mem => none_about u (mem_cons_of_mem _ mem)
    have silent : e.legitimateFor c = none ∧ e.repaidFor c = 0 := by
      cases e with
      | upheld u =>
        have other := none_about u mem_cons_self
        exact ⟨if_neg other, if_neg other⟩
      | posted meter owner amount => exact ⟨rfl, rfl⟩
      | unbonding meter payout => exact ⟨rfl, rfl⟩
      | withdrawn meter owner amount asked window now => exact ⟨rfl, rfl⟩
    rw [total_cons, sum, silent.2, filterMap_cons_none silent.1]
    exact ⟨charges, rfl⟩

omit [MeterVaults] in
theorem Reckoned.log (reckoned : Reckoned h) {s' : MeterLedger} {e : MeterEvent}
    (payments : s'.payments = h.ledger.payments) (disputes : s'.disputes = h.ledger.disputes)
    (plain : ∀ u, e ≠ .upheld u)
    (late : ∀ m owner amount asked window now, e = .withdrawn m owner amount asked window now →
      ∀ measured ≤ coveredUntil asked window, ¬ now ≤ clampSigned (measured + window)) :
    Reckoned ⟨s', e :: h.events⟩ := by
  refine ⟨?_, fun u mem => ?_, fun m owner amount asked window now mem => ?_⟩
  · rw [payments]
    exact reckoned.priced
  · rcases mem_cons.1 mem with rfl | mem
    · exact absurd rfl (plain u)
    · obtain ⟨silent, free⟩ := @plain_event u.challenge e plain
      rw [payments, disputes, total_cons, filterMap_cons_none silent, free, Nat.zero_add]
      exact reckoned.upheld u mem
  · rcases mem_cons.1 mem with same | mem
    · exact late m owner amount asked window now same.symm
    · exact reckoned.late m owner amount asked window now mem

omit [MeterVaults] in
theorem settledTo_whole {r : PaymentRecord} (priced : r.amount = (r.legs.map ReceiptLeg.amount).sum)
    (whole : ∀ leg ∈ r.legs, leg.account = hexEncode r.payee) : r.settledTo r.payee = r.amount := by
  unfold PaymentRecord.settledTo
  rw [priced, filter_eq_self.2 fun leg mem => decide_eq_true (whole leg mem)]

theorem Reckoned.dispute (reckoned : Reckoned h) {view : MeterView} {sender : Bytes}
    {dispute : MeterDispute} (fits : Admissible h (.dispute view sender dispute))
    (turn : InTurn h (.dispute view sender dispute)) :
    Reckoned (h.apply (.dispute view sender dispute)) := by
  unfold MeterHistory.apply
  simp only
  cases ran : h.ledger.meterDispute view sender dispute with
  | error e => exact reckoned
  | ok done =>
    obtain ⟨s', e⟩ := done
    obtain ⟨key, u, bond, named, meter, challenge, rfl, upholds⟩ := meterDispute_ok ran fits
    obtain ⟨alone, whole⟩ := turn
    rw [← challenge] at alone whole
    have first : ∀ u', .upheld u' ∈ h.events → u'.challenge ≠ u.challenge := by
      intro u' mem same
      obtain ⟨-, -, -, -, -, marked, -⟩ := reckoned.upheld u' mem
      rw [same] at marked
      have own := alone key named u'.meter marked
      rw [own, ← meter] at marked
      exact marked upholds.unmarked
    obtain ⟨charges, sum⟩ := undisputed first
    change Reckoned ⟨s', .upheld u :: h.events⟩
    refine ⟨?_, fun u' mem => ?_, fun m owner amount asked window now mem => ?_⟩
    · rw [upholds.payments]
      exact reckoned.priced
    · rw [upholds.payments, upholds.disputes, total_cons, filterMap_cons]
      rcases mem_cons.1 mem with same | mem
      · cases same
        obtain ⟨r, paid, asset, payee, payer, lost⟩ := upholds.settled
        refine ⟨r, paid, asset, payee.symm, payer, ?_, ?_, ?_, ?_⟩
        · rw [update_self, update_self]
          exact some_ne_none _
        · simp only [MeterEvent.legitimateFor, if_true, charges]
        · simp only [MeterEvent.repaidFor, if_true, sum, Nat.add_zero]
        · rw [settledTo_whole (reckoned.priced _ r paid) (whole r paid)]
          exact lost
      · have other := first u' mem
        obtain ⟨r, paid, asset, payee, payer, marked, alone, once, lost⟩ := reckoned.upheld u' mem
        refine ⟨r, paid, asset, payee, payer, ?_, ?_, ?_, lost⟩
        · by_cases same : u'.meter = u.meter
          · rw [same, update_self, update_of_ne other, ← same]
            exact marked
          · rw [update_of_ne same]
            exact marked
        · simp only [MeterEvent.legitimateFor, if_neg (Ne.symm other)]
          exact alone
        · simp only [MeterEvent.repaidFor, if_neg (Ne.symm other), Nat.zero_add]
          exact once
    · rcases mem_cons.1 mem with same | mem
      · cases same
      · exact reckoned.late m owner amount asked window now mem

omit [MeterVaults] in
theorem clampSigned_mono {x y : ℤ} (le : x ≤ y) : clampSigned x ≤ clampSigned y := by
  unfold clampSigned
  omega

theorem Reckoned.withdraw (reckoned : Reckoned h) {view : MeterView} {sender m : Bytes}
    (fits : Admissible h (.withdraw view sender m)) (turn : InTurn h (.withdraw view sender m)) :
    Reckoned (h.apply (.withdraw view sender m)) := by
  unfold MeterHistory.apply
  simp only
  cases ran : h.ledger.meterBondWithdraw view sender m with
  | error e => exact reckoned
  | ok done =>
    obtain ⟨s', e⟩ := done
    obtain ⟨bond, stored, -, ⟨b, -, rfl, rfl, -⟩ | ⟨asked, b, pending, reached, rfl, rfl, -⟩⟩ :=
      meterBondWithdraw_ok ran fits
    · exact reckoned.log rfl rfl (fun _ => nofun) fun _ _ _ _ _ _ other => nomatch other
    · refine reckoned.log rfl rfl (fun _ => nofun) fun m' owner amount asked' window now same => ?_
      cases same
      intro measured covered open_still
      have later := turn bond asked stored pending
      have closes : clampSigned (measured + view.window) ≤ payoutAt asked view.window :=
        clampSigned_mono (by omega)
      omega

theorem Reckoned.apply (reckoned : Reckoned h) (fits : Admissible h op) (turn : InTurn h op) :
    Reckoned (h.apply op) := by
  cases op with
  | post view sender key amount consent =>
    unfold MeterHistory.apply
    simp only
    cases ran : h.ledger.meterBondPost view sender key amount consent with
    | error e => exact reckoned
    | ok done =>
      obtain ⟨s', e⟩ := done
      obtain ⟨m, bond, b, rfl, -, rfl, -⟩ := meterBondPost_ok ran fits
      exact reckoned.log rfl rfl (fun _ => nofun) fun _ _ _ _ _ _ other => nomatch other
  | withdraw view sender m => exact reckoned.withdraw fits turn
  | dispute view sender dispute => exact reckoned.dispute fits turn
  | settle id payer payee asset legs balance =>
    unfold MeterHistory.apply
    simp only
    cases ran : h.ledger.settlePayment id payer payee asset legs balance with
    | error e => exact reckoned
    | ok s' =>
      obtain ⟨fresh, -, disputes, -, r, payments, priced⟩ := settlePayment_ok ran
      refine ⟨fun id' r' paid => ?_, fun u mem => ?_, reckoned.late⟩
      · change s'.payments id' = some r' at paid
        rw [payments] at paid
        by_cases same : id' = id
        · subst same
          rw [update_self] at paid
          obtain rfl := Option.some.inj paid
          exact priced
        · rw [update_of_ne same] at paid
          exact reckoned.priced id' r' paid
      · change ∃ r, s'.payments _ = some r ∧ _ ∧ _ ∧ _ ∧ s'.disputes _ _ ≠ none ∧ _
        obtain ⟨r', paid, rest⟩ := reckoned.upheld u mem
        have other : u.challenge ≠ id := by
          rintro same
          rw [same, fresh] at paid
          cases paid
        rw [payments, disputes, update_of_ne other]
        exact ⟨r', paid, rest⟩
  | refund view sender id amount =>
    unfold MeterHistory.apply
    simp only
    cases ran : h.ledger.refundPayment view sender id amount with
    | error e => exact reckoned
    | ok s' =>
      obtain ⟨-, disputes, -, r, found, payments⟩ := refundPayment_ok ran fits
      refine ⟨fun id' r' paid => ?_, fun u mem => ?_, reckoned.late⟩
      · change s'.payments id' = some r' at paid
        rw [payments] at paid
        by_cases same : id' = id
        · subst same
          rw [update_self] at paid
          obtain rfl := Option.some.inj paid
          exact reckoned.priced id' r found
        · rw [update_of_ne same] at paid
          exact reckoned.priced id' r' paid
      · change ∃ r, s'.payments _ = some r ∧ _ ∧ _ ∧ _ ∧ s'.disputes _ _ ≠ none ∧ _
        obtain ⟨r', paid, asset, payee, payer, marked, rest⟩ := reckoned.upheld u mem
        have other : u.challenge ≠ id := by
          rintro same
          rw [same] at marked
          exact marked (turn u.meter)
        rw [payments, disputes, update_of_ne other]
        exact ⟨r', paid, asset, payee, payer, marked, rest⟩
  | other balance => exact ⟨reckoned.priced, reckoned.upheld, reckoned.late⟩

theorem Reckoned.run {ops : List MeterOp} (reckoned : Reckoned h) (fits : Along Admissible h ops)
    (turns : Along InTurn h ops) : Reckoned (run h ops) := by
  induction ops generalizing h with
  | nil => exact reckoned
  | cons op rest ih => exact ih (reckoned.apply fits.1 turns.1) fits.2 turns.2

omit [MeterVaults] in
theorem Reckoned.fair (reckoned : Reckoned h) : Fair h := by
  refine ⟨fun c least smallest => ?_, reckoned.late⟩
  have some_dispute : ∃ u, .upheld u ∈ h.events ∧ u.challenge = c := by
    by_contra all_others
    have charges := (undisputed fun u mem same => all_others ⟨u, mem, same⟩).1
    rw [charges] at smallest
    cases smallest
  obtain ⟨u, mem, rfl⟩ := some_dispute
  obtain ⟨r, paid, asset, payee, payer, -, charges, sum, lost⟩ := reckoned.upheld u mem
  rw [charges] at smallest
  cases smallest
  refine ⟨r, paid, asset, fun u' mem' same => ?_, sum.le.trans lost⟩
  obtain ⟨r', paid', -, payee', payer', -⟩ := reckoned.upheld u' mem'
  rw [same, paid] at paid'
  obtain rfl := Option.some.inj paid'
  exact ⟨payee', payer'⟩

/-! ### Every run -/

def MeterHistory.empty (balance : Bytes → ℕ) : MeterHistory :=
  ⟨⟨balance, fun _ => none, fun _ _ => none, fun _ => none, 0⟩, []⟩

/-- After any run the vaults hold the bonds, whose value left as it should; and where operations
come in turn, payers are repaid what they lost and no bond is paid out early. -/
theorem meter_bonds (balance : Bytes → ℕ) (ops : List MeterOp)
    (fits : Along Admissible (.empty balance) ops) :
    Custody (run (.empty balance) ops) ∧
      (Along InTurn (.empty balance) ops → Fair (run (.empty balance) ops)) := by
  have kept : Kept (.empty balance) := ⟨fun m => rfl, fun m => Nat.zero_le _⟩
  have reckoned : Reckoned (.empty balance) := by
    refine ⟨fun id r found => ?_, fun u mem => absurd mem (not_mem_nil),
      fun m owner amount asked window now mem => absurd mem (not_mem_nil)⟩
    cases found
  exact ⟨(kept.run fits).custody, fun turns => (reckoned.run fits turns).fair⟩

end

end

/-! ### One owner's meters -/

@[reducible] def plainMeters : MeterVaults where
  account := id
  accountSlot key := key.take 1
  bondVault m := 9 :: m
  pool := [8]
  apart _ _ same := (List.cons.inj same).2
  poolApart _ same := absurd (List.cons.inj same).1 (by decide)

attribute [local instance] plainMeters

theorem sender_apart {first : UInt8} {rest : Bytes} (other : first ≠ 9) (m : Bytes) :
    AccountNames.account (first :: rest) ≠ AccountNames.account (MeterVaults.bondVault m) :=
  fun same => other (List.cons.inj same).1

def windowMs : ℤ := 72 * 60 * 60 * 1000

def meterView (nowMs : ℤ) : MeterView :=
  ⟨nowMs, 0, 72 * 60 * 60 * 1000, 2, fun _ _ _ => .ok (), fun _ _ => .ok (), fun _ => .ok ()⟩

def seller : Bytes := 2 :: replicate 31 2

def buyer : Bytes := 3 :: replicate 31 3

def purses (sold bought : ℕ) : Bytes → ℕ
  | 2 :: _ => sold
  | 3 :: _ => bought
  | _ => 0

def fairRecord (key : UInt8) (measured : ℤ) : UsageRecord :=
  ⟨"job", hexEncode (buyer.take 20), 1000, [⟨"requests", 1, 100⟩], measured, [],
    hexEncode (replicate 64 key), []⟩

def settleJob : MeterOp :=
  .settle "job" buyer seller "TNZO" [⟨"operator", hexEncode seller, 500⟩] (purses 50500 49500)

def postBond (key : UInt8) : MeterOp :=
  .post (meterView 0) seller (replicate 64 key) 10000 []

def disputeJob (key : UInt8) (nowMs : ℤ) : MeterOp :=
  .dispute (meterView nowMs) buyer (.overSettled (fairRecord key 0))

def twoMeters : List MeterOp :=
  [settleJob, postBond 5, postBond 6, disputeJob 5 10, disputeJob 6 20]

def lastInstant : List MeterOp :=
  [postBond 5, .withdraw (meterView 0) seller [5], .withdraw (meterView (2 * windowMs)) seller [5]]

theorem inTurn_withdraw {h : MeterHistory} {view : MeterView} {sender m : Bytes} {b : MeterBond}
    (held : h.ledger.bonds m = some b) (later : ∀ asked, b.withdrawalRequestedAtMs = some asked →
      view.nowMs ≠ payoutAt asked view.window) : InTurn h (.withdraw view sender m) := by
  intro bond asked stored pending
  rw [held] at stored
  obtain rfl := Option.some.inj stored
  exact later asked pending

theorem twoMeters_admissible : Along Admissible (.empty (purses 50000 50000)) twoMeters :=
  ⟨fun _ => le_rfl, sender_apart (by decide), sender_apart (by decide), sender_apart (by decide),
    sender_apart (by decide), trivial⟩

theorem lastInstant_admissible : Along Admissible (.empty (purses 50000 50000)) lastInstant :=
  ⟨sender_apart (by decide), sender_apart (by decide), sender_apart (by decide), trivial⟩

def inTurn : List MeterOp :=
  [settleJob, postBond 5, disputeJob 5 10, .withdraw (meterView 20) seller [5],
    .withdraw (meterView (2 * windowMs + 21)) seller [5]]

theorem runs_end :
    ((run (.empty (purses 50000 50000)) twoMeters).ledger.payments "job" =
      some ⟨hexEncode buyer, seller, "TNZO", 500, [⟨"operator", hexEncode seller, 500⟩], 0⟩ ∧
    ((run (.empty (purses 50000 50000)) twoMeters).events.filterMap
      (MeterEvent.legitimateFor "job")).min? = some 100 ∧
    total (MeterEvent.repaidFor "job") (run (.empty (purses 50000 50000)) twoMeters).events =
      800) ∧
    MeterEvent.withdrawn [5] seller 10000 0 windowMs (2 * windowMs) ∈
      (run (.empty (purses 50000 50000)) lastInstant).events ∧
    (run (.empty (purses 50000 50000)) (inTurn.take 3)).ledger.bonds [5] =
      some ⟨seller, 8000, none⟩ ∧
    (run (.empty (purses 50000 50000)) (inTurn.take 4)).ledger.bonds [5] =
      some ⟨seller, 8000, some 20⟩ ∧
    total (MeterEvent.repaidFor "job") (run (.empty (purses 50000 50000)) inTurn).events =
      400 :=
  by decide +kernel

/-- The buyer, who paid 500 for what the meters charged 100 for, is repaid 800; and a record
measured at the end of the cover can still be disputed when the bond is paid out. -/
theorem repaid_twice_or_paid_early :
    (Along Admissible (.empty (purses 50000 50000)) twoMeters ∧
      ¬ Fair (run (.empty (purses 50000 50000)) twoMeters)) ∧
    Along Admissible (.empty (purses 50000 50000)) lastInstant ∧
      ¬ Fair (run (.empty (purses 50000 50000)) lastInstant) := by
  refine ⟨⟨twoMeters_admissible, fun fair => ?_⟩, lastInstant_admissible, fun fair => ?_⟩
  · obtain ⟨whole, least, twice⟩ := runs_end.1
    obtain ⟨r, paid, -, -, bound⟩ := fair.repaid "job" 100 least
    rw [whole] at paid
    obtain rfl := Option.some.inj paid
    have settled : PaymentRecord.settledTo ⟨hexEncode buyer, seller, "TNZO", 500,
        [⟨"operator", hexEncode seller, 500⟩], 0⟩ seller = 500 :=
      settledTo_whole (by simp) fun leg mem => by
        rw [mem_singleton.1 mem]
    rw [twice, settled] at bound
    omega
  · have early := fair.late [5] seller 10000 0 windowMs (2 * windowMs) runs_end.2.1 windowMs
      (by decide)
    exact early (by decide)

theorem meter_bonds_inTurn :
    (Custody (run (.empty (purses 50000 50000)) inTurn) ∧
      Fair (run (.empty (purses 50000 50000)) inTurn)) ∧
    total (MeterEvent.repaidFor "job") (run (.empty (purses 50000 50000)) inTurn).events = 400 := by
  have sound := meter_bonds (purses 50000 50000) inTurn
    ⟨fun _ => le_rfl, sender_apart (by decide), sender_apart (by decide), sender_apart (by decide),
      sender_apart (by decide), trivial⟩
  obtain ⟨disputed, asked_out, repaid⟩ := runs_end.2.2
  have asks : InTurn (run (.empty (purses 50000 50000)) (inTurn.take 3))
      (.withdraw (meterView 20) seller [5]) := inTurn_withdraw disputed nofun
  have leaves : InTurn (run (.empty (purses 50000 50000)) (inTurn.take 4))
      (.withdraw (meterView (2 * windowMs + 21)) seller [5]) := by
    refine inTurn_withdraw asked_out fun asked pending => ?_
    obtain rfl := Option.some.inj pending
    decide
  refine ⟨⟨sound.1, sound.2 ⟨trivial, trivial, ⟨fun key named m marked => ?_, fun r paid => ?_⟩,
    asks, leaves, trivial⟩⟩, repaid⟩
  · exact absurd rfl marked
  · cases paid
    decide +kernel

end Tenzro.Metering
