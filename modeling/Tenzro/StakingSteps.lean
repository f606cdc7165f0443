import Tenzro.Books
import Tenzro.Staking

set_option autoImplicit false
set_option linter.dupNamespace false

/-!
# What an operation does to the stake records

Every operation replaces the records of one address, moves the totals with them, and moves
balances out of the vault or into it.
-/
namespace Tenzro.Staking
open FixedWidth Outcome Book Function

/-- Each total is the sum of its records, and no lien exceeds the stake it is on. -/
structure Kept (s : StakeLedger) : Prop where
  bonded : SumsTo s.bond s.totalBonded
  unbondings : SumsTo s.unbondingAmount s.totalUnbonding
  sponsored : SumsTo s.sponsored s.totalSponsored
  sponsoredUnbonding : SumsTo s.sponsoredUnbonding s.totalSponsoredUnbonding
  lien : ∀ a, s.sponsored a ≤ s.bond a
  unbondingLien : ∀ a, s.sponsoredUnbonding a ≤ s.unbondingAmount a

/-- What the records of one address hold. -/
@[ext] structure Position where
  bond : ℕ
  unbonding : ℕ
  sponsored : ℕ
  sponsoredUnbonding : ℕ

/-- The records of `addr` become `p`, and the totals follow. -/
structure Revised (s s' : StakeLedger) (addr : Bytes) (p : Position) : Prop where
  bond : s'.bond = Function.update s.bond addr p.bond
  unbonding : s'.unbondingAmount = Function.update s.unbondingAmount addr p.unbonding
  sponsored : s'.sponsored = Function.update s.sponsored addr p.sponsored
  sponsoredUnbonding :
    s'.sponsoredUnbonding = Function.update s.sponsoredUnbonding addr p.sponsoredUnbonding
  totalBonded : s'.totalBonded + s.bond addr = s.totalBonded + p.bond
  totalUnbonding : s'.totalUnbonding + s.unbondingAmount addr = s.totalUnbonding + p.unbonding
  totalSponsored : s'.totalSponsored + s.sponsored addr = s.totalSponsored + p.sponsored
  totalSponsoredUnbonding : s'.totalSponsoredUnbonding + s.sponsoredUnbonding addr =
    s.totalSponsoredUnbonding + p.sponsoredUnbonding

/-- What was taken for an offence is part of what was at stake, and the bonded part of it. -/
structure WindowOffence.Fair (o : WindowOffence) : Prop where
  bonded : o.takenBonded ≤ o.taken
  taken : o.taken ≤ o.atStake
  fits : o.atStake ≤ maxValue 128

/-- The records stay kept, what the vault owes moves by what came in and what went out, and
the balances are `balance`. -/
structure Settles (s s' : StakeLedger) (deposited withdrawn : ℕ) (balance : Bytes → ℕ) : Prop where
  kept : Kept s'
  owed : s'.totalBonded + s'.totalUnbonding + withdrawn =
    s.totalBonded + s.totalUnbonding + deposited
  balance : s'.balance = balance
  window : (∀ o ∈ s.window, o.Fair) → ∀ o ∈ s'.window, o.Fair

theorem saturatingAdd_exact {w a b : ℕ} (fits : a + b ≤ maxValue w) :
    saturatingAdd w a b = a + b := min_eq_left fits

section
variable {s s' : StakeLedger} {addr : Bytes} {p : Position}

theorem Kept.totalSponsored_le (kept : Kept s) : s.totalSponsored ≤ s.totalBonded :=
  kept.sponsored.mono kept.bonded kept.lien

theorem Kept.totalSponsoredUnbonding_le (kept : Kept s) :
    s.totalSponsoredUnbonding ≤ s.totalUnbonding :=
  kept.sponsoredUnbonding.mono kept.unbondings kept.unbondingLien

theorem Revised.kept (h : Revised s s' addr p) (kept : Kept s) (lien : p.sponsored ≤ p.bond)
    (unbondingLien : p.sponsoredUnbonding ≤ p.unbonding) : Kept s' := by
  refine ⟨?_, ?_, ?_, ?_, fun a => ?_, fun a => ?_⟩
  · rw [h.bond]
    exact kept.bonded.update h.totalBonded
  · rw [h.unbonding]
    exact kept.unbondings.update h.totalUnbonding
  · rw [h.sponsored]
    exact kept.sponsored.update h.totalSponsored
  · rw [h.sponsoredUnbonding]
    exact kept.sponsoredUnbonding.update h.totalSponsoredUnbonding
  · rw [h.sponsored, h.bond]
    by_cases same : a = addr
    · simpa [same] using lien
    · simpa [same] using kept.lien a
  · rw [h.sponsoredUnbonding, h.unbonding]
    by_cases same : a = addr
    · simpa [same] using unbondingLien
    · simpa [same] using kept.unbondingLien a

theorem Revised.settles (addr : Bytes) (deposited withdrawn : ℕ) (h : Revised s s' addr p) (kept : Kept s)
    (lien : p.sponsored ≤ p.bond) (unbondingLien : p.sponsoredUnbonding ≤ p.unbonding)
    (stake : p.bond + p.unbonding + withdrawn =
      s.bond addr + s.unbondingAmount addr + deposited)
    (window : s'.window = s.window) : Settles s s' deposited withdrawn s'.balance where
  kept := h.kept kept lien unbondingLien
  owed := by
    have bonded := h.totalBonded
    have unbondings := h.totalUnbonding
    omega
  balance := rfl
  window fair := by rwa [window]

end

/-! ### Balances -/

def Guarded (e : VmError) : Prop := ∃ msg, e = .invalidTransaction msg

theorem checkedAdd_eq {a c : ℕ} {e : VmError} (fits : a + c ≤ maxValue 128) :
    checkedAdd a c e = .ok (a + c) := if_pos fits

theorem checkedSub_eq {a c : ℕ} {e : VmError} (enough : c ≤ a) :
    checkedSub a c e = .ok (a - c) := if_pos enough

theorem requireUnfrozen_meets (view : StakeView) :
    Meets (requireUnfrozen view) (fun _ => True) Guarded := by
  unfold requireUnfrozen
  cases view.frozen with
  | none => exact trivial
  | some f => exact ⟨_, rfl⟩

section
variable [StakeAccounts]

def debit (b : Bytes → ℕ) (addr : Bytes) (n : ℕ) : Bytes → ℕ :=
  Function.update b (StakeAccounts.account addr) (b (StakeAccounts.account addr) - n)

def credit (b : Bytes → ℕ) (addr : Bytes) (n : ℕ) : Bytes → ℕ :=
  Function.update b (StakeAccounts.account addr) (b (StakeAccounts.account addr) + n)

variable {b : Bytes → ℕ} {addr : Bytes} {n m total : ℕ}

@[simp] theorem debit_zero : debit b addr 0 = b := by simp [debit]

@[simp] theorem credit_zero : credit b addr 0 = b := by simp [credit]

theorem debit_debit : debit (debit b addr n) addr m = debit b addr (n + m) := by
  unfold debit
  rw [Function.update_self, update_idem, Nat.sub_sub]

theorem sumsTo_debit (sums : SumsTo b total) (enough : n ≤ b (StakeAccounts.account addr)) :
    SumsTo (debit b addr n) (total - n) := by
  have within := sums.le (StakeAccounts.account addr)
  exact sums.update (by omega)

theorem sumsTo_credit (sums : SumsTo b total) : SumsTo (credit b addr n) (total + n) :=
  sums.update (by omega)

theorem le_credit (a : Bytes) : b a ≤ credit b addr n a := by
  unfold credit
  by_cases same : a = StakeAccounts.account addr
  · rw [same, Function.update_self]
    exact Nat.le_add_right _ _
  · rw [Function.update_of_ne same]

theorem debit_self :
    debit b addr n (StakeAccounts.account addr) = b (StakeAccounts.account addr) - n :=
  Function.update_self _ _ _

theorem sumsTo_move {recipient : Bytes} (sums : SumsTo b total)
    (enough : n ≤ b (StakeAccounts.account addr)) :
    SumsTo (credit (debit b addr n) recipient n) total := by
  have within := sums.le (StakeAccounts.account addr)
  have moved : SumsTo (credit (debit b addr n) recipient n) (total - n + n) :=
    sumsTo_credit (sumsTo_debit sums enough)
  rwa [Nat.sub_add_cancel (enough.trans within)] at moved

/-- The accepted refusal of a deposit: the source holds less. -/
def Short (s : StakeLedger) (source : Bytes) (amount : ℕ) (e : VmError) : Prop :=
  s.balanceOf source < amount ∧ e = .insufficientBalance amount (s.balanceOf source)

variable {s : StakeLedger}

theorem deposit_meets {source : Bytes} (sums : SumsTo s.balance total)
    (fits : total ≤ maxValue 128) :
    Meets (s.deposit source n) (fun s' => n ≤ s.balanceOf source ∧
      s' = { s with balance := credit (debit s.balance source n) vaultAddress n })
      (Short s source n) := by
  unfold StakeLedger.deposit
  by_cases enough : n ≤ s.balanceOf source
  · have left : SumsTo (debit s.balance source n) (total - n) := sumsTo_debit sums enough
    have vault := left.le (StakeAccounts.account vaultAddress)
    have within := sums.le (StakeAccounts.account source)
    have room : (s.setBalance source (s.balanceOf source - n)).balanceOf vaultAddress + n ≤
        maxValue 128 := by
      have held : n ≤ s.balance (StakeAccounts.account source) := enough
      change debit s.balance source n (StakeAccounts.account vaultAddress) + n ≤ maxValue 128
      omega
    rw [checkedSub_eq enough]
    change Meets (checkedAdd _ _ _ >>= _) _ _
    rw [checkedAdd_eq room]
    exact ⟨enough, rfl⟩
  · rw [checkedSub, if_neg enough]
    exact ⟨Nat.lt_of_not_le enough, rfl⟩

theorem payFromVault_eq {recipient : Bytes} (sums : SumsTo s.balance total)
    (fits : total ≤ maxValue 128) (enough : n ≤ s.balanceOf vaultAddress) :
    s.payFromVault recipient n =
      .ok { s with balance := credit (debit s.balance vaultAddress n) recipient n } := by
  unfold StakeLedger.payFromVault
  split_ifs with nothing
  · rw [nothing, debit_zero, credit_zero]
  · have left : SumsTo (debit s.balance vaultAddress n) (total - n) := sumsTo_debit sums enough
    have paid := left.le (StakeAccounts.account recipient)
    have within := sums.le (StakeAccounts.account vaultAddress)
    have room : (s.setBalance vaultAddress (s.balanceOf vaultAddress - n)).balanceOf recipient + n ≤
        maxValue 128 := by
      have held : n ≤ s.balance (StakeAccounts.account vaultAddress) := enough
      change debit s.balance vaultAddress n (StakeAccounts.account recipient) + n ≤ maxValue 128
      omega
    simp only [checkedSub_eq enough]
    change checkedAdd _ _ _ >>= _ = _
    rw [checkedAdd_eq room]
    rfl

theorem creditPool_eq (sums : SumsTo s.balance total) (fits : total + n ≤ maxValue 128) :
    s.creditPool n = .ok { s with
      balance := credit s.balance StakeAccounts.pool n
      fromSlashes := if n = 0 then s.fromSlashes else saturatingAdd 128 s.fromSlashes n } := by
  unfold StakeLedger.creditPool
  split_ifs with nothing
  · rw [nothing, credit_zero]
  · have within := sums.le (StakeAccounts.account StakeAccounts.pool)
    have room : s.balanceOf StakeAccounts.pool + n ≤ maxValue 128 := by
      change s.balance (StakeAccounts.account StakeAccounts.pool) + n ≤ maxValue 128
      omega
    rw [checkedAdd_eq room]
    rfl

end

/-! ### Bonding and leaving -/

section
variable {s : StakeLedger} {view : StakeView} {addr : Bytes} {amount : ℕ}

theorem addBond_meets (kept : Kept s)
    (fits : s.totalBonded + s.totalUnbonding + amount ≤ maxValue 128) :
    Meets (s.addBond view addr amount) (fun s' => Revised s s' addr
      ⟨s.bond addr + amount, s.unbondingAmount addr, s.sponsored addr, s.sponsoredUnbonding addr⟩ ∧
      s'.balance = s.balance ∧ s'.window = s.window) Guarded := by
  have bond := kept.bonded.le addr
  refine (requireUnfrozen_meets view).bind fun _ _ => ?_
  rw [checkedAdd_eq (by omega)]
  change Meets (checkedAdd _ _ _ >>= _) _ _
  rw [checkedAdd_eq (by omega)]
  refine ⟨⟨rfl, ?_, ?_, ?_, ?_, rfl, rfl, rfl⟩, rfl, rfl⟩
  · exact (update_eq_self addr s.unbondingAmount).symm
  · exact (update_eq_self addr s.sponsored).symm
  · exact (update_eq_self addr s.sponsoredUnbonding).symm
  · change s.totalBonded + amount + s.bond addr = s.totalBonded + (s.bond addr + amount)
    omega

theorem addBond_settles (kept : Kept s)
    (fits : s.totalBonded + s.totalUnbonding + amount ≤ maxValue 128) :
    Meets (s.addBond view addr amount) (fun s' => Settles s s' amount 0 s.balance) Guarded := by
  refine (addBond_meets kept fits).imp fun s' ⟨revised, balance, window⟩ => ?_
  have lien := kept.lien addr
  rw [← balance]
  refine revised.settles addr amount 0 kept ?_ (kept.unbondingLien addr) ?_ window
  · change s.sponsored addr ≤ s.bond addr + amount
    omega
  · change s.bond addr + amount + s.unbondingAmount addr + 0 = _
    omega

theorem addSponsoredBond_settles (kept : Kept s)
    (fits : s.totalBonded + s.totalUnbonding + amount ≤ maxValue 128) :
    Meets (s.addSponsoredBond view addr amount)
      (fun s' => Settles s s' amount 0 s.balance) Guarded := by
  refine (addBond_meets kept fits).bind fun s₁ ⟨revised, balance, window⟩ => ?_
  have lien := kept.lien addr
  have bond := kept.bonded.le addr
  have within := kept.sponsored.le addr
  have totals := kept.totalSponsored_le
  have same : s₁.sponsored addr = s.sponsored addr := by simp [revised.sponsored]
  have total : s₁.totalSponsored = s.totalSponsored := by
    have moved := revised.totalSponsored
    simp only at moved
    omega
  rw [checkedAdd_eq (by omega)]
  have exact_total : saturatingAdd 128 (s₁.totalSponsored - s₁.sponsored addr)
      (s₁.sponsored addr + amount) = s.totalSponsored + amount := by
    rw [saturatingAdd_exact (by omega)]
    omega
  have final : Revised s (s₁.setSponsored addr (s₁.sponsored addr + amount)) addr
      ⟨s.bond addr + amount, s.unbondingAmount addr, s.sponsored addr + amount,
        s.sponsoredUnbonding addr⟩ := by
    refine ⟨revised.bond, revised.unbonding, ?_, revised.sponsoredUnbonding, revised.totalBonded,
      revised.totalUnbonding, ?_, revised.totalSponsoredUnbonding⟩
    · simp [StakeLedger.setSponsored, revised.sponsored]
    · change saturatingAdd 128 _ _ + s.sponsored addr =
        s.totalSponsored + (s.sponsored addr + amount)
      rw [exact_total]
      omega
  have settled := final.settles addr amount 0 kept ?_
    (kept.unbondingLien addr) ?_ window
  · rwa [show (s₁.setSponsored addr (s₁.sponsored addr + amount)).balance = s.balance
      from balance] at settled
  · change s.sponsored addr + amount ≤ s.bond addr + amount
    omega
  · change s.bond addr + amount + s.unbondingAmount addr + 0 = _
    omega

@[simp] theorem unbondingAmount_writeUnbonding {u : Option Unbonding} :
    (s.writeUnbonding addr u).unbondingAmount =
      Function.update s.unbondingAmount addr (u.elim 0 Unbonding.amount) := by
  funext a
  simp only [StakeLedger.writeUnbonding, StakeLedger.unbondingAmount]
  by_cases same : a = addr
  · subst same
    rw [Function.update_self, Function.update_self]
    cases u with
    | none => rfl
    | some u =>
      by_cases something : 0 < u.amount
      · simp [Option.filter, something]
      · have nothing : u.amount = 0 := by omega
        simp [Option.filter, nothing]
  · rw [Function.update_of_ne same, Function.update_of_ne same]
    rfl

theorem leave_settles (addr : Bytes) (amount part : ℕ) {s' : StakeLedger} (kept : Kept s)
    (fits : s.totalBonded + s.totalUnbonding ≤ maxValue 128) (enough : amount ≤ s.bond addr)
    (owed : part ≤ s.sponsored addr) (within : part ≤ amount)
    (rest : s.sponsored addr - part ≤ s.bond addr - amount)
    (bond : s'.bond = Function.update s.bond addr (s.bond addr - amount))
    (unbonding : s'.unbondingAmount =
      Function.update s.unbondingAmount addr (s.unbondingAmount addr + amount))
    (sponsored : s'.sponsored = Function.update s.sponsored addr (s.sponsored addr - part))
    (sponsoredUnbonding : s'.sponsoredUnbonding = Function.update s.sponsoredUnbonding addr
      (saturatingAdd 128 (s.sponsoredUnbonding addr) part))
    (totalBonded : s'.totalBonded = s.totalBonded - amount)
    (totalUnbonding : s'.totalUnbonding = saturatingAdd 128 s.totalUnbonding amount)
    (totalSponsored : s'.totalSponsored =
      saturatingAdd 128 (s.totalSponsored - s.sponsored addr) (s.sponsored addr - part))
    (totalSponsoredUnbonding : s'.totalSponsoredUnbonding =
      saturatingAdd 128 (s.totalSponsoredUnbonding - s.sponsoredUnbonding addr)
        (saturatingAdd 128 (s.sponsoredUnbonding addr) part))
    (balance : s'.balance = s.balance) (window : s'.window = s.window) :
    Settles s s' 0 0 s.balance := by
  have unbondingLien := kept.unbondingLien addr
  have bonds := kept.bonded.le addr
  have unbondings := kept.unbondings.le addr
  have liens := kept.sponsored.le addr
  have leaving := kept.sponsoredUnbonding.le addr
  have totals := kept.totalSponsored_le
  have totals' := kept.totalSponsoredUnbonding_le
  rw [saturatingAdd_exact (by omega)] at sponsoredUnbonding totalUnbonding totalSponsored
  rw [saturatingAdd_exact (a := s.sponsoredUnbonding addr) (by omega),
    saturatingAdd_exact (by omega)] at totalSponsoredUnbonding
  rw [← balance]
  have revised : Revised s s' addr ⟨s.bond addr - amount, s.unbondingAmount addr + amount,
      s.sponsored addr - part, s.sponsoredUnbonding addr + part⟩ := by
    refine ⟨bond, unbonding, sponsored, sponsoredUnbonding, ?_, ?_, ?_, ?_⟩
    all_goals
      simp only
      omega
  refine revised.settles addr 0 0 kept rest ?_ ?_ window
  all_goals
    simp only
    omega

theorem recallSponsoredBond_settles (kept : Kept s)
    (fits : s.totalBonded + s.totalUnbonding ≤ maxValue 128) :
    Meets (s.recallSponsoredBond view addr amount)
      (fun r => Settles s r.1 0 0 s.balance) Guarded := by
  have lien := kept.lien addr
  have bond := kept.bonded.le addr
  have unbonding := kept.unbondings.le addr
  unfold StakeLedger.recallSponsoredBond
  refine (requireUnfrozen_meets view).bind fun _ _ => ?_
  refine (Meets.ensure fun _ => ⟨_, rfl⟩).bind fun _ guarded => ?_
  have enough : amount ≤ s.sponsored addr := by omega
  change Meets (checkedAdd (s.unbondingAmount addr) amount _ >>= _) _ _
  rw [checkedAdd_eq (by omega)]
  change Meets (checkedSub _ _ _ >>= _) _ _
  rw [checkedSub_eq (by omega)]
  exact leave_settles addr amount amount kept fits (by omega) enough
    le_rfl (by omega) rfl unbondingAmount_writeUnbonding rfl rfl rfl rfl rfl rfl rfl rfl

theorem beginUnbonding_settles (kept : Kept s)
    (fits : s.totalBonded + s.totalUnbonding ≤ maxValue 128) :
    Meets (s.beginUnbonding view addr) (fun r => Settles s r.1 0 0 s.balance) Guarded := by
  have lien := kept.lien addr
  have bond := kept.bonded.le addr
  have unbonding := kept.unbondings.le addr
  have leaving := kept.sponsoredUnbonding.le addr
  have totals := kept.totalSponsored_le
  have totals' := kept.totalSponsoredUnbonding_le
  have sponsored := kept.sponsored.le addr
  unfold StakeLedger.beginUnbonding
  refine (requireUnfrozen_meets view).bind fun _ _ => ?_
  simp only
  split_ifs with nothing
  · exact ⟨kept, rfl, rfl, id⟩
  rw [checkedAdd_eq (by omega)]
  change Meets (if 0 < s.sponsored addr then _ else _) _ _
  split_ifs with backed
  · exact leave_settles addr (s.bond addr) (s.sponsored addr) kept fits le_rfl le_rfl lien (by omega) (by simp; rfl) unbondingAmount_writeUnbonding (by simp; rfl) rfl
      rfl rfl (by simp; rfl) rfl rfl rfl
  · have same : saturatingAdd 128 (s.sponsoredUnbonding addr) 0 = s.sponsoredUnbonding addr :=
      saturatingAdd_exact (by omega)
    refine leave_settles addr (s.bond addr) 0 kept fits le_rfl
      (Nat.zero_le _) (Nat.zero_le _) (by omega) (by simp; rfl) unbondingAmount_writeUnbonding ?_ ?_
      rfl rfl ?_ ?_ rfl rfl
    · exact (update_eq_self addr s.sponsored).symm
    · rw [same]
      exact (update_eq_self addr s.sponsoredUnbonding).symm
    · change s.totalSponsored = _
      rw [saturatingAdd_exact (by omega)]
      omega
    · change s.totalSponsoredUnbonding = _
      rw [same, saturatingAdd_exact (by omega)]
      omega

variable [StakeAccounts] {total : ℕ}

theorem releaseRecalled_settles (kept : Kept s) (sums : SumsTo s.balance total)
    (fits : total ≤ maxValue 128)
    (covered : s.totalBonded + s.totalUnbonding ≤ s.balanceOf vaultAddress) :
    Meets (s.releaseRecalled view addr) (fun r => Settles s r.1 0 r.2
      (credit (debit s.balance vaultAddress r.2) StakeAccounts.treasury r.2)) Guarded := by
  have unbondingLien := kept.unbondingLien addr
  have leaving := kept.sponsoredUnbonding.le addr
  have totals := kept.totalSponsoredUnbonding_le
  have within := sums.le (StakeAccounts.account vaultAddress)
  change _ ≤ s.balance (StakeAccounts.account vaultAddress) at covered
  unfold StakeLedger.releaseRecalled
  refine (requireUnfrozen_meets view).bind fun _ _ => ?_
  simp only
  cases record : (s.unbonding addr).filter fun _ => 0 < s.sponsoredUnbonding addr with
  | none => exact ⟨_, rfl⟩
  | some u =>
    have held : s.unbonding addr = some u := (Option.filter_eq_some_iff.1 record).1
    have amount : s.unbondingAmount addr = u.amount := by simp [StakeLedger.unbondingAmount, held]
    refine (Meets.ensure fun _ => ⟨_, rfl⟩).bind fun _ _ => ?_
    have returned : min (s.sponsoredUnbonding addr) u.amount = s.sponsoredUnbonding addr :=
      min_eq_left (by omega)
    simp only [returned]
    rw [payFromVault_eq sums fits (n := s.sponsoredUnbonding addr) (by
      change _ ≤ s.balance (StakeAccounts.account vaultAddress)
      omega)]
    have rest : saturatingAdd 128 (s.totalSponsoredUnbonding - s.sponsoredUnbonding addr) 0 =
        s.totalSponsoredUnbonding - s.sponsoredUnbonding addr := saturatingAdd_exact (by omega)
    refine Revised.settles (s := s) addr 0 _ (p := ⟨s.bond addr,
      u.amount - s.sponsoredUnbonding addr, s.sponsored addr, 0⟩)
      ⟨?_, unbondingAmount_writeUnbonding, ?_, rfl, rfl, ?_, rfl, ?_⟩ kept (kept.lien addr)
      (Nat.zero_le _) ?_ rfl
    · exact (update_eq_self addr s.bond).symm
    · exact (update_eq_self addr s.sponsored).symm
    · change s.totalUnbonding - s.sponsoredUnbonding addr + s.unbondingAmount addr =
        s.totalUnbonding + (u.amount - s.sponsoredUnbonding addr)
      omega
    · change saturatingAdd 128 (s.totalSponsoredUnbonding - s.sponsoredUnbonding addr) 0 +
        s.sponsoredUnbonding addr = s.totalSponsoredUnbonding + 0
      omega
    · change s.bond addr + (u.amount - s.sponsoredUnbonding addr) + s.sponsoredUnbonding addr =
        s.bond addr + s.unbondingAmount addr + 0
      omega

theorem withdrawUnbondedSplit_settles {payee : Bytes} (kept : Kept s)
    (sums : SumsTo s.balance total) (fits : total ≤ maxValue 128)
    (covered : s.totalBonded + s.totalUnbonding ≤ s.balanceOf vaultAddress) :
    Meets (s.withdrawUnbondedSplit view addr payee) (fun r => Settles s r.1 0 (r.2.1 + r.2.2)
      (credit (debit (credit (debit s.balance vaultAddress r.2.2) StakeAccounts.treasury r.2.2)
        vaultAddress r.2.1) payee r.2.1)) Guarded := by
  have unbondingLien := kept.unbondingLien addr
  have unbonding := kept.unbondings.le addr
  have leaving := kept.sponsoredUnbonding.le addr
  have totals := kept.totalSponsoredUnbonding_le
  have within := sums.le (StakeAccounts.account vaultAddress)
  have covers : s.totalBonded + s.totalUnbonding ≤
    s.balance (StakeAccounts.account vaultAddress) := covered
  unfold StakeLedger.withdrawUnbondedSplit
  refine (requireUnfrozen_meets view).bind fun _ _ => ?_
  simp only
  cases record : s.unbonding addr with
  | none => exact ⟨_, rfl⟩
  | some u =>
    have amount : s.unbondingAmount addr = u.amount := by
      simp [StakeLedger.unbondingAmount, record]
    refine (Meets.ensure fun _ => ⟨_, rfl⟩).bind fun _ _ => ?_
    refine (Meets.ensure fun short => absurd (by omega) short).bind fun _ _ => ?_
    have returned : min (s.sponsoredUnbonding addr) u.amount = s.sponsoredUnbonding addr :=
      min_eq_left (by omega)
    simp only [returned]
    have enough : s.sponsoredUnbonding addr ≤ s.balanceOf vaultAddress := by omega
    rw [payFromVault_eq sums fits enough]
    -- the treasury may name the vault's own account, which then holds all the more
    have left : u.amount - s.sponsoredUnbonding addr ≤
        credit (debit s.balance vaultAddress (s.sponsoredUnbonding addr)) StakeAccounts.treasury
          (s.sponsoredUnbonding addr) (StakeAccounts.account vaultAddress) := by
      refine le_trans ?_ (le_credit _)
      rw [debit_self]
      omega
    change Meets (StakeLedger.payFromVault { s with balance := credit _ _ _ } payee _ >>= _) _ _
    rw [payFromVault_eq (sumsTo_move sums enough) fits left]
    have rest : saturatingAdd 128 (s.totalSponsoredUnbonding - s.sponsoredUnbonding addr) 0 =
        s.totalSponsoredUnbonding - s.sponsoredUnbonding addr := saturatingAdd_exact (by omega)
    refine Revised.settles (s := s) addr 0 _ (p := ⟨s.bond addr, 0, s.sponsored addr, 0⟩)
      ⟨?_, unbondingAmount_writeUnbonding, ?_, rfl, rfl, ?_, rfl, ?_⟩ kept (kept.lien addr)
      (Nat.zero_le _) ?_ rfl
    · exact (update_eq_self addr s.bond).symm
    · exact (update_eq_self addr s.sponsored).symm
    · change s.totalUnbonding - u.amount + s.unbondingAmount addr = s.totalUnbonding + 0
      omega
    · change saturatingAdd 128 (s.totalSponsoredUnbonding - s.sponsoredUnbonding addr) 0 +
        s.sponsoredUnbonding addr = s.totalSponsoredUnbonding + 0
      omega
    · change s.bond addr + 0 + (u.amount - s.sponsoredUnbonding addr + s.sponsoredUnbonding addr) =
        s.bond addr + s.unbondingAmount addr + 0
      omega

end

end Tenzro.Staking
