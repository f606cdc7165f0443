import Tenzro.StakingSteps

set_option autoImplicit false

/-!
# What a slash takes

A slash leaves the records kept, takes what it reports out of the vault, and never refuses.
-/
namespace Tenzro.Staking
open FixedWidth Outcome Book List Function

/-! ### Shares -/

theorem shareOfRest_le {rest bps : ℕ} (bound : bps ≤ 10000) : shareOfRest rest bps ≤ rest := by
  unfold shareOfRest
  have h := Nat.mul_le_mul_left rest bound
  omega

theorem bpsShare_le (amount bps : ℕ) : bpsShare amount bps ≤ amount := by
  have bound : min bps 10000 ≤ 10000 := min_le_right _ _
  have lots := Nat.mul_le_mul_left (amount / 10000) bound
  have rest : shareOfRest (amount % 10000) (min bps 10000) ≤ amount % 10000 := shareOfRest_le bound
  simp only [bpsShare, shareOfLots]
  omega

section
variable {part remaining whole : ℕ}

theorem share_le_part (left : remaining ≤ whole) : part * remaining / whole ≤ part := by
  rcases Nat.eq_zero_or_pos whole with nothing | pos
  · simp [nothing]
  · calc part * remaining / whole ≤ part * whole / whole :=
          Nat.div_le_div_right (Nat.mul_le_mul_left part left)
      _ = part := Nat.mul_div_cancel part pos

theorem scale_le_remaining : scale part remaining whole ≤ remaining := by
  unfold scale
  split_ifs with nothing
  · exact Nat.zero_le _
  · exact min_le_right _ _

theorem scale_eq (fits : whole ≤ maxValue 128) (within : part ≤ whole) (left : remaining ≤ whole) :
    scale part remaining whole = part * remaining / whole := by
  have by_part : part * remaining / whole ≤ part := share_le_part left
  have by_rest : remaining * part / whole ≤ remaining := share_le_part within
  rw [mul_comm] at by_rest
  unfold scale
  split_ifs with nothing
  · simp [nothing]
  · simp only
    rw [if_pos (by omega), min_eq_left by_rest]

theorem scale_le_part (fits : whole ≤ maxValue 128) (within : part ≤ whole)
    (left : remaining ≤ whole) : scale part remaining whole ≤ part := by
  rw [scale_eq fits within left]
  exact share_le_part left

theorem scale_whole (fits : whole ≤ maxValue 128) (within : part ≤ whole) :
    scale part whole whole = part := by
  rw [scale_eq fits within le_rfl]
  rcases Nat.eq_zero_or_pos whole with nothing | pos
  · subst nothing
    simp only [Nat.div_zero]
    omega
  · exact Nat.mul_div_cancel part pos

end

/-! ### One record at a time -/

section
variable {s s₁ s₂ : StakeLedger} {addr : Bytes} {p q : Position} {v : ℕ}

def StakeLedger.position (s : StakeLedger) (addr : Bytes) : Position where
  bond := s.bond addr
  unbonding := s.unbondingAmount addr
  sponsored := s.sponsored addr
  sponsoredUnbonding := s.sponsoredUnbonding addr

theorem Revised.refl (s : StakeLedger) (addr : Bytes) : Revised s s addr (s.position addr) where
  bond := (update_eq_self addr s.bond).symm
  unbonding := (update_eq_self addr s.unbondingAmount).symm
  sponsored := (update_eq_self addr s.sponsored).symm
  sponsoredUnbonding := (update_eq_self addr s.sponsoredUnbonding).symm
  totalBonded := rfl
  totalUnbonding := rfl
  totalSponsored := rfl
  totalSponsoredUnbonding := rfl

theorem Revised.position (h : Revised s s₁ addr p) : s₁.position addr = p := by
  unfold StakeLedger.position
  rw [h.bond, h.unbonding, h.sponsored, h.sponsoredUnbonding]
  simp

theorem Revised.trans (first : Revised s s₁ addr p) (second : Revised s₁ s₂ addr q) :
    Revised s s₂ addr q := by
  have at_addr := first.position
  simp only [StakeLedger.position, Position.ext_iff] at at_addr
  obtain ⟨bond, unbonding, sponsored, sponsoredUnbonding⟩ := at_addr
  refine ⟨?_, ?_, ?_, ?_, ?_, ?_, ?_, ?_⟩
  · rw [second.bond, first.bond, update_idem]
  · rw [second.unbonding, first.unbonding, update_idem]
  · rw [second.sponsored, first.sponsored, update_idem]
  · rw [second.sponsoredUnbonding, first.sponsoredUnbonding, update_idem]
  · have h := first.totalBonded
    have h' := second.totalBonded
    omega
  · have h := first.totalUnbonding
    have h' := second.totalUnbonding
    omega
  · have h := first.totalSponsored
    have h' := second.totalSponsored
    omega
  · have h := first.totalSponsoredUnbonding
    have h' := second.totalSponsoredUnbonding
    omega

/-- A revision that leaves the balances and the window. -/
structure Rewritten (s s' : StakeLedger) (addr : Bytes) (p : Position) : Prop
    extends Revised s s' addr p where
  balance : s'.balance = s.balance
  window : s'.window = s.window

theorem Rewritten.refl : Rewritten s s addr (s.position addr) := ⟨.refl s addr, rfl, rfl⟩

theorem Rewritten.trans (first : Rewritten s s₁ addr p) (second : Rewritten s₁ s₂ addr q) :
    Rewritten s s₂ addr q :=
  ⟨first.toRevised.trans second.toRevised, second.balance.trans first.balance,
    second.window.trans first.window⟩

theorem setSponsored_rewritten (within : s.sponsored addr ≤ s.totalSponsored)
    (fits : s.totalSponsored ≤ maxValue 128) (less : v ≤ s.sponsored addr) :
    Rewritten s (s.setSponsored addr v) addr { s.position addr with sponsored := v } where
  toRevised := by
    refine { Revised.refl s addr with sponsored := rfl, totalSponsored := ?_ }
    change saturatingAdd 128 (s.totalSponsored - s.sponsored addr) v + s.sponsored addr =
      s.totalSponsored + v
    rw [saturatingAdd_exact (by omega)]
    omega
  balance := rfl
  window := rfl

theorem setSponsoredUnbonding_rewritten
    (within : s.sponsoredUnbonding addr ≤ s.totalSponsoredUnbonding)
    (fits : s.totalSponsoredUnbonding ≤ maxValue 128) (less : v ≤ s.sponsoredUnbonding addr) :
    Rewritten s (s.setSponsoredUnbonding addr v) addr
      { s.position addr with sponsoredUnbonding := v } where
  toRevised := by
    refine { Revised.refl s addr with
      sponsoredUnbonding := rfl, totalSponsoredUnbonding := ?_ }
    change saturatingAdd 128 (s.totalSponsoredUnbonding - s.sponsoredUnbonding addr) v +
      s.sponsoredUnbonding addr = s.totalSponsoredUnbonding + v
    rw [saturatingAdd_exact (by omega)]
    omega
  balance := rfl
  window := rfl

theorem scaleSponsored_rewritten (s : StakeLedger) (addr : Bytes) {b u l m : ℕ} (fromBond : ℕ)
    (here : s.position addr = ⟨b, u, l, m⟩)
    (within : l ≤ s.totalSponsored) (fits : s.totalSponsored ≤ maxValue 128) (lien : l ≤ b)
    (bond : b ≤ maxValue 128) :
    Rewritten s (s.scaleSponsored addr b fromBond) addr ⟨b, u, scale l (b - fromBond) b, m⟩ := by
  obtain ⟨rfl, rfl, rfl, rfl⟩ := Position.mk.inj here
  have less := scale_le_part bond lien (Nat.sub_le (s.bond addr) fromBond)
  unfold StakeLedger.scaleSponsored
  simp only
  split_ifs with taken
  · exact setSponsored_rewritten within fits less
  · have same : scale (s.sponsored addr) (s.bond addr - fromBond) (s.bond addr) =
        s.sponsored addr := by
      rcases Nat.eq_zero_or_pos fromBond with nothing | some_bond
      · rw [nothing, Nat.sub_zero, scale_whole bond lien]
      · omega
    rw [same]
    exact .refl

theorem scaleSponsoredUnbonding_rewritten {b u l m : ℕ} (fromUnbonding : ℕ)
    (unbonding : Option Unbonding)
    (here : s.position addr = ⟨b, u, l, m⟩) (record : unbonding.elim 0 Unbonding.amount = u)
    (within : m ≤ s.totalSponsoredUnbonding) (fits : s.totalSponsoredUnbonding ≤ maxValue 128)
    (lien : m ≤ u) (amount : u ≤ maxValue 128) :
    Rewritten s (s.scaleSponsoredUnbonding addr unbonding fromUnbonding) addr
      ⟨b, u, l, scale m (u - fromUnbonding) u⟩ := by
  obtain ⟨rfl, rfl, rfl, rfl⟩ := Position.mk.inj here
  have less := scale_le_part amount lien (Nat.sub_le (s.unbondingAmount addr) fromUnbonding)
  have unchanged (nothing : fromUnbonding = 0 ∨ s.sponsoredUnbonding addr = 0) :
      scale (s.sponsoredUnbonding addr) (s.unbondingAmount addr - fromUnbonding)
        (s.unbondingAmount addr) = s.sponsoredUnbonding addr := by
    rcases nothing with nothing | nothing
    · rw [nothing, Nat.sub_zero, scale_whole amount lien]
    · omega
  unfold StakeLedger.scaleSponsoredUnbonding
  cases unbonding with
  | none =>
    change 0 = s.unbondingAmount addr at record
    rw [unchanged (.inr (by omega))]
    exact .refl
  | some u =>
    change u.amount = s.unbondingAmount addr at record
    simp only [record]
    split_ifs with taken
    · exact setSponsoredUnbonding_rewritten within fits less
    · rw [unchanged (by omega)]
      exact .refl

theorem lowerBond_rewritten {b u l m : ℕ} (fromBond : ℕ) (here : s.position addr = ⟨b, u, l, m⟩)
    (within : b ≤ s.totalBonded) (enough : fromBond ≤ b) :
    Rewritten s (s.lowerBond addr b fromBond) addr ⟨b - fromBond, u, l, m⟩ := by
  obtain ⟨rfl, rfl, rfl, rfl⟩ := Position.mk.inj here
  unfold StakeLedger.lowerBond
  split_ifs with taken
  · refine ⟨{ Revised.refl s addr with bond := rfl, totalBonded := ?_ }, rfl, rfl⟩
    change s.totalBonded - fromBond + s.bond addr = s.totalBonded + (s.bond addr - fromBond)
    omega
  · have nothing : fromBond = 0 := by omega
    rw [nothing]
    exact .refl

theorem lowerUnbonding_rewritten {b u l m : ℕ} (fromUnbonding : ℕ)
    (unbonding : Option Unbonding)
    (here : s.position addr = ⟨b, u, l, m⟩) (record : unbonding.elim 0 Unbonding.amount = u)
    (within : u ≤ s.totalUnbonding) (enough : fromUnbonding ≤ u) :
    Rewritten s (s.lowerUnbonding addr unbonding fromUnbonding) addr
      ⟨b, u - fromUnbonding, l, m⟩ := by
  obtain ⟨rfl, rfl, rfl, rfl⟩ := Position.mk.inj here
  unfold StakeLedger.lowerUnbonding
  cases unbonding with
  | none =>
    change 0 = s.unbondingAmount addr at record
    have nothing : fromUnbonding = 0 := by omega
    rw [nothing]
    exact .refl
  | some u =>
    change u.amount = s.unbondingAmount addr at record
    simp only [record]
    split_ifs with taken
    · refine ⟨{ Revised.refl s addr with
        unbonding := unbondingAmount_writeUnbonding, totalUnbonding := ?_ }, rfl, rfl⟩
      change s.totalUnbonding - fromUnbonding + s.unbondingAmount addr =
        s.totalUnbonding + (s.unbondingAmount addr - fromUnbonding)
      omega
    · have nothing : fromUnbonding = 0 := by omega
      rw [nothing]
      exact .refl

end

/-! ### Slashes -/

section
variable [StakeAccounts] {s : StakeLedger} {addr : Bytes} {fromBond fromUnbonding : ℕ}
  {accepted : VmError → Prop}

theorem remove_settles (kept : Kept s) (fits : s.totalBonded + s.totalUnbonding ≤ maxValue 128)
    (covered : s.totalBonded + s.totalUnbonding ≤ s.balanceOf vaultAddress)
    (bonded : fromBond ≤ s.bond addr) (unbonding : fromUnbonding ≤ s.unbondingAmount addr) :
    Meets (s.remove addr (s.bond addr) (s.unbonding addr) fromBond fromUnbonding)
      (fun s' => Settles s s' 0 (fromBond + fromUnbonding)
        (debit s.balance vaultAddress (fromBond + fromUnbonding))) accepted := by
  have bond_le := kept.bonded.le addr
  have amount_le := kept.unbondings.le addr
  have sponsored_le := kept.sponsored.le addr
  have leaving_le := kept.sponsoredUnbonding.le addr
  have totals := kept.totalSponsored_le
  have totals' := kept.totalSponsoredUnbonding_le
  have lien := kept.lien addr
  have unbondingLien := kept.unbondingLien addr
  unfold StakeLedger.remove
  simp only
  split_ifs with nothing
  · rw [nothing, debit_zero]
    exact ⟨kept, rfl, rfl, id⟩
  rw [checkedSub_eq (by omega)]
  set paid := s.setBalance vaultAddress (s.balanceOf vaultAddress - (fromBond + fromUnbonding))
  have first := scaleSponsored_rewritten paid addr fromBond rfl
    sponsored_le (totals.trans (by omega)) lien (bond_le.trans (by omega))
  have second := scaleSponsoredUnbonding_rewritten fromUnbonding (s.unbonding addr)
    first.position rfl
    (leaving_le.trans (Nat.add_right_cancel first.totalSponsoredUnbonding).ge)
    ((Nat.add_right_cancel first.totalSponsoredUnbonding).le.trans (totals'.trans (by omega)))
    unbondingLien (amount_le.trans (by omega))
  have third := lowerBond_rewritten fromBond (first.trans second).position
    (bond_le.trans (Nat.add_right_cancel (first.trans second).totalBonded).ge) bonded
  have fourth := lowerUnbonding_rewritten fromUnbonding (s.unbonding addr)
    ((first.trans second).trans third).position rfl
    (amount_le.trans (Nat.add_right_cancel ((first.trans second).trans third).totalUnbonding).ge)
    unbonding
  have whole := ((first.trans second).trans third).trans fourth
  have revised : Revised s _ addr _ := ⟨whole.bond, whole.unbonding, whole.sponsored,
    whole.sponsoredUnbonding, whole.totalBonded, whole.totalUnbonding, whole.totalSponsored,
    whole.totalSponsoredUnbonding⟩
  have settled := revised.settles addr 0 (fromBond + fromUnbonding) kept
    scale_le_remaining scale_le_remaining ?_ whole.window
  · rw [whole.balance] at settled
    exact settled
  · change s.bond addr - fromBond + (s.unbondingAmount addr - fromUnbonding) +
      (fromBond + fromUnbonding) = s.bond addr + s.unbondingAmount addr + 0
    omega

theorem slash_settles {bps : ℕ} (kept : Kept s)
    (fits : s.totalBonded + s.totalUnbonding ≤ maxValue 128)
    (covered : s.totalBonded + s.totalUnbonding ≤ s.balanceOf vaultAddress) :
    Meets (s.slash addr bps) (fun r => r.2 ≤ s.balanceOf vaultAddress ∧
      Settles s r.1 0 r.2 (debit s.balance vaultAddress r.2)) accepted := by
  have bond_le := kept.bonded.le addr
  have amount_le := kept.unbondings.le addr
  have bonded := bpsShare_le (s.bond addr) bps
  have unbonding := bpsShare_le (s.unbondingAmount addr) bps
  have split : slashSplit (s.bond addr) ((s.unbonding addr).elim 0 Unbonding.amount) bps =
      some (bpsShare (s.bond addr) bps, bpsShare (s.unbondingAmount addr) bps,
        bpsShare (s.bond addr) bps + bpsShare (s.unbondingAmount addr) bps) :=
    if_pos (show bpsShare (s.bond addr) bps + bpsShare (s.unbondingAmount addr) bps ≤ _ by omega)
  unfold StakeLedger.slash
  simp only [split]
  split_ifs with nothing
  · exact ⟨Nat.zero_le _, kept, rfl, debit_zero.symm, id⟩
  · refine (remove_settles kept fits covered bonded unbonding).bind fun s' settled => ?_
    exact ⟨by change _ + _ ≤ _; omega, settled⟩

theorem take_settles {amount : ℕ} (kept : Kept s)
    (fits : s.totalBonded + s.totalUnbonding ≤ maxValue 128)
    (covered : s.totalBonded + s.totalUnbonding ≤ s.balanceOf vaultAddress) :
    Meets (s.take addr amount) (fun r => r.2.1 + r.2.2 ≤ amount ∧
      r.2.1 + r.2.2 ≤ s.balanceOf vaultAddress ∧
      Settles s r.1 0 (r.2.1 + r.2.2) (debit s.balance vaultAddress (r.2.1 + r.2.2))) accepted := by
  have bond_le := kept.bonded.le addr
  have amount_le := kept.unbondings.le addr
  have bonded : min amount (s.bond addr) ≤ s.bond addr := min_le_right _ _
  have unbonding : min (amount - min amount (s.bond addr)) (s.unbondingAmount addr) ≤
    s.unbondingAmount addr := min_le_right _ _
  unfold StakeLedger.take
  refine (remove_settles kept fits covered bonded unbonding).bind fun s' settled => ?_
  refine ⟨?_, ?_, settled⟩
  · change min amount (s.bond addr) +
      min (amount - min amount (s.bond addr)) (s.unbondingAmount addr) ≤ amount
    omega
  · change min amount (s.bond addr) +
      min (amount - min amount (s.bond addr)) (s.unbondingAmount addr) ≤ _
    omega

theorem Settles.trans {s₁ s₂ : StakeLedger} {n m : ℕ}
    (first : Settles s s₁ 0 n (debit s.balance vaultAddress n))
    (second : Settles s₁ s₂ 0 m (debit s₁.balance vaultAddress m)) :
    Settles s s₂ 0 (n + m) (debit s.balance vaultAddress (n + m)) where
  kept := second.kept
  owed := by
    have h := first.owed
    have h' := second.owed
    omega
  balance := by rw [second.balance, first.balance, debit_debit]
  window fair := second.window (first.window fair)

theorem Settles.covered {s' : StakeLedger} {n : ℕ}
    (h : Settles s s' 0 n (debit s.balance vaultAddress n))
    (covered : s.totalBonded + s.totalUnbonding ≤ s.balanceOf vaultAddress) :
    s'.totalBonded + s'.totalUnbonding ≤ s'.balanceOf vaultAddress := by
  have owed := h.owed
  have left : s'.balanceOf vaultAddress = s.balanceOf vaultAddress - n := by
    unfold StakeLedger.balanceOf
    rw [h.balance, debit_self]
  omega

theorem topUp_settles {rate : WindowOffence → ℕ} (window : List WindowOffence)
    {s : StakeLedger} (taken : ℕ) {total : ℕ} (kept : Kept s)
    (covered : s.totalBonded + s.totalUnbonding ≤ s.balanceOf vaultAddress)
    (sums : SumsTo s.balance total) (fits : total + taken ≤ maxValue 128)
    (fair : ∀ o ∈ window, o.Fair) :
    Meets (StakeLedger.topUp s rate taken window) (fun r => ∃ n, r.2.2 = taken + n ∧
      n ≤ s.balanceOf vaultAddress ∧ Settles s r.1 0 n (debit s.balance vaultAddress n) ∧
      ∀ o ∈ r.2.1, o.Fair) accepted := by
  induction window generalizing s taken total with
  | nil => exact ⟨0, rfl, Nat.zero_le _, ⟨kept, rfl, debit_zero.symm, id⟩, fair⟩
  | cons o rest ih =>
    obtain ⟨fair_o, fair_rest⟩ := forall_mem_cons.1 fair
    unfold StakeLedger.topUp
    split_ifs with paid
    · refine (ih taken kept covered sums fits fair_rest).bind fun r ⟨n, taken_n, enough, settled, done⟩ => ?_
      exact ⟨n, taken_n, enough, settled, forall_mem_cons.2 ⟨fair_o, done⟩⟩
    · have within : s.balanceOf vaultAddress ≤ total := sums.le _
      refine (take_settles kept (by omega) covered).bind fun t ⟨owed, enough, settled⟩ => ?_
      obtain ⟨s₁, fromBond, fromUnbonding⟩ := t
      simp only at owed enough settled
      have exact_sum : saturatingAdd 128 fromBond fromUnbonding = fromBond + fromUnbonding :=
        saturatingAdd_exact (by omega)
      have exact_total : saturatingAdd 128 taken (fromBond + fromUnbonding) =
          taken + (fromBond + fromUnbonding) := saturatingAdd_exact (by omega)
      have due := bpsShare_le o.atStake (rate o)
      have bonded := fair_o.bonded
      have before := fair_o.taken
      have stake := fair_o.fits
      have exact_taken : saturatingAdd 128 o.taken (fromBond + fromUnbonding) =
          o.taken + (fromBond + fromUnbonding) := saturatingAdd_exact (by omega)
      have sums₁ : SumsTo s₁.balance (total - (fromBond + fromUnbonding)) := by
        rw [settled.balance]
        exact sumsTo_debit sums enough
      simp only [exact_sum, exact_total, exact_taken]
      refine (ih _ settled.kept (settled.covered covered) sums₁ (by omega) fair_rest).bind
        fun r ⟨n, taken_n, enough_n, settled_n, done⟩ => ?_
      have left : s₁.balanceOf vaultAddress =
          s.balanceOf vaultAddress - (fromBond + fromUnbonding) := by
        unfold StakeLedger.balanceOf
        rw [settled.balance, debit_self]
      refine ⟨fromBond + fromUnbonding + n, ?_, by omega, settled.trans settled_n,
        forall_mem_cons.2 ⟨⟨?_, ?_, stake⟩, done⟩⟩
      · rw [taken_n]
        omega
      · change o.takenBonded + fromBond ≤ o.taken + (fromBond + fromUnbonding)
        omega
      · change o.taken + (fromBond + fromUnbonding) ≤ o.atStake
        omega

omit [StakeAccounts] in
theorem noteOffence_fair {index bonded unbonding : ℕ} {window : List WindowOffence} (fair : ∀ o ∈ window, o.Fair) :
    ∀ o ∈ noteOffence addr index bonded unbonding window, o.Fair := by
  induction window with
  | nil =>
    intro o mem
    rw [mem_singleton.1 mem]
    exact ⟨le_rfl, Nat.zero_le _, min_le_right _ _⟩
  | cons o rest ih =>
    obtain ⟨fair_o, fair_rest⟩ := forall_mem_cons.1 fair
    unfold noteOffence
    split_ifs with own
    · exact forall_mem_cons.2 ⟨⟨fair_o.bonded, fair_o.taken, fair_o.fits⟩, fair_rest⟩
    · exact forall_mem_cons.2 ⟨fair_o, ih fair_rest⟩

variable {total : ℕ}

theorem slashToInsurance_settles {bps : ℕ} (kept : Kept s) (sums : SumsTo s.balance total)
    (fits : total ≤ maxValue 128)
    (covered : s.totalBonded + s.totalUnbonding ≤ s.balanceOf vaultAddress) :
    Meets (s.slashToInsurance addr bps) (fun r => r.2 ≤ s.balanceOf vaultAddress ∧
      Settles s r.1 0 r.2
        (credit (debit s.balance vaultAddress r.2) StakeAccounts.pool r.2)) accepted := by
  have within : s.balanceOf vaultAddress ≤ total := sums.le _
  unfold StakeLedger.slashToInsurance
  refine (slash_settles kept (by omega) covered).bind fun r ⟨enough, settled⟩ => ?_
  obtain ⟨s₁, taken⟩ := r
  simp only at enough settled
  have sums₁ : SumsTo s₁.balance (total - taken) := by
    rw [settled.balance]
    exact sumsTo_debit sums enough
  simp only
  rw [creditPool_eq sums₁ (by omega)]
  refine ⟨enough, ⟨settled.kept.bonded, settled.kept.unbondings, settled.kept.sponsored,
    settled.kept.sponsoredUnbonding, settled.kept.lien, settled.kept.unbondingLien⟩, settled.owed,
    ?_, settled.window⟩
  change credit s₁.balance StakeAccounts.pool taken = _
  rw [settled.balance]

theorem slashForEquivocation_settles {view : StakeView} {index : ℕ} (kept : Kept s)
    (sums : SumsTo s.balance total) (fits : total ≤ maxValue 128)
    (covered : s.totalBonded + s.totalUnbonding ≤ s.balanceOf vaultAddress)
    (fair : ∀ o ∈ s.window, o.Fair) :
    Meets (s.slashForEquivocation addr view index) (fun r => r.2 ≤ s.balanceOf vaultAddress ∧
      Settles s r.1 0 r.2
        (credit (debit s.balance vaultAddress r.2) StakeAccounts.pool r.2)) accepted := by
  have within : s.balanceOf vaultAddress ≤ total := sums.le _
  unfold StakeLedger.slashForEquivocation
  simp only
  have noted : ∀ o ∈ noteOffence addr index (s.bond addr) (s.unbondingAmount addr)
      (s.window.filter fun o => Nat.dist o.index index ≤ view.correlationWindow), o.Fair :=
    noteOffence_fair fun o mem => fair o (mem_of_mem_filter mem)
  refine (topUp_settles (s := { s with offended := update s.offended addr true }) _ 0
    ⟨kept.bonded, kept.unbondings, kept.sponsored, kept.sponsoredUnbonding, kept.lien, kept.unbondingLien⟩
    covered sums fits noted).bind fun r ⟨n, taken, enough, settled, done⟩ => ?_
  obtain ⟨s₁, window, takenTotal⟩ := r
  simp only [Nat.zero_add] at taken settled done
  subst taken
  have sums₁ : SumsTo s₁.balance (total - takenTotal) := by
    rw [settled.balance]
    exact sumsTo_debit sums enough
  simp only
  rw [creditPool_eq (s := { s₁ with window }) sums₁ (by change _ ≤ s.balanceOf vaultAddress at enough; omega)]
  refine ⟨enough, ⟨settled.kept.bonded, settled.kept.unbondings, settled.kept.sponsored,
    settled.kept.sponsoredUnbonding, settled.kept.lien, settled.kept.unbondingLien⟩, settled.owed,
    ?_, fun _ => done⟩
  change credit s₁.balance StakeAccounts.pool takenTotal = _
  rw [settled.balance]

end

end Tenzro.Staking
