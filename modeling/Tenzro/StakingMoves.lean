import Tenzro.StakingSound

set_option autoImplicit false
set_option linter.dupNamespace false

/-!
# What an operation leaves of a stake

Slashes and payments only lessen stakes: a release time stays, a bond and its own part do not
grow, and the history of increases is kept.
-/
namespace Tenzro.Staking
open FixedWidth Outcome Function

namespace StakeLedger

/-- The part of the bond the validator put up itself. -/
def ownBonded (s : StakeLedger) (addr : Bytes) : ℕ := s.bond addr - s.sponsored addr

/-- No lien exceeds its bond, and bonds fit their width. -/
def Backed (s : StakeLedger) : Prop := ∀ a, s.sponsored a ≤ s.bond a ∧ s.bond a ≤ maxValue 128

end StakeLedger

/-- Nothing grew. -/
structure Lessened (s s' : StakeLedger) : Prop where
  unbonding : ∀ a u', s'.unbonding a = some u' →
    ∃ u, s.unbonding a = some u ∧ u'.releaseAtMs = u.releaseAtMs
  increases : s'.increases = s.increases
  stake : s.Backed → s'.Backed ∧ ∀ a, s'.bond a ≤ s.bond a ∧ s'.ownBonded a ≤ s.ownBonded a

namespace Lessened
variable {s s₁ s₂ : StakeLedger}

theorem of_same (bond : s₁.bond = s.bond) (unbonding : s₁.unbonding = s.unbonding)
    (sponsored : s₁.sponsored = s.sponsored) (increases : s₁.increases = s.increases) :
    Lessened s s₁ where
  unbonding a u' found := ⟨u', unbonding ▸ found, rfl⟩
  increases := increases
  stake backed := by
    unfold StakeLedger.Backed StakeLedger.ownBonded
    rw [bond, sponsored]
    exact ⟨backed, fun a => ⟨le_rfl, le_rfl⟩⟩

theorem refl : Lessened s s := .of_same rfl rfl rfl rfl

theorem trans (first : Lessened s s₁) (second : Lessened s₁ s₂) : Lessened s s₂ where
  unbonding a u' found := by
    obtain ⟨u₁, before, same⟩ := second.unbonding a u' found
    obtain ⟨u, start, same'⟩ := first.unbonding a u₁ before
    exact ⟨u, start, same.trans same'⟩
  increases := second.increases.trans first.increases
  stake backed := by
    obtain ⟨backed₁, less⟩ := first.stake backed
    obtain ⟨backed₂, less'⟩ := second.stake backed₁
    exact ⟨backed₂, fun a => ⟨(less' a).1.trans (less a).1, (less' a).2.trans (less a).2⟩⟩

end Lessened

section
variable {s s' : StakeLedger} {addr : Bytes}

/-! ### Records -/

theorem writeUnbonding_lessened {u : Unbonding} {amount : ℕ} (found : s.unbonding addr = some u) :
    Lessened s (s.writeUnbonding addr (some ⟨amount, u.releaseAtMs⟩)) where
  unbonding a u' found' := by
    simp only [StakeLedger.writeUnbonding] at found'
    by_cases same : a = addr
    · subst same
      rw [update_self] at found'
      have kept := (Option.filter_eq_some_iff.1 found').1
      exact ⟨u, found, by rw [← Option.some.inj kept]⟩
    · rw [update_of_ne same] at found'
      exact ⟨u', found', rfl⟩
  increases := rfl
  stake backed := ⟨backed, fun _ => ⟨le_rfl, le_rfl⟩⟩

theorem clearUnbonding_lessened : Lessened s (s.writeUnbonding addr none) where
  unbonding a u' found' := by
    simp only [StakeLedger.writeUnbonding, Option.filter_none] at found'
    by_cases same : a = addr
    · rw [same, update_self] at found'
      cases found'
    · rw [update_of_ne same] at found'
      exact ⟨u', found', rfl⟩
  increases := rfl
  stake backed := ⟨backed, fun _ => ⟨le_rfl, le_rfl⟩⟩

theorem setSponsoredUnbonding_lessened {v : ℕ} :
    Lessened s (s.setSponsoredUnbonding addr v) := .of_same rfl rfl rfl rfl

theorem own_le {bond sponsored taken : ℕ} (lien : sponsored ≤ bond) (fits : bond ≤ maxValue 128) :
    sponsored ≤ min taken bond + scale sponsored (bond - taken) bond := by
  rcases Nat.eq_zero_or_pos bond with nothing | pos
  · omega
  rcases Nat.le_total bond taken with all | part
  · omega
  have share : sponsored - taken ≤ scale sponsored (bond - taken) bond := by
    rw [scale_eq fits lien (Nat.sub_le _ _), Nat.le_div_iff_mul_le pos, Nat.sub_mul, Nat.mul_sub]
    have less := Nat.mul_le_mul_left taken lien
    rw [Nat.mul_comm taken sponsored] at less
    omega
  omega

theorem lowerStake_lessened {fromBond : ℕ} :
    Lessened s ((s.scaleSponsored addr (s.bond addr) fromBond).lowerBond addr (s.bond addr)
      fromBond) where
  unbonding a u' found := by
    refine ⟨u', ?_, rfl⟩
    unfold StakeLedger.lowerBond StakeLedger.scaleSponsored at found
    simp only at found
    split_ifs at found <;> exact found
  increases := by
    unfold StakeLedger.lowerBond StakeLedger.scaleSponsored
    simp only
    split_ifs <;> rfl
  stake backed := by
    obtain ⟨lien, fits⟩ := backed addr
    by_cases taken : 0 < fromBond
    · have bond : ((s.scaleSponsored addr (s.bond addr) fromBond).lowerBond addr (s.bond addr)
          fromBond).bond = update s.bond addr (s.bond addr - fromBond) := by
        unfold StakeLedger.lowerBond StakeLedger.scaleSponsored
        simp only [if_pos taken]
        split_ifs <;> rfl
      have sponsored : ((s.scaleSponsored addr (s.bond addr) fromBond).lowerBond addr
          (s.bond addr) fromBond).sponsored = update s.sponsored addr
            (scale (s.sponsored addr) (s.bond addr - fromBond) (s.bond addr)) := by
        unfold StakeLedger.lowerBond StakeLedger.scaleSponsored
        simp only [if_pos taken]
        split_ifs with backs
        · rfl
        · have nothing : s.sponsored addr = 0 := by omega
          have scaled : scale 0 (s.bond addr - fromBond) (s.bond addr) = 0 := by
            have less : scale 0 (s.bond addr - fromBond) (s.bond addr) ≤ 0 :=
              scale_le_part fits (Nat.zero_le _) (Nat.sub_le _ _)
            omega
          rw [nothing, scaled, ← nothing]
          exact (update_eq_self addr s.sponsored).symm
      have remaining : scale (s.sponsored addr) (s.bond addr - fromBond) (s.bond addr) ≤
          s.bond addr - fromBond := scale_le_remaining
      have covered : s.sponsored addr ≤ min fromBond (s.bond addr) +
          scale (s.sponsored addr) (s.bond addr - fromBond) (s.bond addr) := own_le lien fits
      unfold StakeLedger.Backed StakeLedger.ownBonded
      rw [bond, sponsored]
      refine ⟨fun a => ?_, fun a => ?_⟩
      · by_cases same : a = addr
        · rw [same, update_self, update_self]
          omega
        · rw [update_of_ne same, update_of_ne same]
          exact backed a
      · by_cases same : a = addr
        · rw [same, update_self, update_self]
          omega
        · rw [update_of_ne same, update_of_ne same]
          exact ⟨le_rfl, le_rfl⟩
    · have same : (s.scaleSponsored addr (s.bond addr) fromBond).lowerBond addr (s.bond addr)
          fromBond = s := by
        unfold StakeLedger.lowerBond StakeLedger.scaleSponsored
        simp only [taken, false_and]
        rfl
      rw [same]
      exact ⟨backed, fun a => ⟨le_rfl, le_rfl⟩⟩

theorem lowerBond_scaleSponsoredUnbonding {bond fromBond fromUnbonding : ℕ}
    {unbonding : Option Unbonding} :
    (s.scaleSponsoredUnbonding addr unbonding fromUnbonding).lowerBond addr bond fromBond =
      (s.lowerBond addr bond fromBond).scaleSponsoredUnbonding addr unbonding fromUnbonding := by
  unfold StakeLedger.lowerBond StakeLedger.scaleSponsoredUnbonding
  cases unbonding with
  | none => rfl
  | some u =>
    simp only
    split_ifs <;> rfl

@[simp] theorem unbonding_scaleSponsored {bond fromBond : ℕ} :
    (s.scaleSponsored addr bond fromBond).unbonding = s.unbonding := by
  unfold StakeLedger.scaleSponsored
  simp only
  split_ifs <;> rfl

@[simp] theorem unbonding_lowerBond {bond fromBond : ℕ} :
    (s.lowerBond addr bond fromBond).unbonding = s.unbonding := by
  unfold StakeLedger.lowerBond
  split_ifs <;> rfl

@[simp] theorem unbonding_scaleSponsoredUnbonding {unbonding : Option Unbonding}
    {fromUnbonding : ℕ} :
    (s.scaleSponsoredUnbonding addr unbonding fromUnbonding).unbonding = s.unbonding := by
  unfold StakeLedger.scaleSponsoredUnbonding
  cases unbonding with
  | none => rfl
  | some u =>
    simp only
    split_ifs <;> rfl

theorem scaleSponsoredUnbonding_lessened {fromUnbonding : ℕ} {unbonding : Option Unbonding} :
    Lessened s (s.scaleSponsoredUnbonding addr unbonding fromUnbonding) := by
  unfold StakeLedger.scaleSponsoredUnbonding
  cases unbonding with
  | none => exact .refl
  | some u =>
    simp only
    split_ifs
    · exact setSponsoredUnbonding_lessened
    · exact .refl

theorem lowerUnbonding_lessened {fromUnbonding : ℕ} {unbonding : Option Unbonding}
    (found : s.unbonding addr = unbonding) :
    Lessened s (s.lowerUnbonding addr unbonding fromUnbonding) := by
  unfold StakeLedger.lowerUnbonding
  cases unbonding with
  | none => exact .refl
  | some u =>
    simp only
    split_ifs
    · exact (writeUnbonding_lessened found).trans (.of_same rfl rfl rfl rfl)
    · exact .refl

/-! ### Balances -/

variable [StakeAccounts] {n : ℕ}

theorem payFromVault_lessened {recipient : Bytes} (ran : s.payFromVault recipient n = .ok s') :
    Lessened s s' := by
  unfold StakeLedger.payFromVault at ran
  split_ifs at ran with nothing
  · rw [Except.ok.inj ran]
    exact .refl
  · obtain ⟨left, -, ran⟩ := bind_ok.1 ran
    obtain ⟨after, -, ran⟩ := bind_ok.1 ran
    obtain rfl := pure_ok.1 ran
    exact .of_same rfl rfl rfl rfl

theorem creditPool_lessened (ran : s.creditPool n = .ok s') : Lessened s s' := by
  unfold StakeLedger.creditPool at ran
  split_ifs at ran with nothing
  · rw [Except.ok.inj ran]
    exact .refl
  · obtain ⟨after, -, ran⟩ := bind_ok.1 ran
    obtain rfl := pure_ok.1 ran
    exact .of_same rfl rfl rfl rfl

/-! ### Slashes -/

theorem remove_lessened {fromBond fromUnbonding : ℕ}
    (ran : s.remove addr (s.bond addr) (s.unbonding addr) fromBond fromUnbonding = .ok s') :
    Lessened s s' := by
  unfold StakeLedger.remove at ran
  simp only at ran
  split_ifs at ran with nothing
  · rw [Except.ok.inj ran]
    exact .refl
  · obtain ⟨left, -, ran⟩ := bind_ok.1 ran
    obtain rfl := pure_ok.1 ran
    rw [lowerBond_scaleSponsoredUnbonding]
    have paid : Lessened s (s.setBalance vaultAddress left) := .of_same rfl rfl rfl rfl
    have bond : Lessened (s.setBalance vaultAddress left)
        (((s.setBalance vaultAddress left).scaleSponsored addr (s.bond addr) fromBond).lowerBond
          addr (s.bond addr) fromBond) := lowerStake_lessened
    refine ((paid.trans bond).trans scaleSponsoredUnbonding_lessened).trans
      (lowerUnbonding_lessened ?_)
    simp only [unbonding_scaleSponsoredUnbonding, unbonding_lowerBond, unbonding_scaleSponsored]
    rfl

theorem slash_lessened {bps taken : ℕ} (ran : s.slash addr bps = .ok (s', taken)) :
    Lessened s s' := by
  unfold StakeLedger.slash at ran
  simp only at ran
  split at ran
  · cases ran
  · split_ifs at ran with nothing
    · rw [(Prod.mk.inj (Except.ok.inj ran)).1]
      exact .refl
    · obtain ⟨s₁, removed, ran⟩ := bind_ok.1 ran
      obtain ⟨rfl, -⟩ := Prod.mk.inj (pure_ok.1 ran)
      exact remove_lessened removed

theorem take_lessened {amount fromBond fromUnbonding : ℕ}
    (ran : s.take addr amount = .ok (s', fromBond, fromUnbonding)) : Lessened s s' := by
  obtain ⟨s₁, removed, ran⟩ := bind_ok.1 ran
  obtain ⟨rfl, -⟩ := Prod.mk.inj (pure_ok.1 ran)
  exact remove_lessened removed

theorem topUp_lessened {rate : WindowOffence → ℕ} {window window' : List WindowOffence}
    {before taken : ℕ} (ran : StakeLedger.topUp s rate before window = .ok (s', window', taken)) :
    Lessened s s' := by
  induction window generalizing s window' before taken with
  | nil =>
    rw [(Prod.mk.inj (Except.ok.inj ran)).1]
    exact .refl
  | cons o rest ih =>
    unfold StakeLedger.topUp at ran
    split_ifs at ran with paid
    · obtain ⟨⟨s₁, rest', taken'⟩, later, ran⟩ := bind_ok.1 ran
      obtain ⟨rfl, -⟩ := Prod.mk.inj (pure_ok.1 ran)
      exact ih later
    · obtain ⟨⟨s₁, fromBond, fromUnbonding⟩, took, ran⟩ := bind_ok.1 ran
      obtain ⟨⟨s₂, rest', taken'⟩, later, ran⟩ := bind_ok.1 ran
      obtain ⟨rfl, -⟩ := Prod.mk.inj (pure_ok.1 ran)
      exact (take_lessened took).trans (ih later)

theorem slashToInsurance_lessened {bps taken : ℕ}
    (ran : s.slashToInsurance addr bps = .ok (s', taken)) : Lessened s s' := by
  obtain ⟨⟨s₁, taken₁⟩, slashed, ran⟩ := bind_ok.1 ran
  obtain ⟨s₂, credited, ran⟩ := bind_ok.1 ran
  obtain ⟨rfl, -⟩ := Prod.mk.inj (pure_ok.1 ran)
  exact (slash_lessened slashed).trans (creditPool_lessened credited)

theorem slashForEquivocation_lessened {view : StakeView} {index taken : ℕ}
    (ran : s.slashForEquivocation addr view index = .ok (s', taken)) : Lessened s s' := by
  unfold StakeLedger.slashForEquivocation at ran
  simp only at ran
  obtain ⟨⟨s₁, window, taken₁⟩, topped, ran⟩ := bind_ok.1 ran
  obtain ⟨s₂, credited, ran⟩ := bind_ok.1 ran
  obtain ⟨rfl, -⟩ := Prod.mk.inj (pure_ok.1 ran)
  have noted : Lessened s { s with offended := update s.offended addr true } :=
    .of_same rfl rfl rfl rfl
  have windowed : Lessened s₁ { s₁ with window } := .of_same rfl rfl rfl rfl
  exact ((noted.trans (topUp_lessened topped)).trans windowed).trans (creditPool_lessened credited)

/-! ### Payments -/

theorem releaseRecalled_ok {view : StakeView} {returned : ℕ}
    (ran : s.releaseRecalled view addr = .ok (s', returned)) : Lessened s s' ∧
      ∃ u, s.unbonding addr = some u ∧ u.releaseAtMs ≤ view.nowMs := by
  unfold StakeLedger.releaseRecalled at ran
  obtain ⟨_, -, ran⟩ := bind_ok.1 ran
  cases record : (s.unbonding addr).filter fun _ => 0 < s.sponsoredUnbonding addr with
  | none =>
    simp only [record] at ran
    cases ran
  | some u =>
    simp only [record] at ran
    have held : s.unbonding addr = some u := (Option.filter_eq_some_iff.1 record).1
    obtain ⟨_, matured, ran⟩ := bind_ok.1 ran
    obtain ⟨s₁, paid, ran⟩ := bind_ok.1 ran
    obtain ⟨rfl, -⟩ := Prod.mk.inj (pure_ok.1 ran)
    have unbonding : s₁.unbonding addr = some u := by
      unfold StakeLedger.payFromVault at paid
      split_ifs at paid with nothing
      · rwa [← Except.ok.inj paid]
      · obtain ⟨left, -, paid⟩ := bind_ok.1 paid
        obtain ⟨after, -, paid⟩ := bind_ok.1 paid
        obtain rfl := pure_ok.1 paid
        exact held
    have lowered (n : ℕ) : Lessened s₁ { s₁ with totalUnbonding := s₁.totalUnbonding - n } :=
      .of_same rfl rfl rfl rfl
    refine ⟨(((payFromVault_lessened paid).trans (lowered _)).trans
      (writeUnbonding_lessened (u := u) unbonding)).trans setSponsoredUnbonding_lessened,
      u, held, ensure_ok.1 matured⟩

theorem withdrawUnbondedSplit_ok {view : StakeView} {payee : Bytes} {paid returned : ℕ}
    (ran : s.withdrawUnbondedSplit view addr payee = .ok (s', paid, returned)) : Lessened s s' ∧
      ∃ u, s.unbonding addr = some u ∧ u.releaseAtMs ≤ view.nowMs := by
  unfold StakeLedger.withdrawUnbondedSplit at ran
  obtain ⟨_, -, ran⟩ := bind_ok.1 ran
  cases record : s.unbonding addr with
  | none =>
    simp only [record] at ran
    cases ran
  | some u =>
    simp only [record] at ran
    simp only [bind_ok] at ran
    obtain ⟨_, matured, _, -, s₁, first, s₂, second, ran⟩ := ran
    obtain ⟨rfl, -⟩ := Prod.mk.inj (pure_ok.1 ran)
    have lowered : Lessened s₂ { s₂ with totalUnbonding := s₂.totalUnbonding - u.amount } :=
      .of_same rfl rfl rfl rfl
    exact ⟨((((payFromVault_lessened first).trans (payFromVault_lessened second)).trans
      lowered).trans clearUnbonding_lessened).trans setSponsoredUnbonding_lessened,
      u, rfl, ensure_ok.1 matured⟩

/-! ### Bonding and leaving -/

omit [StakeAccounts]

def increased (s : StakeLedger) (view : StakeView) (addr : Bytes) : List BondIncrease :=
  (s.increases addr).filter (fun i => clampSigned (clampSigned (view.nowMs - longestVotingPeriodMs) -
    maxMinBondAgeMs) ≤ i.atMs) ++ [⟨view.nowMs, s.bond addr⟩]

/-- A bond is increased by `amount`, by `part` of it through a sponsor. -/
structure Increased (s s' : StakeLedger) (view : StakeView) (addr : Bytes) (amount part : ℕ) :
    Prop where
  fits : s.bond addr + amount ≤ maxValue 128
  bond : s'.bond = update s.bond addr (s.bond addr + amount)
  sponsored : s'.sponsored = update s.sponsored addr (s.sponsored addr + part)
  unbonding : s'.unbonding = s.unbonding
  increases : s'.increases = update s.increases addr (increased s view addr)

theorem addBond_ok {view : StakeView} (ran : s.addBond view addr n = .ok s') :
    Increased s s' view addr n 0 := by
  unfold StakeLedger.addBond at ran
  obtain ⟨_, -, ran⟩ := bind_ok.1 ran
  obtain ⟨bond, added, ran⟩ := bind_ok.1 ran
  obtain ⟨total, -, ran⟩ := bind_ok.1 ran
  obtain rfl := pure_ok.1 ran
  unfold checkedAdd at added
  split_ifs at added with fits
  refine ⟨fits, ?_, (update_eq_self addr s.sponsored).symm, rfl, rfl⟩
  rw [← Except.ok.inj added]

theorem addSponsoredBond_ok {view : StakeView} (ran : s.addSponsoredBond view addr n = .ok s') :
    Increased s s' view addr n n := by
  unfold StakeLedger.addSponsoredBond at ran
  obtain ⟨s₁, bonded, ran⟩ := bind_ok.1 ran
  obtain ⟨sponsored, added, ran⟩ := bind_ok.1 ran
  obtain rfl := pure_ok.1 ran
  obtain ⟨fits, bond, same, unbonding, increases⟩ := addBond_ok bonded
  rw [Nat.add_zero, update_eq_self] at same
  unfold checkedAdd at added
  split_ifs at added
  refine ⟨fits, bond, ?_, unbonding, increases⟩
  rw [← Except.ok.inj added, ← same]
  rfl

/-- `amount` of a bond enters unbonding, `part` of it from a sponsor. -/
structure Left (s s' : StakeLedger) (addr : Bytes) (amount part : ℕ) (release : ℤ) : Prop where
  bond : s'.bond = update s.bond addr (s.bond addr - amount)
  sponsored : s'.sponsored = update s.sponsored addr (s.sponsored addr - part)
  unbonding : ∃ held, s'.unbonding = update s.unbonding addr
    ((some ⟨held, release⟩ : Option Unbonding).filter fun u => 0 < u.amount)
  increases : s'.increases = s.increases

theorem recallSponsoredBond_ok {view : StakeView} {out : Unbonding}
    (ran : s.recallSponsoredBond view addr n = .ok (s', out)) :
    n ≤ s.sponsored addr ∧ Left s s' addr n n
      ((s.unbonding addr).elim view.release fun u => max u.releaseAtMs view.release) := by
  unfold StakeLedger.recallSponsoredBond at ran
  simp only [bind_ok] at ran
  obtain ⟨_, -, _, enough, sum, -, rest, taken, ran⟩ := ran
  obtain ⟨rfl, -⟩ := Prod.mk.inj (pure_ok.1 ran)
  have within := ensure_ok.1 enough
  unfold checkedSub at taken
  split_ifs at taken
  refine ⟨by omega, ?_, rfl, ⟨sum, rfl⟩, rfl⟩
  rw [Except.ok.inj taken]
  rfl

theorem beginUnbonding_ok {view : StakeView} {out : Option Unbonding}
    (ran : s.beginUnbonding view addr = .ok (s', out)) :
    (s.bond addr = 0 ∧ s' = s) ∨ s.bond addr ≠ 0 ∧
      Left s s' addr (s.bond addr) (s.sponsored addr) view.release := by
  unfold StakeLedger.beginUnbonding at ran
  obtain ⟨_, -, ran⟩ := bind_ok.1 ran
  simp only at ran
  split_ifs at ran with nothing
  · exact .inl ⟨nothing, (Prod.mk.inj (Except.ok.inj ran)).1.symm⟩
  · obtain ⟨sum, -, ran⟩ := bind_ok.1 ran
    refine .inr ⟨nothing, ?_⟩
    change (if 0 < s.sponsored addr then _ else _) = _ at ran
    split_ifs at ran with backed
    · obtain ⟨rfl, -⟩ := Prod.mk.inj (pure_ok.1 ran)
      refine ⟨?_, ?_, ⟨sum, rfl⟩, rfl⟩
      · rw [Nat.sub_self]
        rfl
      · rw [Nat.sub_self]
        rfl
    · obtain ⟨rfl, -⟩ := Prod.mk.inj (pure_ok.1 ran)
      refine ⟨?_, ?_, ⟨sum, rfl⟩, rfl⟩
      · rw [Nat.sub_self]
        rfl
      · have none_sponsored : s.sponsored addr = 0 := by omega
        rw [Nat.sub_self, ← none_sponsored]
        exact (update_eq_self addr s.sponsored).symm

end

def Moved [StakeAccounts] (view : StakeView) (s s' : StakeLedger) : StakeOp → Prop
  | .addBond _ addr amount => Increased s s' view addr amount 0
  | .addSponsoredBond _ addr amount => Increased s s' view addr amount amount
  | .recallSponsoredBond addr amount => amount ≤ s.sponsored addr ∧ Left s s' addr amount amount
    ((s.unbonding addr).elim view.release fun u => max u.releaseAtMs view.release)
  | .beginUnbonding addr => (s.bond addr = 0 ∧ s' = s) ∨ s.bond addr ≠ 0 ∧
    Left s s' addr (s.bond addr) (s.sponsored addr) view.release
  | .releaseRecalled addr | .withdrawUnbondedSplit addr _ => Lessened s s' ∧
    ∃ u, s.unbonding addr = some u ∧ u.releaseAtMs ≤ view.nowMs
  | .slashToInsurance _ _ | .slashForEquivocation _ _ => Lessened s s'

section
variable [StakeAccounts] {s s' : StakeLedger} {view : StakeView}

theorem increased_of_deposit {source addr : Bytes} {n amount part : ℕ} {s₁ : StakeLedger}
    (paid : s.deposit source n = .ok s₁) (increased : Increased s₁ s' view addr amount part) :
    Increased s s' view addr amount part := by
  obtain ⟨left, -, paid⟩ := bind_ok.1 paid
  obtain ⟨vault, -, paid⟩ := bind_ok.1 paid
  obtain rfl := pure_ok.1 paid
  exact ⟨increased.fits, increased.bond, increased.sponsored, increased.unbonding,
    increased.increases⟩

theorem run_moved {op : StakeOp} {paid : List (Bytes × ℕ)}
    (ran : op.run view s = .ok (s', paid)) : Moved view s s' op := by
  cases op with
  | addBond source addr amount =>
    obtain ⟨s₁, deposited, ran⟩ := bind_ok.1 ran
    obtain ⟨s₂, bonded, ran⟩ := bind_ok.1 ran
    obtain ⟨rfl, -⟩ := Prod.mk.inj (pure_ok.1 ran)
    exact increased_of_deposit deposited (addBond_ok bonded)
  | addSponsoredBond source addr amount =>
    obtain ⟨s₁, deposited, ran⟩ := bind_ok.1 ran
    obtain ⟨s₂, bonded, ran⟩ := bind_ok.1 ran
    obtain ⟨rfl, -⟩ := Prod.mk.inj (pure_ok.1 ran)
    exact increased_of_deposit deposited (addSponsoredBond_ok bonded)
  | recallSponsoredBond addr amount =>
    obtain ⟨⟨s₁, out⟩, recalled, ran⟩ := bind_ok.1 ran
    obtain ⟨rfl, -⟩ := Prod.mk.inj (pure_ok.1 ran)
    exact recallSponsoredBond_ok recalled
  | releaseRecalled addr =>
    obtain ⟨⟨s₁, returned⟩, released, ran⟩ := bind_ok.1 ran
    obtain ⟨rfl, -⟩ := Prod.mk.inj (pure_ok.1 ran)
    exact releaseRecalled_ok released
  | beginUnbonding addr =>
    obtain ⟨⟨s₁, out⟩, begun, ran⟩ := bind_ok.1 ran
    obtain ⟨rfl, -⟩ := Prod.mk.inj (pure_ok.1 ran)
    exact beginUnbonding_ok begun
  | withdrawUnbondedSplit addr payee =>
    obtain ⟨⟨s₁, out, returned⟩, withdrawn, ran⟩ := bind_ok.1 ran
    obtain ⟨rfl, -⟩ := Prod.mk.inj (pure_ok.1 ran)
    exact withdrawUnbondedSplit_ok withdrawn
  | slashToInsurance addr bps =>
    obtain ⟨⟨s₁, taken⟩, slashed, ran⟩ := bind_ok.1 ran
    obtain ⟨rfl, -⟩ := Prod.mk.inj (pure_ok.1 ran)
    exact slashToInsurance_lessened slashed
  | slashForEquivocation addr index =>
    obtain ⟨⟨s₁, taken⟩, slashed, ran⟩ := bind_ok.1 ran
    obtain ⟨rfl, -⟩ := Prod.mk.inj (pure_ok.1 ran)
    exact slashForEquivocation_lessened slashed

end

end Tenzro.Staking
