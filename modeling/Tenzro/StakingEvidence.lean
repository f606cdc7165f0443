import Tenzro.StakingMoves
import Tenzro.StakingOrder

set_option autoImplicit false
set_option linter.dupNamespace false

/-!
# The order evidence lands in

Two orders of reporting the same offences leave the same stakes while no report drops an
offence that another reads; where one does, the order decides what is paid.
-/
namespace Tenzro.Staking
open FixedWidth Outcome List Function
open Book (SumsTo)

/-! ### Unbonding records -/

/-- A record is as it was, or holds less under the same release time. -/
def Lowered (s s' : StakeLedger) : Prop := ∀ a, s'.unbonding a = s.unbonding a ∨
  s'.unbondingAmount a < s.unbondingAmount a ∧ ∃ u, s.unbonding a = some u ∧ s'.unbonding a =
    (some ⟨s'.unbondingAmount a, u.releaseAtMs⟩ : Option Unbonding).filter fun u => 0 < u.amount

section
variable {s s₁ s₂ s' : StakeLedger} {addr : Bytes}

theorem Lowered.of_same (same : s'.unbonding = s.unbonding) : Lowered s s' :=
  fun a => .inl (by rw [same])

theorem Lowered.trans (first : Lowered s s₁) (second : Lowered s₁ s₂) : Lowered s s₂ := by
  intro a
  rcases first a with kept | ⟨less, u, before, after⟩
  · rcases second a with kept' | ⟨less, u, before, after⟩
    · exact .inl (kept'.trans kept)
    · have amount : s₁.unbondingAmount a = s.unbondingAmount a := by
        unfold StakeLedger.unbondingAmount
        rw [kept]
      exact .inr ⟨amount ▸ less, u, kept ▸ before, after⟩
  · rcases second a with kept' | ⟨less', u', before', after'⟩
    · have amount : s₂.unbondingAmount a = s₁.unbondingAmount a := by
        unfold StakeLedger.unbondingAmount
        rw [kept']
      exact .inr ⟨amount ▸ less, u, before, amount ▸ kept'.trans after⟩
    · have found := (Option.filter_eq_some_iff.1 (after.symm.trans before')).1
      obtain rfl := Option.some.inj found
      exact .inr ⟨less'.trans less, u, before, after'⟩

theorem Lowered.unique (first : Lowered s s₁) (second : Lowered s s₂)
    (amounts : s₁.unbondingAmount = s₂.unbondingAmount) : s₁.unbonding = s₂.unbonding := by
  have amount {m : StakeLedger} {a : Bytes} (kept : m.unbonding a = s.unbonding a) :
      m.unbondingAmount a = s.unbondingAmount a := by
    unfold StakeLedger.unbondingAmount
    rw [kept]
  funext a
  have same := congrFun amounts a
  rcases first a with kept | ⟨less, u, before, after⟩
  · rcases second a with kept' | ⟨less', -⟩
    · exact kept.trans kept'.symm
    · have still := amount kept
      omega
  · rcases second a with kept' | ⟨less', u', before', after'⟩
    · have still := amount kept'
      omega
    · obtain rfl := Option.some.inj (before.symm.trans before')
      rw [after, after', same]

theorem lowerUnbonding_lowered {f : ℕ} (enough : f ≤ s.unbondingAmount addr) :
    Lowered s (s.lowerUnbonding addr (s.unbonding addr) f) := by
  unfold StakeLedger.lowerUnbonding
  cases found : s.unbonding addr with
  | none => exact .of_same rfl
  | some u =>
    have held : s.unbondingAmount addr = u.amount := by
      unfold StakeLedger.unbondingAmount
      rw [found]
      rfl
    simp only
    split_ifs with some_taken
    · have amounts : StakeLedger.unbondingAmount
          { s.writeUnbonding addr (some ⟨u.amount - f, u.releaseAtMs⟩) with
            totalUnbonding := s.totalUnbonding - f } =
          update s.unbondingAmount addr (u.amount - f) := unbondingAmount_writeUnbonding
      intro a
      rw [amounts]
      by_cases own : a = addr
      · subst own
        rw [update_self]
        exact .inr ⟨by omega, u, found, update_self ..⟩
      · exact .inl (update_of_ne own ..)
    · exact .of_same rfl

variable [StakeAccounts]

theorem remove_lowered {fromBond fromUnbonding : ℕ}
    (ran : s.remove addr (s.bond addr) (s.unbonding addr) fromBond fromUnbonding = .ok s')
    (enough : fromUnbonding ≤ s.unbondingAmount addr) : Lowered s s' := by
  unfold StakeLedger.remove at ran
  simp only at ran
  split_ifs at ran with nothing
  · exact .of_same (congrArg StakeLedger.unbonding (Except.ok.inj ran).symm)
  · obtain ⟨newVault, -, ran⟩ := bind_ok.1 ran
    obtain rfl := pure_ok.1 ran
    set paid := s.setBalance vaultAddress newVault
    set m₁ := paid.scaleSponsored addr (s.bond addr) fromBond
    set m₂ := m₁.scaleSponsoredUnbonding addr (s.unbonding addr) fromUnbonding
    set m₃ := m₂.lowerBond addr (s.bond addr) fromBond
    have first : SameStakes paid m₁ := scaleSponsored_same _ _
    have second : SameStakes m₁ m₂ := scaleSponsoredUnbonding_same _ _
    have third : m₃.unbonding = m₂.unbonding := by
      unfold m₃ StakeLedger.lowerBond
      split_ifs <;> rfl
    have same : m₃.unbonding = s.unbonding := third.trans (second.unbonding.trans first.unbonding)
    have amount : fromUnbonding ≤ m₃.unbondingAmount addr := by
      unfold StakeLedger.unbondingAmount at enough ⊢
      rwa [same]
    refine Lowered.trans (.of_same same) ?_
    rw [← same]
    exact lowerUnbonding_lowered amount

theorem topUp_lowered {rate : WindowOffence → ℕ} {w w' : List WindowOffence} {before taken : ℕ}
    (ran : StakeLedger.topUp s rate before w = .ok (s', w', taken)) : Lowered s s' := by
  induction w generalizing s w' before taken with
  | nil =>
    cases ran
    exact .of_same rfl
  | cons o rest ih =>
    unfold StakeLedger.topUp at ran
    split_ifs at ran
    · obtain ⟨⟨s₁, rest', taken'⟩, later, ran⟩ := bind_ok.1 ran
      cases pure_ok.1 ran
      exact ih later
    · obtain ⟨⟨s₁, fromBond, fromUnbonding⟩, took, ran⟩ := bind_ok.1 ran
      obtain ⟨⟨s₂, rest', taken'⟩, later, ran⟩ := bind_ok.1 ran
      cases pure_ok.1 ran
      obtain ⟨s₃, removed, took⟩ := bind_ok.1 took
      cases pure_ok.1 took
      exact (remove_lowered removed (min_le_right _ _)).trans (ih later)

theorem slashForEquivocation_lowered {view : StakeView} {index taken : ℕ}
    (ran : s.slashForEquivocation addr view index = .ok (s', taken)) : Lowered s s' := by
  unfold StakeLedger.slashForEquivocation at ran
  simp only at ran
  obtain ⟨⟨s₁, window, taken₁⟩, topped, ran⟩ := bind_ok.1 ran
  obtain ⟨s₂, credited, ran⟩ := bind_ok.1 ran
  cases pure_ok.1 ran
  refine (topUp_lowered topped).trans (.of_same ?_)
  unfold StakeLedger.creditPool at credited
  split_ifs at credited
  · rw [← Except.ok.inj credited]
  · obtain ⟨after, -, credited⟩ := bind_ok.1 credited
    rw [← pure_ok.1 credited]
    rfl

end

/-! ### One entry for each account -/

section
variable {s s' : StakeLedger} {addr : Bytes} {view : StakeView} {n : ℕ}

theorem addBond_window (ran : s.addBond view addr n = .ok s') : s'.window = s.window := by
  unfold StakeLedger.addBond at ran
  obtain ⟨_, -, ran⟩ := bind_ok.1 ran
  obtain ⟨_, -, ran⟩ := bind_ok.1 ran
  obtain ⟨_, -, ran⟩ := bind_ok.1 ran
  rw [← pure_ok.1 ran]

theorem addSponsoredBond_window (ran : s.addSponsoredBond view addr n = .ok s') :
    s'.window = s.window := by
  unfold StakeLedger.addSponsoredBond at ran
  obtain ⟨s₁, bonded, ran⟩ := bind_ok.1 ran
  obtain ⟨_, -, ran⟩ := bind_ok.1 ran
  have kept := addBond_window bonded
  rw [← pure_ok.1 ran]
  exact kept

theorem recallSponsoredBond_window {out : Unbonding}
    (ran : s.recallSponsoredBond view addr n = .ok (s', out)) : s'.window = s.window := by
  unfold StakeLedger.recallSponsoredBond at ran
  simp only [bind_ok] at ran
  obtain ⟨_, -, _, -, _, -, _, -, ran⟩ := ran
  rw [← (Prod.mk.inj (pure_ok.1 ran)).1]
  rfl

theorem beginUnbonding_window {out : Option Unbonding}
    (ran : s.beginUnbonding view addr = .ok (s', out)) : s'.window = s.window := by
  unfold StakeLedger.beginUnbonding at ran
  obtain ⟨_, -, ran⟩ := bind_ok.1 ran
  simp only at ran
  split_ifs at ran
  · rw [← (Prod.mk.inj (Except.ok.inj ran)).1]
  · obtain ⟨sum, -, ran⟩ := bind_ok.1 ran
    change (if 0 < s.sponsored addr then _ else _) = _ at ran
    split_ifs at ran
    · rw [← (Prod.mk.inj (pure_ok.1 ran)).1]
      rfl
    · rw [← (Prod.mk.inj (pure_ok.1 ran)).1]
      rfl

variable [StakeAccounts]

theorem deposit_window {source : Bytes} (ran : s.deposit source n = .ok s') :
    s'.window = s.window := by
  obtain ⟨_, -, ran⟩ := bind_ok.1 ran
  obtain ⟨_, -, ran⟩ := bind_ok.1 ran
  rw [← pure_ok.1 ran]
  rfl

theorem payFromVault_window {recipient : Bytes} (ran : s.payFromVault recipient n = .ok s') :
    s'.window = s.window := by
  unfold StakeLedger.payFromVault at ran
  split_ifs at ran
  · rw [← Except.ok.inj ran]
  · obtain ⟨_, -, ran⟩ := bind_ok.1 ran
    obtain ⟨_, -, ran⟩ := bind_ok.1 ran
    rw [← pure_ok.1 ran]
    rfl

theorem releaseRecalled_window {returned : ℕ}
    (ran : s.releaseRecalled view addr = .ok (s', returned)) : s'.window = s.window := by
  unfold StakeLedger.releaseRecalled at ran
  obtain ⟨_, -, ran⟩ := bind_ok.1 ran
  simp only at ran
  split at ran
  · cases ran
  · obtain ⟨_, -, ran⟩ := bind_ok.1 ran
    obtain ⟨s₁, paid, ran⟩ := bind_ok.1 ran
    have kept := payFromVault_window paid
    rw [← (Prod.mk.inj (pure_ok.1 ran)).1]
    exact kept

theorem withdrawUnbondedSplit_window {payee : Bytes} {out : ℕ × ℕ}
    (ran : s.withdrawUnbondedSplit view addr payee = .ok (s', out)) : s'.window = s.window := by
  unfold StakeLedger.withdrawUnbondedSplit at ran
  obtain ⟨_, -, ran⟩ := bind_ok.1 ran
  split at ran
  · cases ran
  · obtain ⟨_, -, ran⟩ := bind_ok.1 ran
    obtain ⟨_, -, ran⟩ := bind_ok.1 ran
    obtain ⟨s₁, first, ran⟩ := bind_ok.1 ran
    obtain ⟨s₂, second, ran⟩ := bind_ok.1 ran
    have kept := (payFromVault_window second).trans (payFromVault_window first)
    rw [← (Prod.mk.inj (pure_ok.1 ran)).1]
    exact kept

theorem creditPool_window {taken : ℕ} (ran : s.creditPool taken = .ok s') :
    s'.window = s.window := by
  unfold StakeLedger.creditPool at ran
  split_ifs at ran
  · rw [← Except.ok.inj ran]
  · obtain ⟨_, -, ran⟩ := bind_ok.1 ran
    rw [← pure_ok.1 ran]
    rfl

theorem remove_window {bond f g : ℕ} {u : Option Unbonding}
    (ran : s.remove addr bond u f g = .ok s') : s'.window = s.window := by
  unfold StakeLedger.remove at ran
  simp only at ran
  split_ifs at ran
  · rw [← Except.ok.inj ran]
  · obtain ⟨_, -, ran⟩ := bind_ok.1 ran
    rw [← pure_ok.1 ran]
    unfold StakeLedger.lowerUnbonding StakeLedger.lowerBond StakeLedger.scaleSponsoredUnbonding
      StakeLedger.scaleSponsored
    cases u with
    | none =>
      simp only
      split_ifs <;> rfl
    | some u =>
      simp only
      split_ifs <;> rfl

theorem slashToInsurance_window {bps taken : ℕ}
    (ran : s.slashToInsurance addr bps = .ok (s', taken)) : s'.window = s.window := by
  obtain ⟨⟨s₁, taken₁⟩, slashed, ran⟩ := bind_ok.1 ran
  obtain ⟨s₂, credited, ran⟩ := bind_ok.1 ran
  cases pure_ok.1 ran
  refine (creditPool_window credited).trans ?_
  unfold StakeLedger.slash at slashed
  simp only at slashed
  split at slashed
  · cases slashed
  · split_ifs at slashed
    · rw [← (Prod.mk.inj (Except.ok.inj slashed)).1]
    · obtain ⟨s₃, removed, slashed⟩ := bind_ok.1 slashed
      rw [← (Prod.mk.inj (pure_ok.1 slashed)).1]
      exact remove_window removed

theorem topUp_addrs {rate : WindowOffence → ℕ} {w w' : List WindowOffence} {before taken : ℕ}
    (ran : StakeLedger.topUp s rate before w = .ok (s', w', taken)) :
    w'.map WindowOffence.addr = w.map WindowOffence.addr := by
  induction w generalizing s w' before taken with
  | nil =>
    cases ran
    rfl
  | cons o rest ih =>
    unfold StakeLedger.topUp at ran
    split_ifs at ran
    · obtain ⟨⟨s₁, rest', taken'⟩, later, ran⟩ := bind_ok.1 ran
      cases pure_ok.1 ran
      exact congrArg (o.addr :: ·) (ih later)
    · obtain ⟨⟨s₁, fromBond, fromUnbonding⟩, took, ran⟩ := bind_ok.1 ran
      obtain ⟨⟨s₂, rest', taken'⟩, later, ran⟩ := bind_ok.1 ran
      cases pure_ok.1 ran
      exact congrArg (o.addr :: ·) (ih later)

def StakeLedger.Apart (s : StakeLedger) : Prop := (s.window.map WindowOffence.addr).Nodup

theorem slashForEquivocation_apart {index taken : ℕ} (apart : s.Apart)
    (ran : s.slashForEquivocation addr view index = .ok (s', taken)) : s'.Apart := by
  unfold StakeLedger.slashForEquivocation at ran
  simp only at ran
  obtain ⟨⟨s₁, window, taken₁⟩, topped, ran⟩ := bind_ok.1 ran
  obtain ⟨s₂, credited, ran⟩ := bind_ok.1 ran
  cases pure_ok.1 ran
  have kept : s'.window = window := creditPool_window credited
  unfold StakeLedger.Apart
  rw [kept, topUp_addrs topped]
  exact noted_apart (apart.sublist (filter_sublist.map _))

theorem run_apart {op : StakeOp} {paid : List (Bytes × ℕ)} (apart : s.Apart)
    (ran : op.run view s = .ok (s', paid)) : s'.Apart := by
  have of_same (same : s'.window = s.window) : s'.Apart := by
    unfold StakeLedger.Apart
    rwa [same]
  cases op with
  | addBond source addr amount =>
    obtain ⟨s₁, deposited, ran⟩ := bind_ok.1 ran
    obtain ⟨s₂, bonded, ran⟩ := bind_ok.1 ran
    obtain ⟨rfl, -⟩ := Prod.mk.inj (pure_ok.1 ran)
    exact of_same ((addBond_window bonded).trans (deposit_window deposited))
  | addSponsoredBond source addr amount =>
    obtain ⟨s₁, deposited, ran⟩ := bind_ok.1 ran
    obtain ⟨s₂, bonded, ran⟩ := bind_ok.1 ran
    obtain ⟨rfl, -⟩ := Prod.mk.inj (pure_ok.1 ran)
    exact of_same ((addSponsoredBond_window bonded).trans (deposit_window deposited))
  | recallSponsoredBond addr amount =>
    obtain ⟨⟨s₁, out⟩, recalled, ran⟩ := bind_ok.1 ran
    obtain ⟨rfl, -⟩ := Prod.mk.inj (pure_ok.1 ran)
    exact of_same (recallSponsoredBond_window recalled)
  | releaseRecalled addr =>
    obtain ⟨⟨s₁, returned⟩, released, ran⟩ := bind_ok.1 ran
    obtain ⟨rfl, -⟩ := Prod.mk.inj (pure_ok.1 ran)
    exact of_same (releaseRecalled_window released)
  | beginUnbonding addr =>
    obtain ⟨⟨s₁, out⟩, begun, ran⟩ := bind_ok.1 ran
    obtain ⟨rfl, -⟩ := Prod.mk.inj (pure_ok.1 ran)
    exact of_same (beginUnbonding_window begun)
  | withdrawUnbondedSplit addr payee =>
    obtain ⟨⟨s₁, out, returned⟩, withdrawn, ran⟩ := bind_ok.1 ran
    obtain ⟨rfl, -⟩ := Prod.mk.inj (pure_ok.1 ran)
    exact of_same (withdrawUnbondedSplit_window withdrawn)
  | slashToInsurance addr bps =>
    obtain ⟨⟨s₁, taken⟩, slashed, ran⟩ := bind_ok.1 ran
    obtain ⟨rfl, -⟩ := Prod.mk.inj (pure_ok.1 ran)
    exact of_same (slashToInsurance_window slashed)
  | slashForEquivocation addr index =>
    obtain ⟨⟨s₁, taken⟩, slashed, ran⟩ := bind_ok.1 ran
    obtain ⟨rfl, -⟩ := Prod.mk.inj (pure_ok.1 ran)
    exact slashForEquivocation_apart apart slashed

theorem Reached.apart {total : ℕ} (reached : Reached total s) : s.Apart := by
  induction reached with
  | fresh sums => exact nodup_nil
  | @step s _ view op sourced ih =>
    unfold StakeOp.apply
    cases ran : op.run view s with
    | error e => exact ih
    | ok r => exact run_apart ih ran

end

/-! ### Reports in one order -/

section
variable [StakeAccounts] {view : StakeView} {s₀ s s' s'' : StakeLedger} {w₀ w : List WindowOffence}
  {L P : Offences} {total n m : ℕ}

def reportAll (view : StakeView) (s : StakeLedger) : Offences → Except VmError StakeLedger
  | [] => .ok s
  | x :: rest => do
    let (s, _) ← s.slashForEquivocation x.1 view x.2
    reportAll view s rest

def recentTo (view : StakeView) (s : StakeLedger) (L : Offences) : List WindowOffence :=
  s.window.filter fun o => L.any fun x => Nat.dist o.index x.2 ≤ view.correlationWindow

/-- No report drops an offence that another one reads, and the rates are exact quotients. -/
structure Correlated (view : StakeView) (s : StakeLedger) (L : Offences) : Prop where
  together : ∀ x ∈ L, ∀ y ∈ L, Nat.dist x.2 y.2 ≤ view.correlationWindow
  earlier : ∀ o ∈ s.window, ∀ x ∈ L, ∀ y ∈ L, Nat.dist o.index x.2 ≤ view.correlationWindow →
    Nat.dist o.index y.2 ≤ view.correlationWindow
  fits : jointTotal s (recentTo view s L) L * 10000 ≤ maxValue 128

/-- `n` left the stakes and the vault for the insurance pool. -/
structure Seized (s s' : StakeLedger) (n : ℕ) : Prop where
  afforded : n ≤ s.balanceOf vaultAddress
  balance : s'.balance = credit (debit s.balance vaultAddress n) StakeAccounts.pool n
  owed : s'.totalBonded + s'.totalUnbonding + n = s.totalBonded + s.totalUnbonding
  lowered : Lowered s s'

theorem move_move {b : Bytes → ℕ} (enough : n + m ≤ b (StakeAccounts.account vaultAddress)) :
    credit (debit (credit (debit b vaultAddress n) StakeAccounts.pool n) vaultAddress m)
        StakeAccounts.pool m =
      credit (debit b vaultAddress (n + m)) StakeAccounts.pool (n + m) := by
  unfold credit debit
  by_cases same : StakeAccounts.account vaultAddress = StakeAccounts.account StakeAccounts.pool
  · simp only [same, update_self, update_idem] at enough ⊢
    congr 1
    omega
  · funext a
    by_cases pool : a = StakeAccounts.account StakeAccounts.pool
    · simp only [pool, update_self, update_of_ne (Ne.symm same)]
      omega
    · by_cases vault : a = StakeAccounts.account vaultAddress
      · simp only [vault, update_self, update_of_ne same]
        omega
      · simp only [update_of_ne pool, update_of_ne vault]

theorem Seized.refl : Seized s s 0 :=
  ⟨Nat.zero_le _, by rw [debit_zero, credit_zero], rfl, .of_same rfl⟩

theorem Seized.trans (first : Seized s s' n) (second : Seized s' s'' m)
    (enough : n + m ≤ s.balanceOf vaultAddress) : Seized s s'' (n + m) := by
  refine ⟨enough, ?_, ?_, first.lowered.trans second.lowered⟩
  · rw [second.balance, first.balance]
    exact move_move enough
  · have owed := first.owed
    have owed' := second.owed
    omega

theorem seized_step {a : Bytes} {i : ℕ} (sound : Sound total s) (fits : total ≤ maxValue 128) :
    ∃ s' n, s.slashForEquivocation a view i = .ok (s', n) ∧ Seized s s' n ∧ Sound total s' := by
  have settles : Meets (s.slashForEquivocation a view i) _ (fun _ => False) :=
    slashForEquivocation_settles sound.kept sound.sums fits sound.covered sound.fair
  cases ran : s.slashForEquivocation a view i with
  | error e =>
    rw [ran] at settles
    exact settles.elim
  | ok r =>
    rw [ran] at settles
    obtain ⟨enough, settled⟩ := settles
    have performed : Performed total s r.1 (.slashForEquivocation a i)
        [(StakeAccounts.pool, r.2)] :=
      Settles.performed_plain [(StakeAccounts.pool, r.2)] sound rfl settled enough
    exact ⟨r.1, r.2, rfl, ⟨enough, settled.balance, settled.owed,
      slashForEquivocation_lowered ran⟩, performed.sound⟩

omit [StakeAccounts] in
theorem jointTotal_mono {Q : Offences} (more : involved w₀ P ⊆ involved w₀ Q) :
    jointTotal s₀ w₀ P ≤ jointTotal s₀ w₀ Q :=
  Nat.add_le_add_left (Finset.sum_le_sum_of_subset more) _

omit [StakeAccounts] in
theorem involved_prefix {rest : Offences} : involved w₀ P ⊆ involved w₀ (P ++ rest) := by
  unfold involved
  rw [map_append, toFinset_append]
  exact Finset.union_subset_union_right Finset.subset_union_left

theorem reportAll_tallied {rest : Offences} (tallied : Tallied view s₀ w₀ L P s w)
    (whole : P ++ rest = L) (sound : Sound total s) (fits : total ≤ maxValue 128)
    (together : ∀ x ∈ L, ∀ y ∈ L, Nat.dist x.2 y.2 ≤ view.correlationWindow)
    (stakes : ∀ a, s₀.bond a + s₀.unbondingAmount a ≤ maxValue 128)
    (some : 1 ≤ view.correlationMultiplier)
    (bounded : jointTotal s₀ w₀ L * 10000 ≤ maxValue 128) :
    ∃ s' w' n, reportAll view s rest = .ok s' ∧ Tallied view s₀ w₀ L L s' w' ∧
      (w = s.window ∨ rest ≠ [] → w' = s'.window) ∧ Seized s s' n ∧ Sound total s' := by
  induction rest generalizing P s w with
  | nil =>
    rw [append_nil] at whole
    subst whole
    exact ⟨s, w, 0, rfl, tallied, fun h => h.resolve_right fun h => h rfl, .refl, sound⟩
  | cons x rest ih =>
    obtain ⟨a, i⟩ := x
    have mem : (a, i) ∈ L := whole ▸ mem_append_right P mem_cons_self
    have next : (P ++ [(a, i)]) ++ rest = L := by rw [append_assoc]; exact whole
    have less : jointTotal s₀ w₀ (P ++ [(a, i)]) ≤ jointTotal s₀ w₀ L :=
      jointTotal_mono (next ▸ involved_prefix)
    have scaled := Nat.mul_le_mul_right 10000 less
    obtain ⟨s₁, n, ran, seized, sound₁⟩ :
        ∃ s' n, s.slashForEquivocation a view i = .ok (s', n) ∧ Seized s s' n ∧ Sound total s' :=
      seized_step sound fits
    have fair : ∀ o ∈ w, o.Fair := fun o old => by
      rw [← tallied.recent _ mem] at old
      exact sound.fair o (mem_of_mem_filter old)
    have divided := (tallied.windowRate_noted (a := a) (i := i) stakes).1
    have reported := slashForEquivocation_reported ran (tallied.recent _ mem) tallied.apart fair
      sound.kept.bonded (by omega)
    have tallied₁ := tallied.step mem together stakes some (scaled.trans bounded) reported
    obtain ⟨s', w', m, later, done, last, seized', sound'⟩ := ih tallied₁ next sound₁
    have owed := seized.owed
    have owed' := seized'.owed
    have covered := sound.covered
    exact ⟨s', w', n + m, bind_ok.2 ⟨_, ran, later⟩, done, fun _ => last (.inl rfl),
      seized.trans seized' (by omega), sound'⟩

/-! ### Two orders -/

/-- What the order of reports must leave alone. -/
structure SameOutcome (s s' : StakeLedger) : Prop where
  bond : s.bond = s'.bond
  unbonding : s.unbonding = s'.unbonding
  totalBonded : s.totalBonded = s'.totalBonded
  totalUnbonding : s.totalUnbonding = s'.totalUnbonding
  balance : s.balance = s'.balance

/-- Everyone who offended together is in the window at the rate of all of them, and whoever was
not there before has paid that much of what it had. -/
structure PaidTogether (view : StakeView) (s s' : StakeLedger) (L : Offences) : Prop where
  window : (s'.window.map WindowOffence.addr).toFinset = involved (recentTo view s L) L
  paid : ∀ o ∈ s'.window, windowRate view s'.totalBonded s'.window ≤ o.appliedBps
  taken : ∀ o ∈ s'.window, o.addr ∉ (recentTo view s L).map WindowOffence.addr →
    o.atStake = s.bond o.addr + s.unbondingAmount o.addr ∧
      o.taken = bpsShare o.atStake o.appliedBps

section
variable {L' : Offences}

omit [StakeAccounts] in
theorem involved_perm (perm : L.Perm L') : involved w₀ L = involved w₀ L' := by
  unfold involved
  rw [toFinset_eq_of_perm _ _ (perm.map Prod.fst)]

omit [StakeAccounts] in
theorem dueRate_perm (perm : L.Perm L') (a : Bytes) :
    dueRate view s₀ w₀ L a = dueRate view s₀ w₀ L' a := by
  have repeats : Repeats s₀ L a ↔ Repeats s₀ L' a := by
    unfold Repeats
    rw [(perm.map Prod.fst).mem_iff, (perm.map Prod.fst).count_eq]
  have empty : L = [] ↔ L' = [] :=
    ⟨fun none => (none ▸ perm).symm.eq_nil, fun none => (none ▸ perm).eq_nil⟩
  unfold dueRate jointRate jointTotal
  simp only [empty, repeats, involved_perm perm]

omit [StakeAccounts] in
theorem recentTo_perm (perm : L.Perm L') : recentTo view s L = recentTo view s L' := by
  unfold recentTo
  refine congrArg (List.filter · s.window) (funext fun o => ?_)
  rw [Bool.eq_iff_iff, any_eq_true, any_eq_true]
  exact exists_congr fun x => by rw [perm.mem_iff]

omit [StakeAccounts] in
theorem Correlated.perm (close : Correlated view s L) (perm : L.Perm L') :
    Correlated view s L' where
  together x mem y mem' := close.together x (perm.mem_iff.2 mem) y (perm.mem_iff.2 mem')
  earlier o old x mem y mem' :=
    close.earlier o old x (perm.mem_iff.2 mem) y (perm.mem_iff.2 mem')
  fits := by
    unfold jointTotal
    rw [← recentTo_perm perm, ← involved_perm perm]
    exact close.fits

omit [StakeAccounts] in
theorem Tallied.stakes (tallied : Tallied view s₀ w₀ L P s w) (a : Bytes) :
    (s.bond a, s.unbondingAmount a) =
      if a ∈ involved w₀ P then
        (((s₀.starting w₀ a).raise (dueRate view s₀ w₀ P a)).bond,
          ((s₀.starting w₀ a).raise (dueRate view s₀ w₀ P a)).unbonding)
      else (s₀.bond a, s₀.unbondingAmount a) := by
  split_ifs with inside
  · rw [← tallied.addrs, mem_toFinset] at inside
    obtain ⟨o, mem, rfl⟩ := mem_map.1 inside
    rw [← tallied.stands o mem]
    rfl
  · obtain ⟨bond, unbonding⟩ := tallied.others a inside
    rw [bond, unbonding]

omit [StakeAccounts] in
theorem sumsTo_unique {f : Bytes → ℕ} (sums : SumsTo f n) (sums' : SumsTo f m) : n = m :=
  (sums.mono sums' fun _ => le_rfl).antisymm (sums'.mono sums fun _ => le_rfl)

omit [StakeAccounts] in
theorem raise_fresh {x : Offender} (r : ℕ) (unpaid : x.entry.appliedBps = 0)
    (untaken : x.entry.taken = 0) (stake : x.entry.atStake = x.bond + x.unbonding) :
    (x.raise r).entry.taken = bpsShare x.entry.atStake (x.raise r).entry.appliedBps := by
  have due := bpsShare_le x.entry.atStake r
  unfold Offender.raise
  split_ifs with low
  · rw [unpaid, untaken]
    simp [bpsShare, shareOfLots, shareOfRest]
  · simp only
    omega

omit [StakeAccounts] in
theorem Tallied.paidTogether (tallied : Tallied view s₀ (recentTo view s₀ L) L L s s.window)
    (nonempty : L ≠ []) : PaidTogether view s₀ s L where
  window := tallied.addrs
  paid o mem := by
    have same := congrArg (fun x => x.entry.appliedBps) (tallied.stands o mem)
    have due : dueRate view s₀ (recentTo view s₀ L) L o.addr = max _ _ := if_neg nonempty
    simp only [Offender.raise_applied, due] at same
    change o.appliedBps = _ at same
    rw [tallied.windowRate_eq]
    omega
  taken o mem fresh := by
    have start : s₀.starting (recentTo view s₀ L) o.addr = _ := starting_absent fresh
    have stands := tallied.stands o mem
    have full := raise_fresh (x := s₀.starting (recentTo view s₀ L) o.addr)
      (dueRate view s₀ (recentTo view s₀ L) L o.addr) (by rw [start]) (by rw [start])
      (by rw [start])
    have stake := (entry_of_raise stands).1
    rw [← stands, ← stake] at full
    refine ⟨?_, full⟩
    rw [stake, start]

theorem reportAll_settles (reached : Reached total s₀) (fits : total ≤ maxValue 128)
    (some : 1 ≤ view.correlationMultiplier) (close : Correlated view s₀ L) :
    ∃ s w n, reportAll view s₀ L = .ok s ∧ Tallied view s₀ (recentTo view s₀ L) L L s w ∧
      (L ≠ [] → w = s.window) ∧ Seized s₀ s n ∧ Sound total s := by
  have sound := reached.sound fits
  have within : s₀.balanceOf vaultAddress ≤ total := sound.sums.le _
  have covered := sound.covered
  have stakes (a : Bytes) : s₀.bond a + s₀.unbondingAmount a ≤ maxValue 128 := by
    have bond := sound.kept.bonded.le a
    have unbonding := sound.kept.unbondings.le a
    omega
  have start : Tallied view s₀ (recentTo view s₀ L) L [] s₀ (recentTo view s₀ L) := by
    refine tallied_start (fun x mem => ?_) (reached.apart.sublist (filter_sublist.map _))
      fun o old x mem => ?_
    · refine filter_congr fun o old => ?_
      rw [Bool.eq_iff_iff, decide_eq_true_eq, any_eq_true]
      constructor
      · exact fun near => ⟨x, mem, decide_eq_true near⟩
      · rintro ⟨y, mem', near⟩
        exact close.earlier o old y mem' x mem (of_decide_eq_true near)
    · obtain ⟨old, near⟩ := mem_filter.1 old
      obtain ⟨y, mem', near⟩ := any_eq_true.1 near
      exact close.earlier o old y mem' x mem (of_decide_eq_true near)
  obtain ⟨s, w, n, ran, tallied, last, seized, sound⟩ :=
    reportAll_tallied start rfl sound fits close.together stakes some close.fits
  exact ⟨s, w, n, ran, tallied, fun nonempty => last (.inr nonempty), seized, sound⟩

/-- Two orders of reporting offences that no report drops leave the same stakes and balances,
with every offender at the rate of all who offended together. -/
theorem reports_agree (reached : Reached total s₀) (fits : total ≤ maxValue 128)
    (governed : 1 ≤ view.correlationMultiplier) (close : Correlated view s₀ L)
    (perm : L.Perm L') :
    ∃ s s', reportAll view s₀ L = .ok s ∧ reportAll view s₀ L' = .ok s' ∧ SameOutcome s s' ∧
      (L ≠ [] → PaidTogether view s₀ s L ∧ PaidTogether view s₀ s' L') := by
  obtain ⟨s, w, n, ran, tallied, last, seized, sound⟩ :=
    reportAll_settles reached fits governed close
  obtain ⟨s', w', n', ran', tallied', last', seized', sound'⟩ :=
    reportAll_settles reached fits governed (close.perm perm)
  have each (a : Bytes) :
      (s.bond a, s.unbondingAmount a) = (s'.bond a, s'.unbondingAmount a) := by
    rw [tallied.stakes a, tallied'.stakes a, ← recentTo_perm perm, ← involved_perm perm,
      ← dueRate_perm perm]
  have bond : s.bond = s'.bond := funext fun a => congrArg Prod.fst (each a)
  have amounts : s.unbondingAmount = s'.unbondingAmount :=
    funext fun a => congrArg Prod.snd (each a)
  have totalBonded : s.totalBonded = s'.totalBonded :=
    sumsTo_unique sound.kept.bonded (bond ▸ sound'.kept.bonded)
  have totalUnbonding : s.totalUnbonding = s'.totalUnbonding :=
    sumsTo_unique sound.kept.unbondings (amounts ▸ sound'.kept.unbondings)
  have taken : n = n' := by
    have owed := seized.owed
    have owed' := seized'.owed
    omega
  refine ⟨s, s', ran, ran', ⟨bond, seized.lowered.unique seized'.lowered amounts, totalBonded,
    totalUnbonding, ?_⟩, fun nonempty => ⟨?_, ?_⟩⟩
  · rw [seized.balance, seized'.balance, taken]
  · rw [last nonempty] at tallied
    exact tallied.paidTogether nonempty
  · have nonempty' : L' ≠ [] := fun none => nonempty (none ▸ perm).eq_nil
    rw [last' nonempty'] at tallied'
    exact tallied'.paidTogether nonempty'

end

end

/-! Three offenders with a tenth of all bonds each, offending ten checkpoints apart. -/

namespace SpreadOffences

@[reducible] def accounts : StakeAccounts where
  account := id
  treasury := replicate 32 1
  pool := replicate 32 2

attribute [local instance] accounts

def validator (n : UInt8) : Bytes := replicate 32 (10 + n)

def view : StakeView := ⟨0, none, 1000, 10, 500, 3⟩

def start : StakeLedger := .fresh (update (fun _ => 0) (validator 3) 100000)

def bonding (n : UInt8) (amount : ℕ) (s : StakeLedger) : StakeLedger :=
  (StakeOp.addBond (validator 3) (validator n) amount).apply view s

def bonded : StakeLedger :=
  bonding 3 70000 (bonding 2 10000 (bonding 1 10000 (bonding 0 10000 start)))

theorem bonding_reached {s : StakeLedger} (reached : Reached 100000 s) (n : UInt8) (amount : ℕ) :
    Reached 100000 (bonding n amount s) := by
  refine .step reached _ _ fun d mem => ?_
  obtain rfl := Option.some.inj mem
  change validator 3 ≠ vaultAddress
  decide

theorem bonded_reached : Reached 100000 bonded := by
  have own : SumsTo (fun _ : Bytes => 0) 0 := .zero
  have sums : SumsTo start.balance 100000 :=
    own.update (a := validator 3) (v := 100000) (m := 100000) rfl
  exact bonding_reached (bonding_reached (bonding_reached (bonding_reached (.fresh sums) ..) ..)
    ..) ..

def offences : Offences := [(validator 0, 0), (validator 1, 20), (validator 2, 10)]

def reordered : Offences := [(validator 0, 0), (validator 2, 10), (validator 1, 20)]

theorem ok_of_bond {r : Except VmError StakeLedger} {n : ℕ}
    (bond : (r.toOption.map fun s => s.bond (validator 0)) = some n) :
    ∃ s, r = .ok s ∧ s.bond (validator 0) = n := by
  cases r with
  | error e => cases bond
  | ok s => exact ⟨s, rfl, Option.some.inj bond⟩

/-- The first offender pays 30% in one order and 60% in the other. -/
theorem order_decides : Reached 100000 bonded ∧ offences.Perm reordered ∧ offences.Nodup ∧
    (∃ s, reportAll view bonded offences = .ok s ∧ s.bond (validator 0) = 7000) ∧
    ∃ s, reportAll view bonded reordered = .ok s ∧ s.bond (validator 0) = 4000 :=
  ⟨bonded_reached, .cons _ (.swap _ _ _), by decide, ok_of_bond (by decide),
    ok_of_bond (by decide)⟩

def together : Offences := [(validator 0, 0), (validator 2, 10)]

theorem together_correlated : Correlated view bonded together where
  together := by decide
  earlier o mem := absurd (show o ∈ ([] : List WindowOffence) from mem) not_mem_nil
  fits := by decide

theorem reports_agree_together : ∃ s s', reportAll view bonded together = .ok s ∧
    reportAll view bonded together.reverse = .ok s' ∧ SameOutcome s s' ∧
      (together ≠ [] → PaidTogether view bonded s together ∧
        PaidTogether view bonded s' together.reverse) :=
  reports_agree bonded_reached (by decide) (by decide) together_correlated
    (reverse_perm _).symm

end SpreadOffences

end Tenzro.Staking
