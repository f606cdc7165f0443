import Tenzro.RoleStakes

set_option autoImplicit false
set_option linter.dupNamespace false

/-!
# The books of the role stakes

Every operation moves one stake and the vault by the same amount. So the vault covers the stakes,
each role's total is the sum of its bonds, and its list names the accounts that bonded.
-/
namespace Tenzro.RoleStakes
open FixedWidth Outcome NativeBalance Function List
open Staking (VmError slashSplit checkedAdd checkedSub bpsShare_le)
open BalanceMovers (roleStakeMoveBalance roleStakeMoveBalance_ok)
open ByteCodec (hexEncode hexEncode_injective)
open Book (SumsTo)

namespace RoleLedger

def bondOf (s : RoleLedger) (role : NetworkRole) (account : Bytes) : ℕ :=
  (s.stakeOf account role).bonded

def atStake (s : RoleLedger) (x : Bytes × NetworkRole) : ℕ :=
  (s.stakeOf x.1 x.2).bonded + (s.stakeOf x.1 x.2).unbonding

/-- What the role's record says of its bonds. -/
structure RoleKept (s : RoleLedger) (role : NetworkRole) : Prop where
  bonded : SumsTo (s.bondOf role) (s.totalOf role).bonded
  once : (s.totalOf role).stakers.Nodup
  stakers : ∀ me, me ∈ (s.totalOf role).stakers ↔
    ∃ account, me = hexEncode account ∧ 0 < s.bondOf role account

section
variable {s : RoleLedger} {account a : Bytes} {role r : NetworkRole} {before : ℕ} {stake : RoleStake}

theorem writeRoleStake_stake : (s.writeRoleStake account role before stake).stake =
    update s.stake account (update (s.stake account) role (some stake)) := by
  unfold writeRoleStake
  simp only
  split_ifs
  all_goals rfl

theorem writeRoleStake_balance :
    (s.writeRoleStake account role before stake).balance = s.balance := by
  unfold writeRoleStake
  simp only
  split_ifs
  all_goals rfl

theorem stakeOf_writeRoleStake : (s.writeRoleStake account role before stake).stakeOf a r =
    if a = account ∧ r = role then stake else s.stakeOf a r := by
  unfold stakeOf
  rw [writeRoleStake_stake]
  by_cases own : a = account
  · subst own
    rw [update_self]
    by_cases same : r = role
    · subst same
      rw [update_self, if_pos ⟨rfl, rfl⟩]
      rfl
    · rw [update_of_ne same, if_neg (by simp [same])]
  · rw [update_of_ne own, if_neg (by simp [own])]

theorem bondOf_writeRoleStake : (s.writeRoleStake account role before stake).bondOf role =
    update (s.bondOf role) account stake.bonded := by
  funext a
  unfold bondOf
  rw [stakeOf_writeRoleStake]
  by_cases own : a = account
  · rw [own, update_self, if_pos ⟨rfl, rfl⟩]
  · rw [update_of_ne own, if_neg (by simp [own])]

theorem bondOf_writeRoleStake_of_ne (other : r ≠ role) :
    (s.writeRoleStake account role before stake).bondOf r = s.bondOf r := by
  funext a
  unfold bondOf
  rw [stakeOf_writeRoleStake, if_neg (by simp [other])]

theorem atStake_writeRoleStake : (s.writeRoleStake account role before stake).atStake =
    update s.atStake (account, role) (stake.bonded + stake.unbonding) := by
  funext x
  unfold atStake
  rw [stakeOf_writeRoleStake]
  by_cases own : x = (account, role)
  · rw [own, update_self, if_pos ⟨rfl, rfl⟩]
  · have apart : ¬(x.1 = account ∧ x.2 = role) := fun both => own (Prod.ext both.1 both.2)
    rw [update_of_ne own, if_neg apart]

theorem totalOf_writeRoleStake_of_ne (other : r ≠ role) :
    (s.writeRoleStake account role before stake).totalOf r = s.totalOf r := by
  unfold totalOf writeRoleStake
  simp only
  split_ifs
  · rfl
  all_goals simp only [update_of_ne other]

def stakersAfter (stakers : List String) (me : String) (before after : ℕ) : List String :=
  if before = 0 ∧ after ≠ 0 then stakers ++ [me]
  else if before ≠ 0 ∧ after = 0 then stakers.filter (· ≠ me)
  else stakers

theorem totalOf_writeRoleStake : (s.writeRoleStake account role before stake).totalOf role =
    if stake.bonded = before then s.totalOf role
    else ⟨saturatingAdd 128 ((s.totalOf role).bonded - before) stake.bonded,
      stakersAfter (s.totalOf role).stakers (hexEncode account) before stake.bonded⟩ := by
  unfold writeRoleStake
  simp only
  by_cases same : stake.bonded = before
  · rw [if_pos same, if_pos same]
    rfl
  · rw [if_neg same, if_neg same]
    unfold totalOf stakersAfter
    simp only [update_self]
    rfl

theorem RoleKept.stakersAfter (kept : RoleKept s role) :
    (stakersAfter (s.totalOf role).stakers (hexEncode account) (s.bondOf role account)
      stake.bonded).Nodup ∧
    ∀ me, me ∈ RoleLedger.stakersAfter (s.totalOf role).stakers (hexEncode account)
        (s.bondOf role account) stake.bonded ↔
      ∃ a, me = hexEncode a ∧ 0 < update (s.bondOf role) account stake.bonded a := by
  have listed := kept.stakers
  have others : ∀ me, (∃ a, me = hexEncode a ∧
      0 < update (s.bondOf role) account stake.bonded a) ↔
      (me = hexEncode account ∧ 0 < stake.bonded) ∨
        (me ≠ hexEncode account ∧ me ∈ (s.totalOf role).stakers) := by
    intro me
    rw [listed]
    constructor
    · rintro ⟨a, rfl, positive⟩
      by_cases own : a = account
      · subst own
        rw [update_self] at positive
        exact .inl ⟨rfl, positive⟩
      · rw [update_of_ne own] at positive
        exact .inr ⟨fun same => own (hexEncode_injective same), a, rfl, positive⟩
    · rintro (⟨rfl, positive⟩ | ⟨apart, a, rfl, positive⟩)
      · exact ⟨account, rfl, by rwa [update_self]⟩
      · have own : a ≠ account := fun same => apart (by rw [same])
        exact ⟨a, rfl, by rwa [update_of_ne own]⟩
  have mine : hexEncode account ∈ (s.totalOf role).stakers ↔ 0 < s.bondOf role account := by
    rw [listed]
    constructor
    · rintro ⟨a, same, positive⟩
      rwa [hexEncode_injective same]
    · exact fun positive => ⟨account, rfl, positive⟩
  unfold RoleLedger.stakersAfter
  split_ifs with enters leaves
  · have out : hexEncode account ∉ (s.totalOf role).stakers := by
      rw [mine]
      omega
    refine ⟨nodup_append.2 ⟨kept.once, nodup_singleton _, ?_⟩, fun me => ?_⟩
    · intro x mem y last same
      rw [mem_singleton.1 last] at same
      exact out (same ▸ mem)
    · rw [others, mem_append, mem_singleton]
      by_cases own : me = hexEncode account
      · simp [own, Nat.pos_of_ne_zero enters.2]
      · simp [own]
  · refine ⟨kept.once.filter _, fun me => ?_⟩
    rw [others, mem_filter]
    by_cases own : me = hexEncode account
    · simp [own, leaves.2]
    · simp [own]
  · refine ⟨kept.once, fun me => ?_⟩
    rw [others]
    by_cases own : me = hexEncode account
    · rw [own, mine]
      simp only [true_and, ne_eq, not_true_eq_false, false_and, or_false]
      omega
    · simp [own]

theorem RoleKept.write (kept : RoleKept s role) (fits : (s.totalOf role).bonded -
    s.bondOf role account + stake.bonded ≤ maxValue 128) :
    RoleKept (s.writeRoleStake account role (s.bondOf role account) stake) role := by
  have within := kept.bonded.le account
  by_cases same : stake.bonded = s.bondOf role account
  · have unmoved : update (s.bondOf role) account stake.bonded = s.bondOf role := by
      rw [same, update_eq_self]
    have total : (s.writeRoleStake account role (s.bondOf role account) stake).totalOf role =
        s.totalOf role := by rw [totalOf_writeRoleStake, if_pos same]
    have bonds : (s.writeRoleStake account role (s.bondOf role account) stake).bondOf role =
        s.bondOf role := by rw [bondOf_writeRoleStake, unmoved]
    constructor
    · rw [total, bonds]
      exact kept.bonded
    · rw [total]
      exact kept.once
    · rw [total, bonds]
      exact kept.stakers
  · have listed : (RoleLedger.stakersAfter (s.totalOf role).stakers (hexEncode account)
        (s.bondOf role account) stake.bonded).Nodup ∧ _ := kept.stakersAfter
    constructor
    · rw [totalOf_writeRoleStake, if_neg same, bondOf_writeRoleStake]
      refine kept.bonded.update ?_
      change saturatingAdd 128 _ _ + _ = _
      rw [saturatingAdd, min_eq_left fits]
      omega
    · rw [totalOf_writeRoleStake, if_neg same]
      exact listed.1
    · rw [totalOf_writeRoleStake, if_neg same, bondOf_writeRoleStake]
      exact listed.2

theorem RoleKept.other (kept : RoleKept s r) (other : r ≠ role) :
    RoleKept (s.writeRoleStake account role before stake) r := by
  have total : (s.writeRoleStake account role before stake).totalOf r = s.totalOf r :=
    totalOf_writeRoleStake_of_ne other
  have bonds : (s.writeRoleStake account role before stake).bondOf r = s.bondOf r :=
    bondOf_writeRoleStake_of_ne other
  constructor
  · rw [total, bonds]
    exact kept.bonded
  · rw [total]
    exact kept.once
  · rw [total, bonds]
    exact kept.stakers

theorem RoleKept.balance (kept : RoleKept s role) (b : Bytes → ℕ) :
    RoleKept { s with balance := b } role :=
  ⟨kept.bonded, kept.once, kept.stakers⟩

theorem RoleKept.bonded_le {n : ℕ} (kept : RoleKept s role) (sums : SumsTo s.atStake n) :
    (s.totalOf role).bonded ≤ n :=
  kept.bonded.along sums ⟨fun a => (a, role), fun _ _ same => (Prod.ext_iff.1 same).1⟩
    fun _ => Nat.le_add_right _ _

end

end RoleLedger

/-! ### The vault and the stakes -/

open RoleLedger

section
variable [RoleVault]

def vaultAccount : Bytes := AccountNames.account RoleVault.vault

/-- The vault covers the stakes with `spare` to spare, and the roles' records are kept. -/
structure Kept (spare : ℕ) (s : RoleLedger) : Prop where
  covered : ∃ n, SumsTo s.atStake n ∧ s.balance vaultAccount = n + spare
  typed : s.balance vaultAccount ≤ maxValue 128
  roles : ∀ role, RoleKept s role

def Moved (s s' : RoleLedger) (account : Bytes) (role : NetworkRole) : Prop :=
  ∃ b stake, s' = RoleLedger.writeRoleStake { s with balance := b } account role
      (s.bondOf role account) stake ∧
    b vaultAccount + s.atStake (account, role) =
      s.balance vaultAccount + (stake.bonded + stake.unbonding) ∧
    b vaultAccount ≤ maxValue 128

section
variable {spare : ℕ} {s s' : RoleLedger} {account : Bytes} {role : NetworkRole}

theorem Kept.moved (kept : Kept spare s) (step : Moved s s' account role) : Kept spare s' := by
  obtain ⟨n, sums, cover⟩ := kept.covered
  obtain ⟨b, stake, rfl, balanced, typed⟩ := step
  have within := sums.le (account, role)
  have bonded := (kept.roles role).bonded.le account
  have total := (kept.roles role).bonded_le sums
  have own : s.bondOf role account ≤ s.atStake (account, role) := Nat.le_add_right _ _
  refine ⟨⟨b vaultAccount - spare, ?_, ?_⟩, ?_, fun r => ?_⟩
  · rw [atStake_writeRoleStake]
    refine sums.update ?_
    omega
  · rw [writeRoleStake_balance]
    change b vaultAccount = _
    omega
  · rw [writeRoleStake_balance]
    exact typed
  · by_cases same : r = role
    · subst same
      -- what the role's bonds come to with the new bond is within what the vault holds
      have others : (s.totalOf r).bonded - s.bondOf r account ≤ n - s.atStake (account, r) := by
        have rest : SumsTo (update (s.bondOf r) account 0)
            ((s.totalOf r).bonded - s.bondOf r account) :=
          (kept.roles r).bonded.update (by omega)
        have restAll : SumsTo (update s.atStake (account, r) 0)
            (n - s.atStake (account, r)) := sums.update (by omega)
        refine rest.along restAll ⟨fun a => (a, r), fun _ _ same => (Prod.ext_iff.1 same).1⟩
          fun a => ?_
        change _ ≤ update s.atStake (account, r) 0 (a, r)
        by_cases mine : a = account
        · rw [mine, update_self, update_self]
        · have apart : (a, r) ≠ (account, r) := fun same => mine (Prod.ext_iff.1 same).1
          rw [update_of_ne mine, update_of_ne apart]
          exact Nat.le_add_right _ _
      refine ((kept.roles r).balance b).write ?_
      change (s.totalOf r).bonded - s.bondOf r account + stake.bonded ≤ _
      omega
    · exact ((kept.roles r).balance b).other same

end

/-! ### Each operation -/

section
variable {spare : ℕ} {s s' : RoleLedger} {account sender : Bytes} {role : NetworkRole}
  {view : RoleView}

def NotShort (e : VmError) : Prop := ∀ required available, e ≠ .insufficientBalance required available

theorem Kept.atStake_le (kept : Kept spare s) (account : Bytes) (role : NetworkRole) :
    s.atStake (account, role) ≤ s.balance vaultAccount := by
  obtain ⟨n, sums, cover⟩ := kept.covered
  have within := sums.le (account, role)
  omega

theorem takeParts_kept (kept : Kept spare s) {fromBond fromUnbonding : ℕ}
    (bond : fromBond ≤ (s.stakeOf account role).bonded)
    (unbonding : fromUnbonding ≤ (s.stakeOf account role).unbonding) :
    Meets (s.takeParts account role fromBond fromUnbonding) (fun x => Kept spare x.1) NotShort := by
  have within := kept.atStake_le account role
  have typed := kept.typed
  have covered : fromBond + fromUnbonding ≤ balanceOf s.balance RoleVault.vault := by
    change (s.stakeOf account role).bonded + (s.stakeOf account role).unbonding ≤
      balanceOf s.balance RoleVault.vault at within
    omega
  unfold takeParts
  simp only
  split_ifs with nothing
  · exact kept
  · rw [checkedSub, if_pos covered]
    refine @Kept.moved _ _ _ _ account role kept ⟨_, _, rfl, ?_, ?_⟩
    · unfold setBalance balanceOf vaultAccount
      rw [update_self]
      unfold balanceOf at covered
      change _ + ((s.stakeOf account role).bonded + (s.stakeOf account role).unbonding) =
        s.balance (AccountNames.account RoleVault.vault) +
          ((s.stakeOf account role).bonded - fromBond +
            ((s.stakeOf account role).unbonding - fromUnbonding))
      omega
    · unfold setBalance balanceOf vaultAccount
      rw [update_self]
      exact (Nat.sub_le _ _).trans typed

theorem takeRoleStake_kept (kept : Kept spare s) (bps : ℕ) :
    Meets (s.takeRoleStake account role bps) (fun x => Kept spare x.1) NotShort := by
  unfold takeRoleStake
  cases found : s.stake account role with
  | none => exact kept
  | some stake =>
    have own : s.stakeOf account role = stake := by
      unfold stakeOf
      rw [found]
      rfl
    unfold slashSplit
    simp only
    split_ifs with fits
    · refine takeParts_kept kept ?_ ?_
      · rw [own]
        exact bpsShare_le _ _
      · rw [own]
        exact bpsShare_le _ _
    · intro required available same
      cases same

theorem takeRoleStakeAmount_kept (kept : Kept spare s) (amount : ℕ) :
    Meets (s.takeRoleStakeAmount account role amount) (fun x => Kept spare x.1) NotShort := by
  unfold takeRoleStakeAmount
  cases found : s.stake account role with
  | none => exact kept
  | some stake =>
    have own : s.stakeOf account role = stake := by
      unfold stakeOf
      rw [found]
      rfl
    refine takeParts_kept kept ?_ ?_
    · rw [own]
      exact min_le_right _ _
    · rw [own]
      exact min_le_right _ _

theorem Kept.spend (kept : Kept spare s) {b : Bytes → ℕ}
    (vault : b vaultAccount = s.balance vaultAccount) : Kept spare { s with balance := b } := by
  obtain ⟨n, sums, cover⟩ := kept.covered
  exact ⟨⟨n, sums, vault.trans cover⟩, vault.le.trans kept.typed,
    fun role => (kept.roles role).balance b⟩

/-- An address that signs: the vault's key is a hash. -/
def Outside (sender : Bytes) : Prop := AccountNames.account sender ≠ vaultAccount

theorem charge_kept (kept : Kept spare s) (outside : Outside sender) :
    Meets (s.charge view sender) (Kept spare) fun e => e =
      .insufficientBalance (RoleView.cost view) (balanceOf s.balance sender) := by
  unfold charge
  simp only
  refine Meets.bind (Meets.ensure fun _ => rfl) fun _ _ => ?_
  exact kept.spend (update_of_ne (Ne.symm outside) _ _)

def Leaves (s : RoleLedger) (sender : Bytes) (role : NetworkRole) (x : RoleLedger × RoleStake) :
    Prop :=
  ∃ b, x.1 = { s with balance := b } ∧ b vaultAccount + s.atStake (sender, role) =
    s.balance vaultAccount + (x.2.bonded + x.2.unbonding) ∧ b vaultAccount ≤ maxValue 128

theorem moved_vault {b : Bytes → ℕ} {amount : ℕ} (outside : Outside sender)
    (ran : roleStakeMoveBalance s.balance sender RoleVault.vault amount = .ok b) :
    b vaultAccount = s.balance vaultAccount + amount ∧ b vaultAccount ≤ maxValue 128 := by
  obtain ⟨-, fits, rfl⟩ := roleStakeMoveBalance_ok ran
  exact ⟨moved_dest (Ne.symm outside), fits⟩

theorem bond_leaves (outside : Outside sender) {amount : ℕ}
    {capacity : StakeCapacity} {x : RoleLedger × RoleStake}
    (ran : s.bond view sender role amount capacity = .ok x) : Leaves s sender role x := by
  unfold RoleLedger.bond at ran
  obtain ⟨_, -, ran⟩ := bind_ok.1 ran
  have paid : ∃ bonded b, checkedAdd (s.stakeOf sender role).bonded amount
        (.invalidTransaction "the bond overflows") = .ok bonded ∧
      roleStakeMoveBalance s.balance sender RoleVault.vault amount = .ok b ∧
      x = ({ s with balance := b }, { s.stakeOf sender role with
        bonded, capacity, bondedAtMs := view.nowMs }) := by
    cases key : role.statusKey with
    | none =>
      simp only [key] at ran
      simp only [bind_ok] at ran
      obtain ⟨_, -, _, -, _, -, bonded, sum, _, -, b, paid, ran⟩ := ran
      exact ⟨bonded, b, sum, paid, (pure_ok.1 ran).symm⟩
    | some key =>
      simp only [key] at ran
      simp only [bind_ok] at ran
      obtain ⟨_, -, _, -, _, -, _, -, bonded, sum, _, -, b, paid, ran⟩ := ran
      exact ⟨bonded, b, sum, paid, (pure_ok.1 ran).symm⟩
  obtain ⟨bonded, b, sum, paid, rfl⟩ := paid
  obtain ⟨into, fits⟩ := moved_vault outside paid
  unfold checkedAdd at sum
  split_ifs at sum
  cases sum
  refine ⟨b, rfl, ?_, fits⟩
  rw [into]
  simp only [atStake]
  omega

theorem unbond_leaves (kept : Kept spare s) {amount : ℕ} {x : RoleLedger × RoleStake}
    (ran : s.unbond view sender role amount = .ok x) : Leaves s sender role x := by
  have within := kept.atStake_le sender role
  have typed := kept.typed
  unfold RoleLedger.unbond at ran
  obtain ⟨_, -, ran⟩ := bind_ok.1 ran
  obtain ⟨_, some_of_it, ran⟩ := bind_ok.1 ran
  obtain ⟨_, -, ran⟩ := bind_ok.1 ran
  obtain rfl := pure_ok.1 ran
  have part := ensure_ok.1 some_of_it
  refine ⟨s.balance, rfl, ?_, typed⟩
  simp only [atStake] at within ⊢
  -- everything at stake is in the vault, so the sum does not saturate
  rw [saturatingAdd, min_eq_left (by omega)]
  omega

theorem withdraw_leaves (kept : Kept spare s) (outside : Outside sender)
    {x : RoleLedger × RoleStake} (ran : s.withdraw view sender role = .ok x) :
    Leaves s sender role x := by
  have typed := kept.typed
  unfold RoleLedger.withdraw at ran
  obtain ⟨_, -, ran⟩ := bind_ok.1 ran
  obtain ⟨_, -, ran⟩ := bind_ok.1 ran
  obtain ⟨b, paid, ran⟩ := bind_ok.1 ran
  obtain rfl := pure_ok.1 ran
  obtain ⟨enough, -, rfl⟩ := roleStakeMoveBalance_ok paid
  have out := moved_source (b := s.balance) (n := (s.stakeOf sender role).unbonding) outside
  change _ ≤ s.balance vaultAccount at enough
  refine ⟨_, rfl, ?_, ?_⟩
  · change moved s.balance vaultAccount _ _ vaultAccount + _ = _
    rw [out]
    simp only [atStake]
    omega
  · change moved s.balance vaultAccount _ _ vaultAccount ≤ _
    rw [out]
    omega

theorem endpoint_leaves (kept : Kept spare s) {url : String} {x : RoleLedger × RoleStake}
    (ran : s.endpoint view sender role url = .ok x) : Leaves s sender role x := by
  have typed := kept.typed
  unfold RoleLedger.endpoint at ran
  simp only at ran
  split_ifs at ran with clear
  · obtain rfl := pure_ok.1 ran
    exact ⟨_, rfl, rfl, typed⟩
  · obtain ⟨_, -, ran⟩ := bind_ok.1 ran
    split at ran
    · cases ran
    · obtain rfl := pure_ok.1 ran
      exact ⟨_, rfl, rfl, typed⟩

theorem stakeAfter_leaves (kept : Kept spare s) (outside : Outside sender) {op : StakeOp}
    {x : RoleLedger × RoleStake} (ran : s.stakeAfter view sender op = .ok x) :
    Leaves s sender op.role x := by
  cases op with
  | bond role amount capacity => exact bond_leaves outside ran
  | unbond role amount => exact unbond_leaves kept ran
  | withdraw role => exact withdraw_leaves kept outside ran
  | endpoint role url => exact endpoint_leaves kept ran

theorem executeStake_kept (kept : Kept spare s) (outside : Outside sender) {op : StakeOp}
    (ran : s.executeStake view sender op = .ok s') : Kept spare s' := by
  unfold executeStake at ran
  simp only [bind_ok] at ran
  obtain ⟨_, -, _, -, charged, paid, x, after, ran⟩ := ran
  obtain rfl := pure_ok.1 ran
  have kept : Kept spare charged := (charge_kept kept outside).of_ok paid
  obtain ⟨b, same, balanced, typed⟩ := stakeAfter_leaves kept outside after
  rw [same]
  exact kept.moved ⟨b, x.2, rfl, balanced, typed⟩

theorem withdraw_notShort (kept : Kept spare s) (outside : Outside sender) :
    Meets (s.executeStake view sender (.withdraw role)) (fun _ => True) fun e => NotShort e ∨
      e = .insufficientBalance (RoleView.cost view) (balanceOf s.balance sender) := by
  have other : ∀ msg, NotShort (.invalidTransaction msg) := by
    intro msg required available same
    cases same
  unfold executeStake
  refine Meets.bind (Meets.ensure fun _ => .inl (other _)) fun _ _ => ?_
  refine Meets.bind (Meets.ensure fun _ => .inl (other _)) fun _ _ => ?_
  refine Meets.bind ((charge_kept kept outside).mono fun e same => .inr same) fun charged kept => ?_
  refine Meets.bind (show Meets _ (fun _ => True) _ from ?_) fun _ _ => trivial
  change Meets (charged.withdraw view sender role) _ _
  have within := kept.atStake_le sender role
  have covered : (charged.stakeOf sender role).unbonding ≤
      balanceOf charged.balance RoleVault.vault :=
    (Nat.le_add_left _ _).trans within
  unfold RoleLedger.withdraw
  refine Meets.bind (Meets.ensure fun _ => .inl (other _)) fun _ _ => ?_
  refine Meets.bind (Meets.ensure fun _ => .inl (other _)) fun _ _ => ?_
  refine Meets.bind (show Meets _ (fun _ => True) _ from ?_) fun _ _ => trivial
  unfold roleStakeMoveBalance
  refine Meets.bind (Meets.ensure fun short => absurd covered short) fun _ _ => ?_
  refine Meets.bind (show Meets _ (fun _ => True) _ from ?_) fun _ _ => trivial
  unfold checkedAdd
  split_ifs
  · trivial
  · left
    intro required available same
    cases same

end

end

end Tenzro.RoleStakes
