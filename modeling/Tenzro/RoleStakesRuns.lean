import Tenzro.RoleStakesSound

set_option autoImplicit false

/-!
# Runs of the role-stake ledger

From the genesis bonds on, the vault holds the stakes and what else was sent to it.
-/
namespace Tenzro.RoleStakes
open FixedWidth Outcome NativeBalance RoleLedger Function
open Staking (VmError checkedAdd)
open ByteCodec (hexEncode)
open Book (SumsTo)

section
variable [RoleVault]

/-! ### Genesis -/

/-- The genesis bonds written so far, and the total they put in the vault. -/
structure Bonded (x : RoleLedger × ℕ) : Prop where
  sums : SumsTo x.1.atStake x.2
  typed : x.2 ≤ maxValue 128
  roles : ∀ role, RoleKept x.1 role

theorem genesisRoleBond_bonded {ladder : StakeLadder} {check : String → Except String Unit}
    {b : GenesisRoleBond} {x y : RoleLedger × ℕ} (bonded : Bonded x)
    (ran : genesisRoleBond ladder check b x = .ok y) :
    Bonded y ∧ y.1.balance = x.1.balance := by
  unfold genesisRoleBond at ran
  simp only [bind_ok] at ran
  obtain ⟨_, -, _, -, _, -, _, fresh, _, -, ran⟩ := ran
  have written : ∃ stake : RoleStake, stake.bonded = b.amount ∧ stake.unbonding = 0 ∧
      x.2 + b.amount ≤ maxValue 128 ∧
      y = (x.1.writeRoleStake b.account b.role 0 stake, x.2 + b.amount) := by
    unfold checkedAdd at ran
    cases place : b.endpoint with
    | none =>
      simp only [place] at ran
      obtain ⟨total, sum, ran⟩ := bind_ok.1 ran
      split_ifs at sum with fits
      cases sum
      exact ⟨_, rfl, rfl, fits, (pure_ok.1 ran).symm⟩
    | some url =>
      simp only [place] at ran
      cases good : check url with
      | error e =>
        simp only [good] at ran
        cases ran
      | ok u =>
        simp only [good] at ran
        obtain ⟨total, sum, ran⟩ := bind_ok.1 ran
        split_ifs at sum with fits
        cases sum
        exact ⟨_, rfl, rfl, fits, (pure_ok.1 ran).symm⟩
  obtain ⟨stake, amount, unbonding, fits, rfl⟩ := written
  have none_yet : x.1.stake b.account b.role = none := ensure_ok.1 fresh
  have no_stake : x.1.stakeOf b.account b.role = {} := by
    unfold stakeOf
    rw [none_yet]
    rfl
  have no_bond : x.1.bondOf b.role b.account = 0 := by
    unfold bondOf
    rw [no_stake]
  have nothing : x.1.atStake (b.account, b.role) = 0 := by
    simp only [atStake, no_stake]
  have part := (bonded.roles b.role).bonded_le bonded.sums
  refine ⟨⟨?_, fits, fun r => ?_⟩, writeRoleStake_balance⟩
  · rw [atStake_writeRoleStake]
    exact bonded.sums.update (by omega)
  · by_cases same : r = b.role
    · subst same
      have write : RoleKept (x.1.writeRoleStake b.account b.role (x.1.bondOf b.role b.account) stake)
          b.role := (bonded.roles b.role).write (by omega)
      rwa [no_bond] at write
    · exact (bonded.roles r).other same

theorem genesisRoleBonds_bonded {ladder : StakeLadder} {check : String → Except String Unit}
    {bonds : List GenesisRoleBond} {x y : RoleLedger × ℕ} (bonded : Bonded x)
    (ran : genesisRoleBonds ladder check bonds x = .ok y) :
    Bonded y ∧ y.1.balance = x.1.balance := by
  induction bonds generalizing x with
  | nil =>
    cases ran
    exact ⟨bonded, rfl⟩
  | cons b rest ih =>
    obtain ⟨z, first, ran⟩ := bind_ok.1 ran
    obtain ⟨next, same⟩ := genesisRoleBond_bonded bonded first
    obtain ⟨last, same'⟩ := ih next ran
    exact ⟨last, same'.trans same⟩

omit [RoleVault] in
theorem bonded_empty (balance : Bytes → ℕ) :
    Bonded ((⟨balance, fun _ _ => none, fun _ => none⟩ : RoleLedger), 0) where
  sums := SumsTo.zero
  typed := Nat.zero_le _
  roles _ := ⟨SumsTo.zero, List.nodup_nil, fun me => by
    constructor
    · intro listed
      cases listed
    · rintro ⟨account, -, positive⟩
      exact absurd positive (lt_irrefl 0)⟩

theorem genesis_kept {ladder : StakeLadder} {check : String → Except String Unit}
    {balance : Bytes → ℕ} {bonds : List GenesisRoleBond} {s : RoleLedger}
    (typed : balance vaultAccount ≤ maxValue 128)
    (ran : genesis ladder check balance bonds = .ok s) :
    ∃ spare, Kept spare s ∧ (balance vaultAccount = 0 → spare = 0) := by
  unfold genesis at ran
  obtain ⟨⟨t, total⟩, bonded, ran⟩ := bind_ok.1 ran
  obtain ⟨⟨sums, fits, roles⟩, same⟩ := genesisRoleBonds_bonded (bonded_empty balance) bonded
  simp only at ran same sums fits roles
  split_ifs at ran with nothing
  · cases pure_ok.1 ran
    rw [nothing] at sums
    rw [← same] at typed ⊢
    exact ⟨s.balance vaultAccount, ⟨⟨0, sums, (Nat.zero_add _).symm⟩, typed, roles⟩, id⟩
  · cases pure_ok.1 ran
    refine ⟨0, ⟨⟨total, sums, update_self _ _ _⟩, ?_, fun role =>
      (roles role).balance _⟩, fun _ => rfl⟩
    change update t.balance vaultAccount total vaultAccount ≤ _
    rwa [update_self]

/-! ### Runs -/

inductive RoleStep where
  | stake (view : RoleView) (sender : Bytes) (op : StakeOp)
  | slash (account : Bytes) (role : NetworkRole) (bps : ℕ)
  | take (account : Bytes) (role : NetworkRole) (amount : ℕ)
  /-- Any other transaction, by the balances it leaves. -/
  | other (balance : Bytes → ℕ)

namespace RoleStep

def run (s : RoleLedger) : RoleStep → Except VmError RoleLedger
  | stake view sender op => s.executeStake view sender op
  | slash account role bps => Prod.fst <$> s.takeRoleStake account role bps
  | take account role amount => Prod.fst <$> s.takeRoleStakeAmount account role amount
  | other balance => .ok { s with balance }

/-- A refused operation leaves nothing behind. -/
def apply (s : RoleLedger) (x : RoleStep) : RoleLedger :=
  match x.run s with
  | .ok s' => s'
  | .error _ => s

def Signed (s : RoleLedger) : RoleStep → Prop
  | stake _ sender _ => Outside sender
  | other balance => s.balance vaultAccount ≤ balance vaultAccount ∧
    balance vaultAccount ≤ maxValue 128
  | _ => True

def sent (s : RoleLedger) : RoleStep → ℕ
  | other balance => balance vaultAccount - s.balance vaultAccount
  | _ => 0

end RoleStep

def run : RoleLedger → List RoleStep → RoleLedger
  | s, [] => s
  | s, x :: rest => run (x.apply s) rest

def SignedRun : RoleLedger → List RoleStep → Prop
  | _, [] => True
  | s, x :: rest => x.Signed s ∧ SignedRun (x.apply s) rest

def sentInRun : RoleLedger → List RoleStep → ℕ
  | _, [] => 0
  | s, x :: rest => x.sent s + sentInRun (x.apply s) rest

theorem apply_kept {spare : ℕ} {s : RoleLedger} {x : RoleStep} (kept : Kept spare s)
    (signed : x.Signed s) : Kept (spare + x.sent s) (x.apply s) := by
  unfold RoleStep.apply
  cases ran : x.run s with
  | error e =>
    cases x with
    | other balance => cases ran
    | stake view sender op => exact kept
    | slash account role bps => exact kept
    | take account role amount => exact kept
  | ok s' =>
    cases x with
    | stake view sender op => exact executeStake_kept kept signed ran
    | slash account role bps =>
      obtain ⟨y, took, rfl⟩ := map_ok.1 ran
      exact (takeRoleStake_kept kept bps).of_ok took
    | take account role amount =>
      obtain ⟨y, took, rfl⟩ := map_ok.1 ran
      exact (takeRoleStakeAmount_kept kept amount).of_ok took
    | other balance =>
      cases ran
      obtain ⟨more, typed⟩ := signed
      obtain ⟨n, sums, cover⟩ := kept.covered
      refine ⟨⟨n, sums, ?_⟩, typed, fun role => (kept.roles role).balance _⟩
      change balance vaultAccount = n + (spare + (balance vaultAccount - s.balance vaultAccount))
      omega

theorem run_kept {spare : ℕ} {s : RoleLedger} {steps : List RoleStep} (kept : Kept spare s)
    (signed : SignedRun s steps) : Kept (spare + sentInRun s steps) (run s steps) := by
  induction steps generalizing s spare with
  | nil => exact kept
  | cons x rest ih =>
    have next := ih (apply_kept kept signed.1) signed.2
    rwa [Nat.add_assoc] at next

/-- What holds of the ledger, with `spare` in the vault besides the stakes. -/
structure Sound (spare : ℕ) (s : RoleLedger) : Prop where
  vault : ∃ n, SumsTo s.atStake n ∧ s.balance vaultAccount = n + spare
  totals : ∀ role, SumsTo (s.bondOf role) (s.totalOf role).bonded
  stakers : ∀ role, (s.totalOf role).stakers.Nodup ∧ ∀ me, me ∈ (s.totalOf role).stakers ↔
    ∃ account, me = hexEncode account ∧ 0 < s.bondOf role account
  withdrawn : ∀ view sender role required available, Outside sender →
    s.executeStake view sender (.withdraw role) = .error (.insufficientBalance required available) →
      required = RoleView.cost view ∧ available = balanceOf s.balance sender
  slashed : ∀ account role bps required available,
    s.takeRoleStake account role bps ≠ .error (.insufficientBalance required available)
  taken : ∀ account role amount required available,
    s.takeRoleStakeAmount account role amount ≠ .error (.insufficientBalance required available)

theorem Kept.sound {spare : ℕ} {s : RoleLedger} (kept : Kept spare s) : Sound spare s where
  vault := kept.covered
  totals role := (kept.roles role).bonded
  stakers role := ⟨(kept.roles role).once, (kept.roles role).stakers⟩
  withdrawn view sender role required available outside refused := by
    have meets : Meets (s.executeStake view sender (.withdraw role)) _ _ :=
      withdraw_notShort kept outside
    rw [refused] at meets
    rcases meets with other | same
    · exact absurd rfl (other required available)
    · cases same
      exact ⟨rfl, rfl⟩
  slashed account role bps required available refused := by
    have meets : Meets (s.takeRoleStake account role bps) _ _ := takeRoleStake_kept kept bps
    rw [refused] at meets
    exact meets required available rfl
  taken account role amount required available refused := by
    have meets : Meets (s.takeRoleStakeAmount account role amount) _ _ :=
      takeRoleStakeAmount_kept kept amount
    rw [refused] at meets
    exact meets required available rfl

/-- From genesis on, whatever is bonded, withdrawn and slashed, the ledger is sound; the vault holds
exactly the stakes where nothing else is sent to it. -/
theorem role_stake_ledger (ladder : StakeLadder) (check : String → Except String Unit)
    (balance : Bytes → ℕ) (bonds : List GenesisRoleBond) (s : RoleLedger) (steps : List RoleStep)
    (typed : balance vaultAccount ≤ maxValue 128)
    (start : genesis ladder check balance bonds = .ok s) (signed : SignedRun s steps) :
    ∃ spare, Sound (spare + sentInRun s steps) (run s steps) ∧
      (balance vaultAccount = 0 → spare = 0) := by
  obtain ⟨spare, kept, empty⟩ := genesis_kept typed start
  exact ⟨spare, (run_kept kept signed).sound, empty⟩

end

/-! ### One operator -/

@[reducible] def plainVault : RoleVault where
  account := id
  vault := [9]
  signed _ _ _ := false
  pqSigned _ _ _ := false

attribute [local instance] plainVault

def flatLadder : StakeLadder := ⟨50, 50, 50, 50, 50, 50, 50, 50, 50, 50, 50, 50⟩

def viewAt (nowMs : ℤ) : RoleView :=
  ⟨nowMs, 0, flatLadder, 0, 1, 1000, fun _ => .enabled, fun _ => false, fun _ => .ok ()⟩

def purse (a : Bytes) : ℕ := if a = [1] then 500 else 0

/-- An RPC operator bonds, is slashed a tenth, unbonds the rest and withdraws it. -/
def rpcSteps : List RoleStep :=
  [.stake (viewAt 1) [1] (.bond .rpc 200 .none), .slash [1] .rpc 1000,
    .stake (viewAt 2) [1] (.unbond .rpc 180), .stake (viewAt 1002) [1] (.withdraw .rpc)]

theorem role_stake_ledger_rpc :
    balanceOf (run ⟨purse, fun _ _ => none, fun _ => none⟩ (rpcSteps.take 2)).balance [9] = 180 ∧
      balanceOf (run ⟨purse, fun _ _ => none, fun _ => none⟩ rpcSteps).balance [1] = 480 ∧
      ∃ spare, Sound (spare + sentInRun ⟨purse, fun _ _ => none, fun _ => none⟩ rpcSteps)
        (run ⟨purse, fun _ _ => none, fun _ => none⟩ rpcSteps) ∧
          (purse vaultAccount = 0 → spare = 0) := by
  have outside : Outside [1] := by
    intro same
    cases same
  exact ⟨by decide, by decide,
    role_stake_ledger flatLadder (fun _ => .ok ()) purse [] ⟨purse, fun _ _ => none, fun _ => none⟩
      rpcSteps (by decide) rfl ⟨outside, trivial, outside, outside, trivial⟩⟩

end Tenzro.RoleStakes
