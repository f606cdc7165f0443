import Tenzro.StakingSlash

set_option autoImplicit false
set_option linter.dupNamespace false

/-!
# Every staking operation is accounted for

From a ledger with no stake, after any operations, the totals are the sums of the records, the
vault covers what it owes, and what leaves the vault is credited where the call says.
-/
namespace Tenzro.Staking
open FixedWidth Outcome Book List

section
variable [StakeAccounts]

/-- The operations on validator stake. A bond is recorded after its deposit from `source`. -/
inductive StakeOp where
  | addBond (source addr : Bytes) (amount : ℕ)
  | addSponsoredBond (source addr : Bytes) (amount : ℕ)
  | recallSponsoredBond (addr : Bytes) (amount : ℕ)
  | releaseRecalled (addr : Bytes)
  | beginUnbonding (addr : Bytes)
  | withdrawUnbondedSplit (addr payee : Bytes)
  | slashToInsurance (addr : Bytes) (bps : ℕ)
  | slashForEquivocation (addr : Bytes) (index : ℕ)

namespace StakeOp

/-- The deposit of the operation: who pays into the vault, and how much. -/
def deposit : StakeOp → Option (Bytes × ℕ)
  | addBond source _ amount | addSponsoredBond source _ amount => some (source, amount)
  | _ => none

/-- The vault makes no deposit to itself. -/
def Sourced (op : StakeOp) : Prop :=
  ∀ d ∈ op.deposit, StakeAccounts.account d.1 ≠ StakeAccounts.account vaultAddress

def run (view : StakeView) (s : StakeLedger) :
    StakeOp → Except VmError (StakeLedger × List (Bytes × ℕ))
  | addBond source addr amount => do
    let s ← s.deposit source amount
    let s ← s.addBond view addr amount
    return (s, [])
  | addSponsoredBond source addr amount => do
    let s ← s.deposit source amount
    let s ← s.addSponsoredBond view addr amount
    return (s, [])
  | recallSponsoredBond addr amount => do
    let (s, _) ← s.recallSponsoredBond view addr amount
    return (s, [])
  | releaseRecalled addr => do
    let (s, returned) ← s.releaseRecalled view addr
    return (s, [(StakeAccounts.treasury, returned)])
  | beginUnbonding addr => do
    let (s, _) ← s.beginUnbonding view addr
    return (s, [])
  | withdrawUnbondedSplit addr payee => do
    let (s, paid, returned) ← s.withdrawUnbondedSplit view addr payee
    return (s, [(StakeAccounts.treasury, returned), (payee, paid)])
  | slashToInsurance addr bps => do
    let (s, taken) ← s.slashToInsurance addr bps
    return (s, [(StakeAccounts.pool, taken)])
  | slashForEquivocation addr index => do
    let (s, taken) ← s.slashForEquivocation addr view index
    return (s, [(StakeAccounts.pool, taken)])

def apply (view : StakeView) (s : StakeLedger) (op : StakeOp) : StakeLedger :=
  match op.run view s with
  | .ok (s, _) => s
  | .error _ => s

/-- The balances once the deposit is in the vault. -/
def received (op : StakeOp) (b : Bytes → ℕ) : Bytes → ℕ :=
  match op.deposit with
  | some (source, amount) => credit (debit b source amount) vaultAddress amount
  | none => b

def deposited (op : StakeOp) : ℕ := op.deposit.elim 0 Prod.snd

/-- The refusals there are: a guard of the operation, or a source that holds less than it
deposits. No overflow and no short vault is among them. -/
def Refuses (op : StakeOp) (s : StakeLedger) (e : VmError) : Prop :=
  Guarded e ∨ ∃ d ∈ op.deposit, Short s d.1 d.2 e

end StakeOp

/-- Each payment leaves the vault for its receiver. -/
def payOut (b : Bytes → ℕ) (paid : List (Bytes × ℕ)) : Bytes → ℕ :=
  paid.foldl (fun b p => credit (debit b vaultAddress p.2) p.1 p.2) b

def paidOut (paid : List (Bytes × ℕ)) : ℕ := (paid.map Prod.snd).sum

/-- The records, the balances and the window fit each other; all balances sum to `total`. -/
structure Sound (total : ℕ) (s : StakeLedger) : Prop where
  kept : Kept s
  covered : s.totalBonded + s.totalUnbonding ≤ s.balanceOf vaultAddress
  sums : SumsTo s.balance total
  fair : ∀ o ∈ s.window, o.Fair

/-- What an operation that went through did: the vault afforded what it paid, to its receivers and
nowhere else, and owes exactly that much less. -/
structure Performed (total : ℕ) (s s' : StakeLedger) (op : StakeOp) (paid : List (Bytes × ℕ)) :
    Prop where
  sound : Sound total s'
  afforded : paidOut paid ≤ op.received s.balance (StakeAccounts.account vaultAddress)
  balance : s'.balance = payOut (op.received s.balance) paid
  owed : s'.totalBonded + s'.totalUnbonding + paidOut paid =
    s.totalBonded + s.totalUnbonding + op.deposited

def StakeLedger.fresh (balance : Bytes → ℕ) : StakeLedger where
  balance := balance
  bond _ := 0
  unbonding _ := none
  sponsored _ := 0
  sponsoredUnbonding _ := 0
  totalBonded := 0
  totalUnbonding := 0
  totalSponsored := 0
  totalSponsoredUnbonding := 0
  increases _ := []
  offended _ := false
  window := []
  fromSlashes := 0

/-- The ledgers of runs that start with balances summing to `total` and no stake. -/
inductive Reached (total : ℕ) : StakeLedger → Prop
  | fresh {balance : Bytes → ℕ} (sums : SumsTo balance total) :
      Reached total (StakeLedger.fresh balance)
  | step {s : StakeLedger} (reached : Reached total s) (view : StakeView) (op : StakeOp)
      (sourced : op.Sourced) : Reached total (op.apply view s)

section
variable {s s' : StakeLedger} {total : ℕ} {view : StakeView} {op : StakeOp}
  {paid : List (Bytes × ℕ)}

theorem fresh_sound {balance : Bytes → ℕ} (sums : SumsTo balance total) :
    Sound total (StakeLedger.fresh balance) where
  kept := ⟨.zero, .zero, .zero, .zero, fun _ => le_rfl, fun _ => le_rfl⟩
  covered := Nat.zero_le _
  sums := sums
  fair _ mem := absurd mem not_mem_nil

theorem Sound.vaultLiabilities_eq (sound : Sound total s) (fits : total ≤ maxValue 128) :
    s.vaultLiabilities = s.totalBonded + s.totalUnbonding := by
  have within : s.balanceOf vaultAddress ≤ total := sound.sums.le _
  have covered := sound.covered
  exact saturatingAdd_exact (by omega)

/-! ### Payments -/

theorem paid_vault (b : Bytes → ℕ) (p : Bytes × ℕ) : b (StakeAccounts.account vaultAddress) ≤
    credit (debit b vaultAddress p.2) p.1 p.2 (StakeAccounts.account vaultAddress) + p.2 := by
  have more : debit b vaultAddress p.2 (StakeAccounts.account vaultAddress) ≤
      credit (debit b vaultAddress p.2) p.1 p.2 (StakeAccounts.account vaultAddress) := le_credit _
  rw [debit_self] at more
  omega

theorem payOut_vault (paid : List (Bytes × ℕ)) (b : Bytes → ℕ) :
    b (StakeAccounts.account vaultAddress) ≤
      payOut b paid (StakeAccounts.account vaultAddress) + paidOut paid := by
  induction paid generalizing b with
  | nil => exact le_rfl
  | cons p rest ih =>
    have first := paid_vault b p
    have others := ih (credit (debit b vaultAddress p.2) p.1 p.2)
    simp only [payOut, paidOut, foldl_cons, map_cons, sum_cons] at others ⊢
    omega

theorem payOut_sums (paid : List (Bytes × ℕ)) {b : Bytes → ℕ} (sums : SumsTo b total)
    (afforded : paidOut paid ≤ b (StakeAccounts.account vaultAddress)) :
    SumsTo (payOut b paid) total := by
  induction paid generalizing b with
  | nil => exact sums
  | cons p rest ih =>
    have first := paid_vault b p
    have all : paidOut (p :: rest) = p.2 + paidOut rest := by simp [paidOut]
    have left : paidOut rest ≤
        credit (debit b vaultAddress p.2) p.1 p.2 (StakeAccounts.account vaultAddress) := by omega
    exact ih (sumsTo_move sums (by omega)) left

theorem Settles.performed {s₀ : StakeLedger} (sound : Sound total s)
    (h : Settles s₀ s' op.deposited (paidOut paid) (payOut s₀.balance paid))
    (received : s₀.balance = op.received s.balance)
    (records : s₀.totalBonded + s₀.totalUnbonding = s.totalBonded + s.totalUnbonding)
    (window : s₀.window = s.window) (sums : SumsTo s₀.balance total)
    (afforded : paidOut paid ≤ s₀.balanceOf vaultAddress)
    (covered : s.totalBonded + s.totalUnbonding + op.deposited ≤ s₀.balanceOf vaultAddress) :
    Performed total s s' op paid where
  sound := by
    have left := payOut_vault paid s₀.balance
    have owed := h.owed
    change _ ≤ s₀.balance (StakeAccounts.account vaultAddress) at covered
    refine ⟨h.kept, ?_, ?_, h.window (window ▸ sound.fair)⟩
    · unfold StakeLedger.balanceOf
      rw [h.balance]
      omega
    · rw [h.balance]
      exact payOut_sums paid sums afforded
  afforded := received ▸ afforded
  balance := received ▸ h.balance
  owed := by
    have owed := h.owed
    omega

/-! ### Each operation -/

theorem Settles.performed_plain (paid : List (Bytes × ℕ)) (sound : Sound total s) (plain : op.deposit = none)
    (h : Settles s s' 0 (paidOut paid) (payOut s.balance paid))
    (afforded : paidOut paid ≤ s.balanceOf vaultAddress) : Performed total s s' op paid := by
  have nothing : op.deposited = 0 := by simp [StakeOp.deposited, plain]
  have same : op.received s.balance = s.balance := by simp [StakeOp.received, plain]
  refine Settles.performed sound ?_ same.symm rfl rfl sound.sums afforded ?_
  · rwa [nothing]
  · rw [nothing]
    exact sound.covered

theorem bond_performed {source : Bytes} {amount : ℕ}
    {record : StakeLedger → Except VmError StakeLedger} (sound : Sound total s)
    (fits : total ≤ maxValue 128) (deposit : op.deposit = some (source, amount))
    (sourced : op.Sourced)
    (recorded : ∀ s₁ : StakeLedger, Kept s₁ →
      s₁.totalBonded + s₁.totalUnbonding + amount ≤ maxValue 128 →
      Meets (record s₁) (fun s' => Settles s₁ s' amount 0 s₁.balance) Guarded) :
    Meets (s.deposit source amount >>= fun s => record s >>= fun s => pure (s, []))
      (fun r => Performed total s r.1 op r.2) (op.Refuses s) := by
  have other := sourced (source, amount) (by simp [deposit])
  have amounts : op.deposited = amount := by simp [StakeOp.deposited, deposit]
  have paying : Meets (s.deposit source amount) _ (op.Refuses s) :=
    (deposit_meets sound.sums fits).mono fun e short =>
      Or.inr ⟨(source, amount), by simp [deposit], short⟩
  refine paying.bind fun s₁ ⟨enough, moved⟩ => ?_
  have kept := sound.kept
  have covered := sound.covered
  have sums : SumsTo s₁.balance total := by
    rw [moved]
    exact sumsTo_move sound.sums enough
  have vault : s₁.balanceOf vaultAddress = s.balanceOf vaultAddress + amount := by
    rw [moved]
    unfold StakeLedger.balanceOf credit debit
    simp only
    rw [Function.update_self, Function.update_of_ne other.symm]
  have within : s₁.balanceOf vaultAddress ≤ total := sums.le _
  have same : s₁.totalBonded + s₁.totalUnbonding = s.totalBonded + s.totalUnbonding := by
    rw [moved]
  have kept₁ : Kept s₁ := by
    rw [moved]
    exact ⟨kept.bonded, kept.unbondings, kept.sponsored, kept.sponsoredUnbonding, kept.lien,
      kept.unbondingLien⟩
  refine ((recorded s₁ kept₁ (by omega)).mono fun e guarded => Or.inl guarded).bind
    fun s' settled => ?_
  refine Settles.performed sound ?_ ?_ same ?_ sums (Nat.zero_le _) (by omega)
  · rw [amounts]
    exact settled
  · rw [moved]
    simp [StakeOp.received, deposit]
  · rw [moved]

theorem run_meets (sound : Sound total s) (fits : total ≤ maxValue 128) (sourced : op.Sourced) :
    Meets (op.run view s) (fun r => Performed total s r.1 op r.2) (op.Refuses s) := by
  have covered := sound.covered
  have within : s.balanceOf vaultAddress ≤ total := sound.sums.le _
  have guarded {e : VmError} (h : Guarded e) : op.Refuses s e := Or.inl h
  cases op with
  | addBond source addr amount =>
    exact bond_performed sound fits rfl sourced fun _ => addBond_settles
  | addSponsoredBond source addr amount =>
    exact bond_performed sound fits rfl sourced fun _ => addSponsoredBond_settles
  | recallSponsoredBond addr amount =>
    refine ((recallSponsoredBond_settles sound.kept (by omega)).mono fun _ => guarded).bind
      fun r settled => ?_
    exact Settles.performed_plain [] sound rfl settled (Nat.zero_le _)
  | releaseRecalled addr =>
    refine ((releaseRecalled_settles sound.kept sound.sums fits covered).mono fun _ => guarded).bind
      fun r settled => ?_
    have owed := settled.owed
    refine Settles.performed_plain [(StakeAccounts.treasury, r.2)] sound rfl ?_ ?_
    · exact settled
    · change r.2 + 0 ≤ _
      omega
  | beginUnbonding addr =>
    refine ((beginUnbonding_settles sound.kept (by omega)).mono fun _ => guarded).bind
      fun r settled => ?_
    exact Settles.performed_plain [] sound rfl settled (Nat.zero_le _)
  | withdrawUnbondedSplit addr payee =>
    refine ((withdrawUnbondedSplit_settles sound.kept sound.sums fits covered).mono
      fun _ => guarded).bind fun r settled => ?_
    have owed := settled.owed
    have all : paidOut [(StakeAccounts.treasury, r.2.2), (payee, r.2.1)] = r.2.1 + r.2.2 := by
      simp only [paidOut, map_cons, map_nil, sum_cons, sum_nil]
      omega
    refine Settles.performed_plain [(StakeAccounts.treasury, r.2.2), (payee, r.2.1)] sound
      rfl ?_ (by omega)
    rw [all]
    exact settled
  | slashToInsurance addr bps =>
    refine (slashToInsurance_settles sound.kept sound.sums fits covered).bind
      fun r ⟨enough, settled⟩ => ?_
    exact Settles.performed_plain [(StakeAccounts.pool, r.2)] sound rfl settled enough
  | slashForEquivocation addr index =>
    refine (slashForEquivocation_settles sound.kept sound.sums fits covered sound.fair).bind
      fun r ⟨enough, settled⟩ => ?_
    exact Settles.performed_plain [(StakeAccounts.pool, r.2)] sound rfl settled enough

/-! ### Runs -/

theorem apply_sound (sound : Sound total s) (fits : total ≤ maxValue 128) (sourced : op.Sourced) :
    Sound total (op.apply view s) := by
  have h : Meets (op.run view s) _ _ := run_meets sound fits sourced
  unfold StakeOp.apply
  cases ran : op.run view s with
  | error e => exact sound
  | ok r => exact (h.of_ok ran).sound

theorem Reached.sound (reached : Reached total s) (fits : total ≤ maxValue 128) :
    Sound total s := by
  induction reached with
  | fresh sums => exact fresh_sound sums
  | step _ view op sourced ih => exact apply_sound ih fits sourced

/-- In every ledger reached the books are sound and the vault holds what it owes; an operation that
goes through pays what it says, and none is refused for an overflow or a short vault. -/
theorem stake_accounted (reached : Reached total s) (fits : total ≤ maxValue 128) :
    Sound total s ∧ s.vaultLiabilities = s.totalBonded + s.totalUnbonding ∧
      s.vaultLiabilities ≤ s.balanceOf vaultAddress ∧
      ∀ (view : StakeView) (op : StakeOp), op.Sourced →
        Meets (op.run view s) (fun r => Performed total s r.1 op r.2) (op.Refuses s) := by
  have sound := reached.sound fits
  have liabilities := sound.vaultLiabilities_eq fits
  refine ⟨sound, liabilities, ?_, fun view op sourced => run_meets sound fits sourced⟩
  rw [liabilities]
  exact sound.covered

end
end

/-! A bond of 60 with 40 sponsored, slashed by 5%, then withdrawn. -/

namespace SponsoredExit

@[reducible] def accounts : StakeAccounts where
  account := id
  treasury := replicate 32 1
  pool := replicate 32 2

attribute [local instance] accounts

def validator : Bytes := replicate 32 3

def view (nowMs : ℤ) : StakeView := ⟨nowMs, none, 1000, 16, 500, 3⟩

def start : StakeLedger := .fresh (Function.update (Function.update (fun _ => 0)
  validator 60) accounts.treasury 40)

def bonded : StakeLedger :=
  (StakeOp.addSponsoredBond accounts.treasury validator 40).apply (view 0)
    ((StakeOp.addBond validator validator 60).apply (view 0) start)

def leaving : StakeLedger :=
  (StakeOp.beginUnbonding validator).apply (view 0)
    ((StakeOp.slashToInsurance validator 500).apply (view 0) bonded)

def left : StakeLedger :=
  (StakeOp.withdrawUnbondedSplit validator validator).apply (view 1000) leaving

theorem left_reached : Reached 100 left := by
  have own : SumsTo (fun _ : Bytes => 0) 0 := .zero
  have sums : SumsTo start.balance 100 :=
    (own.update (a := validator) (v := 60) (m := 60) rfl).update rfl
  refine .step (.step (.step (.step (.step (.fresh sums) _ _ ?_) _ _ ?_) _ _ ?_) _ _ ?_) _ _ ?_
  all_goals
    unfold StakeOp.Sourced
    decide

theorem stake_accounted_left :
    (Sound 100 left ∧ left.vaultLiabilities = left.totalBonded + left.totalUnbonding ∧
      left.vaultLiabilities ≤ left.balanceOf vaultAddress ∧
      ∀ (view : StakeView) (op : StakeOp), op.Sourced →
        Meets (op.run view left) (fun r => Performed 100 left r.1 op r.2) (op.Refuses left)) ∧
    left.balanceOf validator = 57 ∧ left.balanceOf accounts.treasury = 38 ∧
      left.balanceOf accounts.pool = 5 ∧ left.vaultLiabilities = 0 :=
  ⟨stake_accounted left_reached (by decide), by decide⟩

end SponsoredExit

end Tenzro.Staking
