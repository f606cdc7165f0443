import Tenzro.StakingMoves

set_option autoImplicit false

/-!
# When exiting stake is paid out

One record per validator holds all stake it has unbonding, with a single release time. What
enters it is owed the period governed at that time; an exit writes the release time anew, whatever
it was.
-/
namespace Tenzro.Staking
open FixedWidth Outcome List Function

/-- Block time and the governed period fit their types, and so does their sum. -/
def StakeView.InRange (view : StakeView) : Prop :=
  -2 ^ 63 ≤ view.nowMs ∧ view.unbondingMs < 2 ^ 63 ∧ view.nowMs + view.unbondingMs < 2 ^ 63

instance (view : StakeView) : Decidable view.InRange := by
  unfold StakeView.InRange
  infer_instance

section
variable [StakeAccounts]

namespace StakeOp

def due (view : StakeView) (s : StakeLedger) (a : Bytes) : StakeOp → List ℤ
  | recallSponsoredBond addr _ => if addr = a then [view.nowMs + view.unbondingMs] else []
  | beginUnbonding addr =>
    if addr = a ∧ s.bond addr ≠ 0 then [view.nowMs + view.unbondingMs] else []
  | _ => []

/-- The due times of all that entered the unbonding of each validator and has not left it. -/
def dues (view : StakeView) (s : StakeLedger) (before : Bytes → List ℤ) (op : StakeOp) :
    Bytes → List ℤ :=
  match op.run view s with
  | .error _ => before
  | .ok (s', _) => fun a => if s'.unbonding a = none then [] else before a ++ op.due view s a

def paysOut : StakeOp → Option Bytes
  | releaseRecalled addr => some addr
  | withdrawUnbondedSplit addr _ => some addr
  | _ => none

/-- Times fit their type, and an exit does not bring forward the release of what is unbonding
already. -/
def Defers (view : StakeView) (s : StakeLedger) : StakeOp → Prop
  | beginUnbonding addr => view.InRange ∧
    ∀ u, s.unbonding addr = some u → u.releaseAtMs ≤ view.nowMs + view.unbondingMs
  | recallSponsoredBond _ _ => view.InRange
  | _ => True

end StakeOp

/-- Runs in which block time does not go back: the ledger, the due times and the time reached. -/
inductive Exiting (allowed : StakeView → StakeLedger → StakeOp → Prop) :
    StakeLedger → (Bytes → List ℤ) → ℤ → Prop
  | start {s : StakeLedger} (idle : ∀ a, s.unbonding a = none) (now : ℤ) :
      Exiting allowed s (fun _ => []) now
  | step {s : StakeLedger} {dues : Bytes → List ℤ} {now : ℤ} (before : Exiting allowed s dues now)
      (view : StakeView) (later : now ≤ view.nowMs) (op : StakeOp) (may : allowed view s op) :
      Exiting allowed (op.apply view s) (op.dues view s dues) view.nowMs

/-- Nothing is released before it is due. -/
structure Matures (s : StakeLedger) (dues : Bytes → List ℤ) : Prop where
  idle : ∀ a, s.unbonding a = none → dues a = []
  due : ∀ a u, s.unbonding a = some u → ∀ t ∈ dues a, t ≤ u.releaseAtMs

section
variable {s s' : StakeLedger} {dues : Bytes → List ℤ} {view : StakeView} {op : StakeOp}
  {addr : Bytes} {paid : List (Bytes × ℕ)} {now : ℤ}

omit [StakeAccounts] in
theorem release_eq (range : view.InRange) : view.release = view.nowMs + view.unbondingMs := by
  obtain ⟨low, governed, high⟩ := range
  have signed : wrapSigned 64 (view.unbondingMs : ℤ) = view.unbondingMs :=
    wrapSigned_64 (by omega) (by omega)
  unfold StakeView.release clampSigned
  rw [signed]
  omega

/-- Whatever is still unbonding after a step was unbonding before it, or is due no later than its
new release. -/
theorem due_of_moved (moved : Moved view s s' op) (may : op.Defers view s) {a : Bytes}
    {u' : Unbonding} (found : s'.unbonding a = some u') :
    (∀ t ∈ op.due view s a, t ≤ u'.releaseAtMs) ∧
      ∀ u, s.unbonding a = some u → u.releaseAtMs ≤ u'.releaseAtMs := by
  have kept (less : Lessened s s') (u : Unbonding) (before : s.unbonding a = some u) :
      u.releaseAtMs ≤ u'.releaseAtMs := by
    obtain ⟨u₀, start, same⟩ := less.unbonding a u' found
    rw [start] at before
    rw [← Option.some.inj before, same]
  have added {addr : Bytes} {amount part : ℕ} (more : Increased s s' view addr amount part)
      (u : Unbonding) (before : s.unbonding a = some u) : u.releaseAtMs ≤ u'.releaseAtMs := by
    rw [more.unbonding, before] at found
    rw [Option.some.inj found]
  have left {addr : Bytes} {amount part : ℕ} {release : ℤ}
      (gone : Left s s' addr amount part release) (same : addr = a) : u'.releaseAtMs = release := by
    obtain ⟨held, unbonding⟩ := gone.unbonding
    rw [unbonding, same, update_self] at found
    rw [← Option.some.inj (Option.filter_eq_some_iff.1 found).1]
  have others {addr : Bytes} {amount part : ℕ} {release : ℤ}
      (gone : Left s s' addr amount part release) (other : addr ≠ a) (u : Unbonding)
      (before : s.unbonding a = some u) : u.releaseAtMs ≤ u'.releaseAtMs := by
    obtain ⟨held, unbonding⟩ := gone.unbonding
    rw [unbonding, update_of_ne (Ne.symm other), before] at found
    rw [Option.some.inj found]
  cases op with
  | addBond source addr amount => exact ⟨forall_mem_nil _, added moved⟩
  | addSponsoredBond source addr amount => exact ⟨forall_mem_nil _, added moved⟩
  | releaseRecalled addr => exact ⟨forall_mem_nil _, kept moved.1⟩
  | withdrawUnbondedSplit addr payee => exact ⟨forall_mem_nil _, kept moved.1⟩
  | slashToInsurance addr bps => exact ⟨forall_mem_nil _, kept moved⟩
  | slashForEquivocation addr index => exact ⟨forall_mem_nil _, kept moved⟩
  | recallSponsoredBond addr amount =>
    obtain ⟨-, gone⟩ := moved
    simp only [StakeOp.due]
    by_cases own : addr = a
    · have release := left gone own
      rw [release_eq may] at release
      subst own
      rw [if_pos rfl, forall_mem_singleton, release]
      refine ⟨?_, fun u before => ?_⟩
      · cases s.unbonding addr with
        | none => exact le_rfl
        | some u => exact le_max_right _ _
      · rw [before]
        exact le_max_left _ _
    · rw [if_neg own]
      exact ⟨forall_mem_nil _, others gone own⟩
  | beginUnbonding addr =>
    obtain ⟨range, defers⟩ := may
    simp only [StakeOp.due]
    rcases moved with ⟨nothing, rfl⟩ | ⟨some_bond, gone⟩
    · refine ⟨?_, fun u before => ?_⟩
      · by_cases own : addr = a
        · subst own
          simp [nothing]
        · simp [own]
      · rw [before] at found
        rw [Option.some.inj found]
    · by_cases own : addr = a
      · have release := left gone own
        rw [release_eq range] at release
        subst own
        rw [if_pos ⟨rfl, some_bond⟩, forall_mem_singleton, release]
        exact ⟨le_rfl, defers⟩
      · rw [if_neg (fun both => own both.1)]
        exact ⟨forall_mem_nil _, others gone own⟩

theorem Matures.step (matures : Matures s dues) (may : op.Defers view s) :
    Matures (op.apply view s) (op.dues view s dues) := by
  unfold StakeOp.apply StakeOp.dues
  cases ran : op.run view s with
  | error e => exact matures
  | ok out =>
    obtain ⟨s', paid⟩ := out
    refine ⟨fun a nothing => if_pos nothing, fun a u' found t mem => ?_⟩
    obtain ⟨entering, staying⟩ := due_of_moved (run_moved ran) may found
    simp only [found, reduceCtorEq, if_false, mem_append] at mem
    rcases mem with before | entered
    · cases was : s.unbonding a with
      | none =>
        rw [matures.idle a was] at before
        cases before
      | some u => exact (matures.due a u was t before).trans (staying u was)
    · exact entering t entered

theorem Exiting.matures (run : Exiting StakeOp.Defers s dues now) : Matures s dues := by
  induction run with
  | start idle now => exact ⟨fun _ _ => rfl, fun _ _ _ _ mem => nomatch mem⟩
  | step before view later op may ih => exact ih.step may

/-- When no exit brings a release forward, no stake leaves its unbonding before the end of the
period governed when it entered. -/
theorem exit_slashable (run : Exiting StakeOp.Defers s dues now)
    (ran : op.run view s = .ok (s', paid)) (pays : op.paysOut = some addr) :
    ∀ t ∈ dues addr, t ≤ view.nowMs := by
  intro t mem
  have moved := run_moved ran
  have matured : ∃ u, s.unbonding addr = some u ∧ u.releaseAtMs ≤ view.nowMs := by
    cases op with
    | releaseRecalled a =>
      obtain rfl := Option.some.inj pays
      exact moved.2
    | withdrawUnbondedSplit a payee =>
      obtain rfl := Option.some.inj pays
      exact moved.2
    | _ => cases pays
  obtain ⟨u, held, reached⟩ := matured
  exact (run.matures.due addr u held t mem).trans reached

end

end

/-! A bond of 100 leaves under a period of 30 days; the period is lowered to 7 days, and a second
exit of one more takes all of it out. -/

namespace SecondExit
open SponsoredExit

attribute [local instance] accounts

def day : ℕ := 24 * 60 * 60 * 1000

def view (now days : ℕ) : StakeView := ⟨now * day, none, days * day, 16, 500, 3⟩

def start : StakeLedger := .fresh (update (fun _ => 0) validator 101)

def first : StakeLedger :=
  (StakeOp.beginUnbonding validator).apply (view 0 30)
    ((StakeOp.addBond validator validator 100).apply (view 0 30) start)

def second (day : ℕ) : StakeLedger :=
  (StakeOp.beginUnbonding validator).apply (view day 7)
    ((StakeOp.addBond validator validator 1).apply (view day 7) first)

def secondDues (day : ℕ) : Bytes → List ℤ :=
  (StakeOp.beginUnbonding validator).dues (view day 7)
    ((StakeOp.addBond validator validator 1).apply (view day 7) first)
    ((StakeOp.addBond validator validator 1).dues (view day 7) first
      ((StakeOp.beginUnbonding validator).dues (view 0 30)
        ((StakeOp.addBond validator validator 100).apply (view 0 30) start)
        ((StakeOp.addBond validator validator 100).dues (view 0 30) start fun _ => [])))

theorem exits {allowed : StakeView → StakeLedger → StakeOp → Prop} (later : ℕ)
    (bonds : ∀ view s amount, allowed view s (.addBond validator validator amount))
    (leaves : allowed (view 0 30)
      ((StakeOp.addBond validator validator 100).apply (view 0 30) start) (.beginUnbonding validator))
    (leavesAgain : allowed (view later 7)
      ((StakeOp.addBond validator validator 1).apply (view later 7) first)
      (.beginUnbonding validator)) :
    Exiting allowed (second later) (secondDues later) (view later 7).nowMs := by
  have fresh : Exiting allowed start (fun _ => []) 0 := .start (fun _ => rfl) 0
  have out : Exiting allowed first _ (view 0 30).nowMs :=
    (fresh.step (view 0 30) le_rfl _ (bonds _ _ 100)).step (view 0 30) le_rfl _ leaves
  have after : (view 0 30).nowMs ≤ (view later 7).nowMs := by
    simp only [view, Nat.cast_zero, zero_mul]
    positivity
  exact (out.step (view later 7) after _ (bonds _ _ 1)).step (view later 7) le_rfl _ leavesAgain

theorem withdraws {view : StakeView} {s : StakeLedger} {paid : List (Bytes × ℕ)}
    (pays : ((StakeOp.withdrawUnbondedSplit validator validator).run view s).map Prod.snd =
      .ok paid) :
    ∃ s', (StakeOp.withdrawUnbondedSplit validator validator).run view s = .ok (s', paid) := by
  cases ran : (StakeOp.withdrawUnbondedSplit validator validator).run view s with
  | error e => rw [ran] at pays; cases pays
  | ok out =>
    rw [ran] at pays
    exact ⟨out.1, congrArg _ (Prod.ext rfl (Except.ok.inj pays))⟩

/-- Stake that entered on day 0, due on day 30, is paid out on day 8 with the rest. -/
theorem paid_early : ∃ s dues s', Exiting (fun _ _ _ => True) s dues (view 1 7).nowMs ∧
    (StakeOp.withdrawUnbondedSplit validator validator).run (view 8 7) s =
      .ok (s', [(accounts.treasury, 0), (validator, 101)]) ∧
    (view 0 30).nowMs + (view 0 30).unbondingMs ∈ dues validator ∧
    (view 8 7).nowMs < (view 0 30).nowMs + (view 0 30).unbondingMs := by
  obtain ⟨s', ran⟩ : ∃ s', (StakeOp.withdrawUnbondedSplit validator validator).run (view 8 7)
      (second 1) = .ok (s', [(accounts.treasury, 0), (validator, 101)]) :=
    withdraws (by decide)
  refine ⟨second 1, secondDues 1, s', ?_, ran, by decide, by decide⟩
  exact exits 1 (fun _ _ _ => trivial) trivial trivial

/-- On day 25 the second exit puts the release off to day 32. -/
theorem exit_slashable_second : ∃ s', (StakeOp.withdrawUnbondedSplit validator validator).run
      (view 32 7) (second 25) = .ok (s', [(accounts.treasury, 0), (validator, 101)]) ∧
    secondDues 25 validator = [(view 0 30).nowMs + (view 0 30).unbondingMs, (view 32 7).nowMs] ∧
    ∀ t ∈ secondDues 25 validator, t ≤ (view 32 7).nowMs := by
  obtain ⟨s', ran⟩ : ∃ s', (StakeOp.withdrawUnbondedSplit validator validator).run (view 32 7)
      (second 25) = .ok (s', [(accounts.treasury, 0), (validator, 101)]) :=
    withdraws (by decide)
  refine ⟨s', ran, by decide, exit_slashable (exits 25 ?_ ?_ ?_) ran rfl⟩
  · exact fun _ _ _ => trivial
  · exact ⟨by decide, fun u found => by cases found⟩
  · refine ⟨by decide, fun u found => ?_⟩
    have held : ((StakeOp.addBond validator validator 1).apply (view 25 7) first).unbonding
        validator = some ⟨100, 30 * day⟩ := by decide
    rw [held] at found
    rw [← Option.some.inj found]
    decide

end SecondExit

end Tenzro.Staking
