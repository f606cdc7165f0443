import Tenzro.AccountOutflowBound
import Tenzro.NativeBalance

set_option autoImplicit false
set_option linter.dupNamespace false

/-!
# The treasury's outflow period

Which balance is read before which is written decides whether a transfer to
oneself mints. What the treasury pays in one period is at most a governed share
of the balance it opened with.
-/
namespace Tenzro.BalanceMovers
open FixedWidth Outcome NativeBalance Function
open Staking (VmError checkedAdd)
open Book (SumsTo)
open AccountOutflow (RootApproval Effect Op Release)

section
variable [AccountNames] (b : Bytes → ℕ)

def fundingMoveBalance (source dest : Bytes) (amount : ℕ) : Except VmError (Bytes → ℕ) := do
  ensure (amount ≤ balanceOf b source) (VmError.insufficientBalance amount (balanceOf b source))
  let newTo ← checkedAdd (balanceOf b dest) amount (.internal "balance overflow")
  return setBalance (setBalance b source (balanceOf b source - amount)) dest newTo

def roleStakeMoveBalance (source dest : Bytes) (amount : ℕ) : Except VmError (Bytes → ℕ) := do
  ensure (amount ≤ balanceOf b source) (VmError.insufficientBalance amount (balanceOf b source))
  let b := setBalance b source (balanceOf b source - amount)
  let toAfter ← checkedAdd (balanceOf b dest) amount (.internal "balance overflow")
  return setBalance b dest toAfter

/-- The payment of a claimed release: both balances are read before either is written, and the
sum is not checked. -/
def claimPayment (account recipient : Bytes) (amount : ℕ) : Except String (Bytes → ℕ) := do
  ensure (amount ≤ balanceOf b account) "account outflow: the account does not hold the amount"
  let toBal := balanceOf b recipient
  return setBalance (setBalance b account (balanceOf b account - amount)) recipient
    (wrappingAdd 128 toBal amount)

end

/-- What moving `n` from one account to another should do to the balances. -/
structure Conserves (b b' : Bytes → ℕ) (source dest : Bytes) (n : ℕ) : Prop where
  total : ∀ N, SumsTo b N → SumsTo b' N
  others : ∀ a, a ≠ source → a ≠ dest → b' a = b a
  debited : source ≠ dest → b' source + n = b source
  credited : source ≠ dest → b' dest = b dest + n
  still : source = dest → b' source = b source

section
variable {b : Bytes → ℕ} {source dest a : Bytes} {n : ℕ}

theorem conserves_moved (enough : n ≤ b source) : Conserves b (moved b source dest n) source dest n where
  total _ sums := sumsTo_moved sums enough
  others _ source_ne dest_ne := moved_of_ne source_ne dest_ne
  debited apart := by
    rw [moved_source (Ne.symm apart)]
    omega
  credited apart := moved_dest (Ne.symm apart)
  still same := by
    subst same
    rw [moved_self enough]

/-- What both reads before both writes come to. -/
def readFirst (b : Bytes → ℕ) (source dest : Bytes) (v w : ℕ) : Bytes → ℕ :=
  update (update b source v) dest w

/-- Written over both balances, what was read first is a move only between different accounts,
and only if the sum is the credited one. -/
theorem readFirst_conserves {w : ℕ} (enough : n ≤ b source) :
    Conserves b (readFirst b source dest (b source - n) w) source dest n ↔
      if source = dest then w = b source else w = b dest + n := by
  split_ifs with same
  · subst same
    unfold readFirst
    rw [update_idem]
    constructor
    · intro conserves
      have still := conserves.still rfl
      rwa [update_self] at still
    · rintro rfl
      rw [update_eq_self]
      exact ⟨fun _ => id, fun _ _ _ => rfl, fun apart => absurd rfl apart,
        fun apart => absurd rfl apart, fun _ => rfl⟩
  · constructor
    · intro conserves
      have credited := conserves.credited same
      unfold readFirst at credited
      rwa [update_self] at credited
    · rintro rfl
      have move : readFirst b source dest (b source - n) (b dest + n) = moved b source dest n := by
        unfold readFirst moved
        simp only
        rw [update_of_ne (Ne.symm same)]
      rw [move]
      exact conserves_moved enough

variable [AccountNames]

def Sound {ε : Type} (b : Bytes → ℕ) (source dest : Bytes) (n : ℕ)
    (result : Except ε (Bytes → ℕ)) : Prop :=
  ∀ b', result = .ok b' →
    Conserves b b' (AccountNames.account source) (AccountNames.account dest) n

theorem roleStakeMoveBalance_ok {b' : Bytes → ℕ}
    (ran : roleStakeMoveBalance b source dest n = .ok b') :
    n ≤ balanceOf b source ∧ balanceOf b' dest ≤ maxValue 128 ∧
      b' = moved b (AccountNames.account source) (AccountNames.account dest) n := by
  obtain ⟨_, enough, ran⟩ := bind_ok.1 ran
  obtain ⟨after, received, ran⟩ := bind_ok.1 ran
  obtain rfl := pure_ok.1 ran
  unfold checkedAdd at received
  split_ifs at received with fits
  cases received
  refine ⟨ensure_ok.1 enough, ?_, rfl⟩
  unfold setBalance
  rw [balanceOf, update_self]
  exact fits

theorem roleStakeMoveBalance_sound :
    Sound b source dest n (roleStakeMoveBalance b source dest n) := by
  intro b' ran
  obtain ⟨enough, -, rfl⟩ := roleStakeMoveBalance_ok ran
  exact conserves_moved enough

/-- The accounts differ, or nothing is moved, or the mover fails. -/
def FundingHolds (b : Bytes → ℕ) (source dest : Bytes) (n : ℕ) : Prop :=
  AccountNames.account source ≠ AccountNames.account dest ∨ n = 0 ∨ balanceOf b source < n ∨
    maxValue 128 < balanceOf b dest + n

theorem fundingMoveBalance_ok {b' : Bytes → ℕ} : fundingMoveBalance b source dest n = .ok b' ↔
    n ≤ balanceOf b source ∧ balanceOf b dest + n ≤ maxValue 128 ∧
      readFirst b (AccountNames.account source) (AccountNames.account dest)
        (balanceOf b source - n) (balanceOf b dest + n) = b' := by
  unfold fundingMoveBalance checkedAdd
  constructor
  · intro ran
    obtain ⟨_, enough, ran⟩ := bind_ok.1 ran
    obtain ⟨after, received, ran⟩ := bind_ok.1 ran
    split_ifs at received with fits
    cases received
    exact ⟨ensure_ok.1 enough, fits, pure_ok.1 ran⟩
  · rintro ⟨enough, fits, rfl⟩
    exact bind_ok.2 ⟨(), ensure_ok.2 enough, bind_ok.2 ⟨_, if_pos fits, rfl⟩⟩

theorem fundingMoveBalance_sound :
    Sound b source dest n (fundingMoveBalance b source dest n) ↔ FundingHolds b source dest n := by
  unfold Sound FundingHolds
  simp only [fundingMoveBalance_ok]
  by_cases ran : n ≤ balanceOf b source ∧ balanceOf b dest + n ≤ maxValue 128
  · obtain ⟨enough, fits⟩ := ran
    simp only [enough, fits, true_and, forall_eq']
    unfold balanceOf at enough fits ⊢
    rw [readFirst_conserves enough]
    split_ifs with same
    · rw [same] at enough ⊢
      simp only [ne_eq, not_true_eq_false, false_or]
      omega
    · exact iff_of_true rfl (.inl same)
  · refine iff_of_true (fun b' both => absurd ⟨both.1, both.2.1⟩ ran) ?_
    omega

/-- The accounts differ and the sum fits, or nothing is moved, or the payment fails. -/
def ClaimHolds (b : Bytes → ℕ) (account recipient : Bytes) (n : ℕ) : Prop :=
  (AccountNames.account account ≠ AccountNames.account recipient ∧
    balanceOf b recipient + n ≤ maxValue 128) ∨ n = 0 ∨ balanceOf b account < n

theorem claimPayment_ok {b' : Bytes → ℕ} : claimPayment b source dest n = .ok b' ↔
    n ≤ balanceOf b source ∧ readFirst b (AccountNames.account source)
      (AccountNames.account dest) (balanceOf b source - n)
        (wrappingAdd 128 (balanceOf b dest) n) = b' := by
  unfold claimPayment
  constructor
  · intro ran
    obtain ⟨_, enough, ran⟩ := bind_ok.1 ran
    exact ⟨ensure_ok.1 enough, pure_ok.1 ran⟩
  · rintro ⟨enough, rfl⟩
    exact bind_ok.2 ⟨(), ensure_ok.2 enough, rfl⟩

theorem claimPayment_sound (typed : ∀ a, b a ≤ maxValue 128) :
    Sound b source dest n (claimPayment b source dest n) ↔ ClaimHolds b source dest n := by
  unfold Sound ClaimHolds
  simp only [claimPayment_ok]
  by_cases enough : n ≤ balanceOf b source
  · simp only [enough, true_and, forall_eq']
    have held := typed (AccountNames.account source)
    have held' := typed (AccountNames.account dest)
    unfold balanceOf at enough ⊢
    rw [readFirst_conserves enough]
    unfold wrappingAdd
    unfold maxValue at *
    split_ifs with same
    · rw [same] at enough ⊢
      simp only [ne_eq, not_true_eq_false, false_and, false_or]
      omega
    · simp only [ne_eq, same, not_false_eq_true, true_and]
      omega
  · exact iff_of_true (fun b' both => absurd both.1 enough) (.inr (.inr (not_le.1 enough)))

end

/-- An address that resolves to itself. -/
@[reducible] def spelled : AccountNames := ⟨id⟩

/-! ### One payment for each request -/

/-- Every payment of the release follows a request of its own, or one from before. -/
def PaidOnce (a : Bytes) (id : ℕ) : Bool → List Effect → Prop
  | _, [] => True
  | waiting, .requested who i :: rest => PaidOnce a id (waiting || (who = a ∧ i = id)) rest
  | waiting, .claimed who i _ :: rest =>
    if who = a ∧ i = id then waiting = true ∧ PaidOnce a id false rest
    else PaidOnce a id waiting rest
  | waiting, .admitted .. :: rest => PaidOnce a id waiting rest

section
variable {a account sender : Bytes} {id i : ℕ} {waiting : Bool} {s s' : AccountOutflow.State}
  {now : ℤ} {effects rest : List Effect}

theorem PaidOnce.weaken (paid : PaidOnce a id false effects) : PaidOnce a id waiting effects := by
  induction effects generalizing waiting with
  | nil => trivial
  | cons e effects ih =>
    cases e with
    | admitted who n => exact ih paid
    | requested who j =>
      simp only [PaidOnce, Bool.false_or] at paid ⊢
      by_cases own : who = a ∧ j = id
      · simpa [own] using paid
      · simp only [own, decide_false, Bool.or_false] at paid ⊢
        exact ih paid
    | claimed who j n =>
      simp only [PaidOnce] at paid ⊢
      split_ifs at paid ⊢ with own
      · exact absurd paid.1 (by simp)
      · exact ih paid

def opened (a : Bytes) (id : ℕ) (s : AccountOutflow.State) : Bool := (s.releases a id).isSome

theorem opened_congr (same : s'.releases = s.releases) : opened a id s' = opened a id s := by
  unfold opened
  rw [same]

theorem opened_setRelease {r : Option Release} (same : s'.releases =
    (s.setRelease account i r).releases) :
    opened a id s' = if account = a ∧ i = id then r.isSome else opened a id s := by
  unfold opened
  rw [same]
  by_cases own : account = a
  · subst own
    rw [AccountOutflow.setRelease_releases_self]
    by_cases this : i = id
    · subst this
      simp
    · simp [this, Ne.symm this]
  · rw [AccountOutflow.setRelease_releases_of_ne own]
    simp [own]

theorem chargeOutflow_releases {amount : ℕ}
    (ran : AccountOutflow.chargeOutflow s account amount now = .ok s') :
    s'.releases = s.releases := by
  unfold AccountOutflow.chargeOutflow at ran
  split at ran
  · cases ran
    rfl
  · simp only at ran
    split_ifs at ran
    cases ran
    rfl

theorem paidOnce_charged {who : List (Bytes × ℕ)}
    (ran : AccountOutflow.chargeWatched now who s = .ok (s', effects)) :
    opened a id s' = opened a id s ∧
      (PaidOnce a id waiting (effects ++ rest) ↔ PaidOnce a id waiting rest) := by
  induction who generalizing s effects with
  | nil =>
    cases ran
    exact ⟨rfl, Iff.rfl⟩
  | cons w who ih =>
    unfold AccountOutflow.chargeWatched at ran
    split_ifs at ran
    · obtain ⟨charged, admitted, ran⟩ := bind_ok.1 ran
      obtain ⟨⟨s₁, later⟩, remaining, ran⟩ := bind_ok.1 ran
      cases pure_ok.1 ran
      obtain ⟨same, counted⟩ := ih remaining
      exact ⟨same.trans (opened_congr (chargeOutflow_releases admitted)), counted⟩
    · exact ih ran

variable [RootApproval]

theorem verifyGuardian_releases {guardian action : String}
    {approval : Option AccountOutflow.Approval}
    (ran : AccountOutflow.verifyGuardian s account guardian action i approval now = .ok s') :
    s'.releases = s.releases := by
  unfold AccountOutflow.verifyGuardian AccountOutflow.refuse at ran
  split at ran
  · cases ran
  · split_ifs at ran
    cases ran
    rfl

theorem authorizeRelease_releases {claim : Bool} {rel : Release}
    {approval : Option AccountOutflow.Approval}
    (ran : AccountOutflow.authorizeRelease s sender account claim i rel approval now = .ok s') :
    s'.releases = s.releases := by
  unfold AccountOutflow.authorizeRelease AccountOutflow.refuse at ran
  split at ran
  · obtain ⟨-, kept⟩ | ⟨-, approved⟩ := ite_eq_iff.1 ran
    · cases kept
      rfl
    · exact verifyGuardian_releases approved
  · split_ifs at ran
    cases ran
    rfl

theorem applyRelease_closes {claim : Bool} {approval : Option AccountOutflow.Approval}
    (ran : AccountOutflow.applyRelease s sender account claim i approval now = .ok s') :
    opened account i s = true ∧ s'.releases = (s.setRelease account i none).releases := by
  unfold AccountOutflow.applyRelease at ran
  cases found : s.releases account i with
  | none =>
    simp only [found, AccountOutflow.refuse] at ran
    cases ran
  | some rel =>
    simp only [found] at ran
    obtain ⟨s₁, authorized, ran⟩ := bind_ok.1 ran
    obtain ⟨s₂, paid, ran⟩ := bind_ok.1 ran
    cases pure_ok.1 ran
    have kept : s₂.releases = s₁.releases := by
      split_ifs at paid
      · exact (AccountOutflow.payRelease_records paid).2.2
      · cases paid
        rfl
    refine ⟨by simp [opened, found], ?_⟩
    rw [(AccountOutflow.closeRelease_records s₂ account i).2.2]
    simp only [AccountOutflow.State.setRelease, kept, authorizeRelease_releases authorized]

theorem applyCancelPending_releases {owner : Bool} {approval : Option AccountOutflow.Approval}
    (ran : AccountOutflow.applyCancelPending s owner account approval now = .ok s') :
    s'.releases = s.releases := by
  unfold AccountOutflow.applyCancelPending AccountOutflow.refuse at ran
  cases force : AccountOutflow.policyInForce s account now with
  | none =>
    simp only [force] at ran
    cases ran
  | some cur =>
    simp only [force] at ran
    cases guarded : cur.guardian with
    | some g =>
      simp only [guarded] at ran
      obtain ⟨s₁, authorized, ran⟩ := bind_ok.1 ran
      split_ifs at ran
      cases ran
      have kept := verifyGuardian_releases authorized
      exact kept
    | none =>
      simp only [guarded] at ran
      cases owner with
      | true =>
        simp only [if_true, pure_bind] at ran
        split_ifs at ran
        cases ran
        rfl
      | false => cases ran

theorem paidOnce_apply {op : Op} (ran : AccountOutflow.apply s sender op now = .ok s')
    (later : PaidOnce a id (opened a id s') rest) :
    PaidOnce a id (opened a id s) (op.effects s ++ rest) := by
  cases op with
  | set account windowMs cap holdMs guardian =>
    obtain ⟨p, rfl, -⟩ := AccountOutflow.applySet_ok ran
    exact later
  | remove account =>
    obtain ⟨cur, q, -, -, rfl⟩ := AccountOutflow.applyRemove_ok ran
    exact later
  | cancelPending account approval =>
    rwa [opened_congr (applyCancelPending_releases ran)] at later
  | requestRelease account recipient amount =>
    obtain ⟨cur, m, -, rfl⟩ := AccountOutflow.applyRequestRelease_ok ran
    set i := ((s.metas account).getD {}).next with i_eq
    set queued := s.setRelease account i
      (some ⟨recipient, amount, AccountOutflow.after now cur.holdMs⟩) with queued_eq
    have after : opened a id (queued.setMeta account m) =
        if account = a ∧ i = id then true else opened a id s := opened_setRelease rfl
    rw [after] at later
    change PaidOnce a id (_ || decide _) rest
    split_ifs at later with own
    · rwa [decide_eq_true own, Bool.or_true]
    · rwa [decide_eq_false own, Bool.or_false]
  | cancelRelease account i approval =>
    obtain ⟨-, closed⟩ := applyRelease_closes ran
    rw [opened_setRelease closed] at later
    split_ifs at later
    · exact later.weaken
    · exact later
  | claimRelease account i approval =>
    obtain ⟨queued, closed⟩ := applyRelease_closes ran
    rw [opened_setRelease closed] at later
    obtain ⟨rel, found⟩ := Option.isSome_iff_exists.1 queued
    simp only [Op.effects, found, Option.map_some, Option.toList_some, List.singleton_append,
      PaidOnce]
    split_ifs at later ⊢ with own
    · rw [← own.1, ← own.2]
      rw [← own.1, ← own.2] at later
      exact ⟨queued, later⟩
    · exact later

theorem paidOnce_step {x : ℤ × AccountOutflow.Transaction}
    (later : PaidOnce a id (opened a id (AccountOutflow.step s x).1) rest) :
    PaidOnce a id (opened a id s) ((AccountOutflow.step s x).2 ++ rest) := by
  unfold AccountOutflow.step at later ⊢
  cases done : AccountOutflow.execute s x.2 x.1 with
  | error e =>
    simp only [done] at later ⊢
    exact later
  | ok r =>
    simp only [done] at later ⊢
    obtain ⟨now, tx⟩ := x
    cases tx with
    | outflow sender op =>
      obtain ⟨s', ran, done⟩ := bind_ok.1 done
      cases pure_ok.1 done
      exact paidOnce_apply ran later
    | ordinary sender signers ran =>
      obtain ⟨same, counted⟩ := paidOnce_charged done
      rw [same] at later
      exact counted.2 later

theorem paidOnce_run (a : Bytes) (id : ℕ) (s : AccountOutflow.State)
    (r : List (ℤ × AccountOutflow.Transaction)) :
    PaidOnce a id (opened a id s) (AccountOutflow.run s r).2 := by
  induction r generalizing s with
  | nil => trivial
  | cons x r ih => exact paidOnce_step (ih _)

end

/-- Each mover conserves the total exactly under its condition, and no release is paid twice. -/
theorem balance_movers [AccountNames] (b : Bytes → ℕ) (source dest : Bytes) (n : ℕ) :
    (Sound b source dest n (fundingMoveBalance b source dest n) ↔ FundingHolds b source dest n) ∧
    Sound b source dest n (roleStakeMoveBalance b source dest n) ∧
    ((∀ a, b a ≤ maxValue 128) →
      (Sound b source dest n (claimPayment b source dest n) ↔ ClaimHolds b source dest n)) ∧
    ∀ (_ : RootApproval) (a : Bytes) (id : ℕ) (s : AccountOutflow.State)
      (r : List (ℤ × AccountOutflow.Transaction)),
      PaidOnce a id (opened a id s) (AccountOutflow.run s r).2 :=
  ⟨fundingMoveBalance_sound, roleStakeMoveBalance_sound, fun typed => claimPayment_sound typed,
    fun _ a id s r => paidOnce_run a id s r⟩

def selfRelease : List (ℤ × AccountOutflow.Transaction) :=
  [(1000, .outflow [1] (.requestRelease [1] [1] 700)),
    (90000000, .outflow [1] (.claimRelease [1] 0 none))]

theorem balance_movers_at_purse : @Sound spelled _ (fun _ => 5) [1] [2] 3
    (@claimPayment spelled (fun _ => 5) [1] [2] 3) :=
  ((@balance_movers spelled (fun _ => 5) [1] [2] 3).2.2.1 fun _ => by decide).2
    (.inl ⟨by decide, by decide⟩)

theorem self_release_mints :
    AccountOutflow.hourlyState.balances [1] = 5000 ∧
      (@AccountOutflow.run AccountOutflow.noApprovals AccountOutflow.hourlyState
        selfRelease).1.balances [1] = 5700 ∧
      ¬@Sound spelled _ AccountOutflow.hourlyState.balances [1] [1] 700
        (@claimPayment spelled AccountOutflow.hourlyState.balances [1] [1] 700) ∧
      ¬@Sound spelled _ AccountOutflow.hourlyState.balances [1] [1] 700
        (@fundingMoveBalance spelled AccountOutflow.hourlyState.balances [1] [1] 700) := by
  have grows : ∀ {ε : Type} (r : Except ε (Bytes → ℕ)) (b' : Bytes → ℕ), r = .ok b' →
      b' [1] = 5700 → ¬@Sound spelled _ AccountOutflow.hourlyState.balances [1] [1] 700 r := by
    intro ε r b' ran grown sound
    have still := (sound b' ran).still rfl
    change b' [1] = 5000 at still
    omega
  have claimed := (@claimPayment_ok AccountOutflow.hourlyState.balances [1] [1] 700 spelled _).2
    ⟨by decide, rfl⟩
  have funded := (@fundingMoveBalance_ok AccountOutflow.hourlyState.balances [1] [1] 700
    spelled _).2 ⟨by decide, by decide, rfl⟩
  exact ⟨by decide, by decide, grows _ _ claimed (by decide),
    grows _ _ funded (by decide)⟩

end Tenzro.BalanceMovers

namespace Tenzro.Treasury
open FixedWidth Outcome NativeBalance
open Staking (VmError refuse clampSigned)

/-- The treasury and the running-cost reserve, two hashes of different texts. -/
class TreasuryVaults extends AccountNames where
  treasury : Bytes
  reserve : Bytes
  apart : account treasury ≠ account reserve

structure OutflowPeriod where
  startedMs : ℤ
  openingBalance : ℕ
  paid : ℕ
deriving DecidableEq, Repr

/-- The governed limits of the treasury's outflow. -/
structure OutflowParams where
  maxPeriodBps : ℕ
  maxProposalBps : ℕ
  periodMs : ℕ
deriving DecidableEq, Repr

/-- The bounds the parameters are governed within. -/
structure OutflowParams.InBounds (p : OutflowParams) : Prop where
  period : p.maxPeriodBps ≤ 10000
  proposal : p.maxProposalBps ≤ 10000
  least : 60 * 60 * 1000 ≤ p.periodMs
  most : p.periodMs ≤ 365 * 24 * 60 * 60 * 1000

def bpsOf (value bps : ℕ) : ℕ := value / 10000 * bps + value % 10000 * bps / 10000

section
variable [TreasuryVaults] (params : OutflowParams) (balance : Bytes → ℕ)
  (stored : Option OutflowPeriod) (nowMs : ℤ)

def outflowPeriod : OutflowPeriod :=
  match stored with
  | some p =>
    if nowMs < clampSigned (p.startedMs + wrapSigned 64 params.periodMs) then p
    else ⟨nowMs, balanceOf balance TreasuryVaults.treasury, 0⟩
  | none => ⟨nowMs, balanceOf balance TreasuryVaults.treasury, 0⟩

def commitOutflow (committed : ℕ) : Except VmError Unit :=
  let cap := bpsOf (balanceOf balance TreasuryVaults.treasury) params.maxProposalBps
  ensure (committed ≤ cap) (VmError.invalidTransaction
    s!"a proposal may pay at most {cap} from the treasury; this one commits {committed}")

def outflowHeadroom : ℕ :=
  let period := outflowPeriod params balance stored nowMs
  bpsOf period.openingBalance params.maxPeriodBps - period.paid

def recordOutflow (amount : ℕ) : Except VmError OutflowPeriod := do
  let period := outflowPeriod params balance stored nowMs
  let cap := bpsOf period.openingBalance params.maxPeriodBps
  let paid := saturatingAdd 128 period.paid amount
  ensure (paid ≤ cap) (VmError.invalidTransaction
    s!"the treasury may pay out {cap} in this outflow period and has paid {period.paid}; {amount} more is over the cap")
  return { period with paid }

end

section
variable {value bps : ℕ}

theorem bpsOf_le (share : bps ≤ 10000) : bpsOf value bps ≤ value := by
  unfold bpsOf
  have lots := Nat.mul_le_mul_left (value / 10000) share
  have rest := Nat.mul_le_mul_left (value % 10000) share
  omega

theorem bpsOf_mono {less : ℕ} (le : less ≤ value) : bpsOf less bps ≤ bpsOf value bps := by
  have exact_share : ∀ v, bpsOf v bps = v * bps / 10000 := by
    intro v
    unfold bpsOf
    have split : v * bps = 10000 * (v / 10000 * bps) + v % 10000 * bps := by
      have parts := Nat.div_add_mod v 10000
      calc v * bps = (10000 * (v / 10000) + v % 10000) * bps := by rw [parts]
        _ = _ := by ring
    rw [split, Nat.mul_add_div (by decide)]
  rw [exact_share, exact_share]
  exact Nat.div_le_div_right (Nat.mul_le_mul_right bps le)

variable [TreasuryVaults] {params : OutflowParams} {balance : Bytes → ℕ}
  {stored : Option OutflowPeriod} {nowMs : ℤ} {amount : ℕ}

theorem recordOutflow_ok (some_of_it : 0 < amount)
    (covered : amount ≤ outflowHeadroom params balance stored nowMs) :
    ∃ p, recordOutflow params balance stored nowMs amount = .ok p := by
  unfold outflowHeadroom at covered
  simp only at covered
  refine ⟨_, bind_ok.2 ⟨(), ensure_ok.2 ?_, rfl⟩⟩
  unfold saturatingAdd
  omega

end

end Tenzro.Treasury
