import Tenzro.Governance
import Tenzro.StakingExit

set_option autoImplicit false
set_option linter.dupNamespace false

/-!
# What a vote weighs

A vote weighs the bond that had aged when the proposal opened, or what the
validator has put up itself now if that is less.
-/
namespace Tenzro.Staking
open FixedWidth Outcome List Function
open Governance (Proposal)

namespace StakeLedger
variable (s : StakeLedger) (addr : Bytes)

/-- Decreases are not in the history; a caller takes the minimum with the current bond. -/
def bondAt (atMs : ℤ) : ℕ :=
  ((s.increases addr).find? fun i => atMs < i.atMs).elim (s.bond addr) BondIncrease.before

def agedAt (p : Proposal) : ℤ := clampSigned (p.createdMs - max p.rules.minBondAgeMs 0)

def voteWeight (p : Proposal) : ℕ := min (s.bondAt addr (agedAt p)) (s.ownBonded addr)

end StakeLedger

open StakeLedger (agedAt)

/-- The oldest increase that one at this time leaves in the history. -/
def horizon (nowMs : ℤ) : ℤ :=
  clampSigned (clampSigned (nowMs - longestVotingPeriodMs) - maxMinBondAgeMs)

theorem clampSigned_mono {x y : ℤ} (le : x ≤ y) : clampSigned x ≤ clampSigned y := by
  unfold clampSigned
  omega

theorem horizon_mono {x y : ℤ} (le : x ≤ y) : horizon x ≤ horizon y :=
  clampSigned_mono (Int.sub_le_sub_right (clampSigned_mono (Int.sub_le_sub_right le _)) _)

/-- While a proposal has not been contested, its voting window ends before the history forgets. -/
theorem horizon_le_agedAt {p : Proposal} (windowed : p.Windowed) (direct : p.track ≠ .ratify)
    {atMs : ℤ} (opened : p.isOpenAt atMs) : horizon atMs ≤ agedAt p := by
  obtain ⟨⟨⟨voting_pos, voting⟩, ⟨expedited_pos, expedited⟩, ⟨age_pos, age⟩⟩, ⟨low, high⟩,
    window⟩ := windowed
  have ends := window direct
  simp only [Proposal.isOpenAt, Bool.and_eq_true, decide_eq_true_eq] at opened
  have period : 0 ≤ p.track.votingPeriodMs p.rules ∧
      p.track.votingPeriodMs p.rules ≤ longestVotingPeriodMs := by
    unfold Governance.ProposalTrack.votingPeriodMs
    unfold Governance.maxVotingPeriodMs at voting
    unfold Governance.maxExpeditedVotingPeriodMs at expedited
    unfold longestVotingPeriodMs
    cases p.track <;> simp only <;> omega
  have before : atMs - longestVotingPeriodMs ≤ p.createdMs := by
    have closes := opened.2
    rw [ends] at closes
    unfold clampSigned at closes
    omega
  unfold horizon agedAt
  refine clampSigned_mono ?_
  have inside := clampSigned_mono before
  have same : clampSigned p.createdMs = p.createdMs := by
    unfold clampSigned
    omega
  omega

def Reaches (history : List BondIncrease) (t : ℤ) : Prop := ∀ i ∈ history, horizon i.atMs ≤ t

/-- A validator's history against what it had put up. -/
structure Remembers (history : List BondIncrease) (own : ℕ) (owned : ℤ → ℕ) (mixed : List ℤ)
    (now : ℤ) : Prop where
  past : ∀ i ∈ history, i.atMs ≤ now
  nothing : ∀ t, Reaches history t → history.find? (fun i => t < i.atMs) = none → own ≤ owned t
  first : ∀ t i, Reaches history t → history.find? (fun i => t < i.atMs) = some i →
    i.before ≤ owned t ∨ i.atMs ∈ mixed ∧ own ≤ owned t

section
variable {history : List BondIncrease} {own own' : ℕ} {owned : ℤ → ℕ} {mixed mixed' : List ℤ}
  {now nowMs : ℤ}

theorem find_past {t : ℤ} (past : ∀ i ∈ history, i.atMs ≤ nowMs) (late : nowMs ≤ t) :
    history.find? (fun i => t < i.atMs) = none := by
  refine find?_eq_none.2 fun i mem => ?_
  have early := past i mem
  simp only [decide_eq_true_eq, not_lt]
  omega

theorem Remembers.lessen (remembers : Remembers history own owned mixed now)
    (later : now ≤ nowMs) (less : own' ≤ own) :
    Remembers history own' (fun t => if nowMs ≤ t then own' else owned t) mixed nowMs := by
  have past (i : BondIncrease) (mem : i ∈ history) : i.atMs ≤ nowMs :=
    (remembers.past i mem).trans later
  refine ⟨past, fun t inside none => ?_, fun t i inside found => ?_⟩
  · split_ifs with late
    · exact le_rfl
    · exact less.trans (remembers.nothing t inside none)
  · have early : ¬ nowMs ≤ t := fun late => by
      rw [find_past past late] at found
      cases found
    simp only [if_neg early]
    rcases remembers.first t i inside found with kept | ⟨mem, kept⟩
    · exact .inl kept
    · exact .inr ⟨mem, less.trans kept⟩

theorem find_increased {entry : BondIncrease} {t : ℤ} (inside : horizon nowMs ≤ t) :
    ((history.filter fun i => horizon nowMs ≤ i.atMs) ++ [entry]).find? (fun i => t < i.atMs) =
      (history.find? fun i => t < i.atMs).or ([entry].find? fun i => t < i.atMs) := by
  rw [find?_append, find?_filter]
  congr 2
  funext i
  exact decide_eq_decide.2 ⟨fun both => of_decide_eq_true both.2, fun after =>
    ⟨decide_eq_true (inside.trans_lt after).le, decide_eq_true after⟩⟩

theorem Remembers.increase (remembers : Remembers history own owned mixed now)
    (later : now ≤ nowMs) {before : ℕ} (kept : mixed ⊆ mixed')
    (clean : before ≤ own ∨ nowMs ∈ mixed' ∧ own' ≤ own)
    (apart : own' ≤ own ∨ ∀ t ∈ mixed, t < horizon nowMs) :
    Remembers ((history.filter fun i => horizon nowMs ≤ i.atMs) ++ [⟨nowMs, before⟩]) own'
      (fun t => if nowMs ≤ t then own' else owned t) mixed' nowMs := by
  have past : ∀ i ∈ (history.filter fun i => horizon nowMs ≤ i.atMs) ++ [⟨nowMs, before⟩],
      i.atMs ≤ nowMs := by
    intro i mem
    rcases mem_append.1 mem with old | new
    · exact (remembers.past i (mem_of_mem_filter old)).trans later
    · rw [mem_singleton.1 new]
  have reach {t : ℤ} (inside : Reaches ((history.filter fun i => horizon nowMs ≤ i.atMs) ++
      [⟨nowMs, before⟩]) t) : horizon nowMs ≤ t :=
    inside ⟨nowMs, before⟩ (mem_append_right _ (mem_singleton_self _))
  have wide {t : ℤ} (inside : horizon nowMs ≤ t) : Reaches history t := fun i mem =>
    (horizon_mono ((remembers.past i mem).trans later)).trans inside
  refine ⟨past, fun t within none => ?_, fun t i within found => ?_⟩
  · split_ifs with late
    · exact le_rfl
    · rw [find_increased (reach within), Option.or_eq_none_iff] at none
      simp [late] at none
  · have early : ¬ nowMs ≤ t := fun late => by
      rw [find_past past late] at found
      cases found
    simp only [if_neg early]
    have inside := reach within
    rw [find_increased inside] at found
    cases old : history.find? fun i => t < i.atMs with
    | some j =>
      rw [old, Option.some_or, Option.some.injEq] at found
      subst found
      rcases remembers.first t j (wide inside) old with ok | ⟨mem, ok⟩
      · exact .inl ok
      · rcases apart with less | gone
        · exact .inr ⟨kept mem, less.trans ok⟩
        · have hit := find?_some old
          have out := gone _ mem
          simp only [decide_eq_true_eq] at hit
          omega
    | none =>
      have ok := remembers.nothing t (wide inside) old
      rw [old, Option.none_or] at found
      simp only [find?_singleton] at found
      split_ifs at found
      rw [← Option.some.inj found]
      rcases clean with before_le | ⟨mem, less⟩
      · exact .inl (before_le.trans ok)
      · exact .inr ⟨mem, less.trans ok⟩

end

section
variable [StakeAccounts]

namespace StakeOp

def increases : StakeOp → Option Bytes
  | addBond _ addr _ | addSponsoredBond _ addr _ => some addr
  | _ => none

/-- When each bond was increased while part of it was sponsored. -/
def mixes (view : StakeView) (s : StakeLedger) (mixed : Bytes → List ℤ) (op : StakeOp) :
    Bytes → List ℤ :=
  match op.run view s with
  | .error _ => mixed
  | .ok _ => fun a =>
    if op.increases = some a ∧ s.sponsored a ≠ 0 then view.nowMs :: mixed a else mixed a

/-- What each validator has put up itself, by time. -/
def owns (view : StakeView) (s : StakeLedger) (owned : Bytes → ℤ → ℕ) (op : StakeOp) :
    Bytes → ℤ → ℕ :=
  fun a t => if view.nowMs ≤ t then (op.apply view s).ownBonded a else owned a t

/-- A validator does not top up its own bond while part of the bond is sponsored, nor while the
history still holds an increase that found part of it sponsored. -/
def KeepsApart (view : StakeView) (s : StakeLedger) (mixed : Bytes → List ℤ) : StakeOp → Prop
  | addBond _ addr amount => amount = 0 ∨
    s.sponsored addr = 0 ∧ ∀ t ∈ mixed addr, t < horizon view.nowMs
  | _ => True

end StakeOp

/-- Runs in which block time does not go back, with what each validator had put up by time and the
increases of partly sponsored bonds. -/
inductive Bonding
    (allowed : StakeView → StakeLedger → (Bytes → List ℤ) → StakeOp → Prop) :
    StakeLedger → (Bytes → ℤ → ℕ) → (Bytes → List ℤ) → ℤ → Prop
  | start (balance : Bytes → ℕ) (now : ℤ) :
      Bonding allowed (.fresh balance) (fun _ _ => 0) (fun _ => []) now
  | step {s : StakeLedger} {owned : Bytes → ℤ → ℕ} {mixed : Bytes → List ℤ} {now : ℤ}
      (before : Bonding allowed s owned mixed now) (view : StakeView) (later : now ≤ view.nowMs)
      (op : StakeOp) (may : allowed view s mixed op) :
      Bonding allowed (op.apply view s) (op.owns view s owned) (op.mixes view s mixed) view.nowMs

/-! ### Over a run -/

section
variable {s s' : StakeLedger} {owned : Bytes → ℤ → ℕ} {mixed : Bytes → List ℤ} {now : ℤ}
  {view : StakeView} {op : StakeOp} {addr : Bytes}

omit [StakeAccounts] in
theorem Increased.backed {amount part : ℕ} (more : Increased s s' view addr amount part)
    (within : part ≤ amount) (backed : s.Backed) : s'.Backed := by
  intro a
  rw [more.bond, more.sponsored]
  by_cases same : a = addr
  · rw [same, update_self, update_self]
    exact ⟨Nat.add_le_add (backed addr).1 within, more.fits⟩
  · rw [update_of_ne same, update_of_ne same]
    exact backed a

omit [StakeAccounts] in
theorem Left.backed {amount part : ℕ} {release : ℤ} (gone : Left s s' addr amount part release)
    (within : s.sponsored addr - part ≤ s.bond addr - amount) (backed : s.Backed) : s'.Backed := by
  intro a
  rw [gone.bond, gone.sponsored]
  by_cases same : a = addr
  · rw [same, update_self, update_self]
    exact ⟨within, (Nat.sub_le _ _).trans (backed addr).2⟩
  · rw [update_of_ne same, update_of_ne same]
    exact backed a

omit [StakeAccounts] in
theorem Left.own_le {amount part : ℕ} {release : ℤ} (gone : Left s s' addr amount part release)
    (within : s.bond addr - amount - (s.sponsored addr - part) ≤ s.ownBonded addr) (a : Bytes) :
    s'.ownBonded a ≤ s.ownBonded a := by
  unfold StakeLedger.ownBonded at within ⊢
  rw [gone.bond, gone.sponsored]
  by_cases same : a = addr
  · rw [same, update_self, update_self]
    exact within
  · rw [update_of_ne same, update_of_ne same]

/-- The ledger of a run against what it remembers. -/
structure Recalls (s : StakeLedger) (owned : Bytes → ℤ → ℕ) (mixed : Bytes → List ℤ) (now : ℤ) :
    Prop where
  backed : s.Backed
  remembers : ∀ a, Remembers (s.increases a) (s.ownBonded a) (owned a) (mixed a) now

theorem Recalls.lessen (recalls : Recalls s owned mixed now) (later : now ≤ view.nowMs)
    (ran : op.apply view s = s') (idle : op.increases = none) (backed : s'.Backed)
    (increases : s'.increases = s.increases) (less : ∀ a, s'.ownBonded a ≤ s.ownBonded a) :
    Recalls s' (op.owns view s owned) (op.mixes view s mixed) view.nowMs := by
  refine ⟨backed, fun a => ?_⟩
  have same : op.mixes view s mixed a = mixed a := by
    unfold StakeOp.mixes
    cases op.run view s with
    | error e => rfl
    | ok out => simp [idle]
  rw [same, increases]
  unfold StakeOp.owns
  rw [ran]
  exact (recalls.remembers a).lessen later (less a)

theorem Recalls.increase (recalls : Recalls s owned mixed now) (later : now ≤ view.nowMs)
    {paid : List (Bytes × ℕ)} (ran : op.run view s = .ok (s', paid))
    (raises : op.increases = some addr) {amount part : ℕ}
    (more : Increased s s' view addr amount part) (within : part ≤ amount)
    (apart : s'.ownBonded addr ≤ s.ownBonded addr ∨
      s.sponsored addr = 0 ∧ ∀ t ∈ mixed addr, t < horizon view.nowMs) :
    Recalls s' (op.owns view s owned) (op.mixes view s mixed) view.nowMs := by
  refine ⟨more.backed within recalls.backed, fun a => ?_⟩
  have marked : op.mixes view s mixed a =
      if addr = a ∧ s.sponsored a ≠ 0 then view.nowMs :: mixed a else mixed a := by
    unfold StakeOp.mixes
    rw [ran]
    simp only [raises, Option.some.injEq]
  have after : op.owns view s owned a = fun t =>
      if view.nowMs ≤ t then s'.ownBonded a else owned a t := by
    unfold StakeOp.owns StakeOp.apply
    rw [ran]
  rw [after, marked, more.increases]
  by_cases same : addr = a
  · subst same
    rw [update_self]
    refine (recalls.remembers addr).increase later ?_ ?_ ?_
    · split_ifs
      · exact subset_cons_self _ _
      · exact List.Subset.refl _
    · rcases Nat.eq_zero_or_pos (s.sponsored addr) with own | shared
      · refine .inl ?_
        unfold StakeLedger.ownBonded
        rw [own, Nat.sub_zero]
      · rw [if_pos ⟨rfl, shared.ne'⟩]
        refine .inr ⟨mem_cons_self, ?_⟩
        rcases apart with less | ⟨own, -⟩
        · exact less
        · exact absurd own shared.ne'
    · exact apart.imp_right And.right
  · rw [if_neg (fun both => same both.1), update_of_ne (Ne.symm same)]
    refine (recalls.remembers a).lessen later ?_
    unfold StakeLedger.ownBonded
    rw [more.bond, more.sponsored, update_of_ne (Ne.symm same),
      update_of_ne (Ne.symm same)]

theorem Recalls.step (recalls : Recalls s owned mixed now) (later : now ≤ view.nowMs)
    (may : op.KeepsApart view s mixed) :
    Recalls (op.apply view s) (op.owns view s owned) (op.mixes view s mixed) view.nowMs := by
  cases ran : op.run view s with
  | error e =>
    have same : op.apply view s = s := by
      unfold StakeOp.apply
      rw [ran]
    have unmixed : op.mixes view s mixed = mixed := by
      unfold StakeOp.mixes
      rw [ran]
    rw [same, unmixed]
    refine ⟨recalls.backed, fun a => ?_⟩
    unfold StakeOp.owns
    rw [same]
    exact (recalls.remembers a).lessen later le_rfl
  | ok out =>
    obtain ⟨s', paid⟩ := out
    have applied : op.apply view s = s' := by
      unfold StakeOp.apply
      rw [ran]
    have moved := run_moved ran
    have backed := recalls.backed
    have lessened (less : Lessened s s') (idle : op.increases = none) :
        Recalls s' (op.owns view s owned) (op.mixes view s mixed) view.nowMs :=
      recalls.lessen later applied idle (less.stake backed).1 less.increases
        fun a => ((less.stake backed).2 a).2
    rw [applied]
    cases op with
    | addBond source addr amount =>
      refine recalls.increase later ran rfl moved (Nat.zero_le _) ?_
      rcases may with nothing | apart
      · refine .inl ?_
        unfold StakeLedger.ownBonded
        rw [moved.bond, moved.sponsored, update_self, update_self, nothing]
        exact le_rfl
      · exact .inr apart
    | addSponsoredBond source addr amount =>
      refine recalls.increase later ran rfl moved le_rfl (.inl ?_)
      unfold StakeLedger.ownBonded
      rw [moved.bond, moved.sponsored, update_self, update_self]
      omega
    | recallSponsoredBond addr amount =>
      obtain ⟨covered, gone⟩ := moved
      have lien := (backed addr).1
      refine recalls.lessen later applied rfl (gone.backed ?_ backed) gone.increases
        (gone.own_le ?_)
      · omega
      · unfold StakeLedger.ownBonded
        omega
    | beginUnbonding addr =>
      rcases moved with ⟨-, rfl⟩ | ⟨-, gone⟩
      · exact recalls.lessen later applied rfl backed rfl fun _ => le_rfl
      · refine recalls.lessen later applied rfl (gone.backed ?_ backed) gone.increases
          (gone.own_le ?_)
        · omega
        · omega
    | releaseRecalled addr => exact lessened moved.1 rfl
    | withdrawUnbondedSplit addr payee => exact lessened moved.1 rfl
    | slashToInsurance addr bps => exact lessened moved rfl
    | slashForEquivocation addr index => exact lessened moved rfl

theorem Bonding.recalls (run : Bonding StakeOp.KeepsApart s owned mixed now) :
    Recalls s owned mixed now := by
  induction run with
  | start balance now =>
    refine ⟨fun a => ⟨le_rfl, Nat.zero_le _⟩, fun a => ⟨?_, ?_, ?_⟩⟩
    · exact fun i mem => absurd mem not_mem_nil
    · exact fun t inside none => le_rfl
    · intro t i inside found
      cases found
  | step before view later op may ih => exact ih.step later may

/-- Where own top-ups keep apart from sponsored stake, a first-window vote weighs at most the stake
that had to have aged, and a contested one does while no increase since made the history forget that
time. -/
theorem voteWeight_le_aged (run : Bonding StakeOp.KeepsApart s owned mixed now) {p : Proposal}
    (reached : p.Reached) {atMs : ℤ} (later : now ≤ atMs) (opened : p.isOpenAt atMs)
    (recent : p.track = .ratify → Reaches (s.increases addr) (agedAt p)) :
    s.voteWeight addr p ≤ owned addr (agedAt p) ∧ s.voteWeight addr p ≤ s.ownBonded addr := by
  refine ⟨?_, min_le_right _ _⟩
  have remembers := run.recalls.remembers addr
  have inside : Reaches (s.increases addr) (agedAt p) := by
    by_cases contested : p.track = .ratify
    · exact recent contested
    · intro i mem
      exact (horizon_mono ((remembers.past i mem).trans later)).trans
        (horizon_le_agedAt reached.windowed contested opened)
  unfold StakeLedger.voteWeight StakeLedger.bondAt
  cases found : (s.increases addr).find? fun i => agedAt p < i.atMs with
  | none => exact (min_le_right _ _).trans (remembers.nothing _ inside found)
  | some i =>
    rcases remembers.first _ i inside found with before | ⟨-, own⟩
    · exact (min_le_left _ _).trans before
    · exact (min_le_right _ _).trans own

end

end

/-! A proposal of day 100 weighs the bond of day 10: 10 units. A top-up of 50 on day 50 enters the
vote where a sponsor's 90 stood beside the 10, and where a top-up on day 188, before the proposal's
second vote has closed, makes the history forget the one of day 50. -/

namespace LateTopUp
open Governance
open SponsoredExit (accounts validator)

attribute [local instance] accounts

def day : ℕ := 24 * 60 * 60 * 1000

def view (n : ℕ) : StakeView := ⟨n * day, none, 30 * day, 16, 500, 3⟩

def start : StakeLedger := .fresh (update (update (fun _ => 0) validator 61)
  accounts.treasury 90)

def own (n amount : ℕ) (s : StakeLedger) : StakeLedger :=
  (StakeOp.addBond validator validator amount).apply (view n) s

def sponsor (s : StakeLedger) : StakeLedger :=
  (StakeOp.addSponsoredBond accounts.treasury validator 90).apply (view 0) s

def rules : GovernanceRules where
  votingPeriodMs := 30 * day
  expeditedVotingPeriodMs := day
  timelockMs := 30 * day
  expeditedTimelockMs := day
  ratifyTimelockMs := 30 * day
  quorumBps := 3300
  thresholdBps := 5000
  expeditedThresholdBps := 6700
  ratifyThresholdBps := 7500
  minBondAgeMs := 90 * day
  largeSpendTnzo := 1000
  largeSpendApprovalBps := 5000
  largeSpendTimelockMs := 30 * day

def action : ProposalAction := ⟨"approve_validators", .network, .standard, none, false, 0, by decide,
  by decide⟩

def proposal : Proposal := .opened action (100 * day) rules

def queued : Proposal := { proposal with
  status := .queued
  queuedMs := some (130 * day)
  etaMs := some (160 * day) }

def contested : Proposal := { proposal with
  status := .contested
  track := .ratify
  votingEndsMs := 189 * day }

theorem opened : proposal.Reached := by
  refine .opened action ⟨by decide, by decide⟩ ⟨⟨by decide, by decide⟩, ⟨by decide, by decide⟩, ?_⟩
  exact ⟨by decide, by decide⟩

theorem reached : contested.Reached := by
  have carried : { proposal with status := .passed }.queue (130 * day) = some queued := by
    decide
  have blocked : queued.contest (159 * day) = some contested := by
    decide
  exact (opened.queued carried).contested blocked

def ownedAfter (s : StakeLedger) (owned : Bytes → ℤ → ℕ) (n amount : ℕ) : Bytes → ℤ → ℕ :=
  (StakeOp.addBond validator validator amount).owns (view n) s owned

def mixedAfter (s : StakeLedger) (mixed : Bytes → List ℤ) (n amount : ℕ) : Bytes → List ℤ :=
  (StakeOp.addBond validator validator amount).mixes (view n) s mixed

theorem ages {n m : ℕ} (le : n ≤ m) : (view n).nowMs ≤ (view m).nowMs := by
  simp only [view]
  have more := Nat.mul_le_mul_right day le
  omega

def sponsoredOwned : Bytes → ℤ → ℕ :=
  (StakeOp.addSponsoredBond accounts.treasury validator 90).owns (view 0) (own 0 10 start)
    (ownedAfter start (fun _ _ => 0) 0 10)

/-- A vote weighs 60 where 10 had aged: beside a sponsor's stake, and in a second vote. -/
theorem unaged_votes :
    (∃ s owned mixed, Bonding (fun _ _ _ _ => True) s owned mixed (view 50).nowMs ∧
      proposal.Reached ∧ proposal.isOpenAt (view 101).nowMs ∧
      owned validator (agedAt proposal) = 10 ∧ s.voteWeight validator proposal = 60) ∧
    ∃ s owned mixed, Bonding (fun _ _ _ _ => True) s owned mixed (view 188).nowMs ∧
      contested.Reached ∧ contested.isOpenAt (view 188).nowMs ∧
      owned validator (agedAt contested) = 10 ∧ s.voteWeight validator contested = 60 := by
  have first : Bonding (fun _ _ _ _ => True) (own 0 10 start) _ _ (view 0).nowMs :=
    (Bonding.start _ 0).step (view 0) le_rfl (.addBond validator validator 10) trivial
  constructor
  · have beside : Bonding (fun _ _ _ _ => True) (sponsor (own 0 10 start)) _ _ (view 0).nowMs :=
      first.step (view 0) le_rfl (.addSponsoredBond accounts.treasury validator 90) trivial
    have more : Bonding (fun _ _ _ _ => True) (own 50 50 (sponsor (own 0 10 start)))
        (ownedAfter (sponsor (own 0 10 start)) sponsoredOwned 50 50) _ (view 50).nowMs :=
      beside.step (view 50) (ages (Nat.zero_le _)) (.addBond validator validator 50) trivial
    exact ⟨_, _, _, more, opened, by decide, by decide, by decide⟩
  · have second : Bonding (fun _ _ _ _ => True) (own 50 50 (own 0 10 start))
        (ownedAfter (own 0 10 start) (ownedAfter start (fun _ _ => 0) 0 10) 50 50) _
        (view 50).nowMs :=
      first.step (view 50) (ages (Nat.zero_le _)) (.addBond validator validator 50) trivial
    have last : Bonding (fun _ _ _ _ => True) (own 188 1 (own 50 50 (own 0 10 start)))
        (ownedAfter (own 50 50 (own 0 10 start))
          (ownedAfter (own 0 10 start) (ownedAfter start (fun _ _ => 0) 0 10) 50 50) 188 1) _
        (view 188).nowMs :=
      second.step (view 188) (ages (by decide)) (.addBond validator validator 1) trivial
    exact ⟨_, _, _, last, reached, by decide, by decide, by decide⟩

/-- Without the sponsor, the top-up of day 50 stays out of the first vote. -/
theorem voteWeight_le_aged_own : (own 50 50 (own 0 10 start)).voteWeight validator proposal ≤ 10 ∧
    (own 50 50 (own 0 10 start)).ownBonded validator = 60 := by
  have first : Bonding StakeOp.KeepsApart (own 0 10 start) (ownedAfter start (fun _ _ => 0) 0 10)
      (mixedAfter start (fun _ => []) 0 10) (view 0).nowMs :=
    (Bonding.start _ 0).step (view 0) le_rfl (.addBond validator validator 10)
      (.inr ⟨rfl, fun t mem => absurd mem not_mem_nil⟩)
  have unmixed : mixedAfter start (fun _ => []) 0 10 validator = [] := by
    decide
  have second : Bonding StakeOp.KeepsApart (own 50 50 (own 0 10 start))
      (ownedAfter (own 0 10 start) (ownedAfter start (fun _ _ => 0) 0 10) 50 50)
      (mixedAfter (own 0 10 start) (mixedAfter start (fun _ => []) 0 10) 50 50)
      (view 50).nowMs := by
    refine first.step (view 50) (ages (Nat.zero_le _)) (.addBond validator validator 50)
      (.inr ⟨by decide, ?_⟩)
    rw [unmixed]
    exact fun t mem => absurd mem not_mem_nil
  have aged : ownedAfter (own 0 10 start) (ownedAfter start (fun _ _ => 0) 0 10) 50 50 validator
      (agedAt proposal) = 10 := by
    decide
  rw [← aged]
  refine ⟨(voteWeight_le_aged second opened (ages (by decide : 50 ≤ 101)) (by decide) ?_).1, ?_⟩
  · exact fun contested => absurd contested (by decide)
  · decide

end LateTopUp

end Tenzro.Staking
