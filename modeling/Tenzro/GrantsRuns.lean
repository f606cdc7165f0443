import Tenzro.Grants
import Tenzro.SpendPeriods

set_option autoImplicit false
set_option linter.dupNamespace false

/-!
# Runs of the treasury's grants

What each grant was approved for, what was paid under it and who attested its milestones, over any
order of enactments, attestations and releases.
-/
namespace Tenzro.Grants
open FixedWidth Outcome NativeBalance Treasury List
open Staking (VmError clampSigned)
open BalanceMovers (fundingMoveBalance)
open ByteCodec (hexEncode hexEncode_injective)
open SpendPeriods (Spend Period periods count)

/-- How a tranche came to be paid. -/
inductive Route where
  | approval
  | release
  | milestone
deriving DecidableEq, Repr

inductive GrantEvent where
  | paid (grant : String) (index amount : ℕ) (recipient : Bytes) (route : Route)
  | attested (grant : String) (index : ℕ) (verifier : Bytes)
deriving DecidableEq, Repr

def GrantEvent.grant : GrantEvent → String
  | paid grant _ _ _ _ => grant
  | attested grant _ _ => grant

/-- What an enacted proposal approved. -/
structure Issued where
  recipient : Bytes
  schedule : List ℕ
  release : GrantRelease
deriving DecidableEq, Repr

/-- A ledger with the events newest first, and the payments counted against the treasury's outflow,
oldest first. -/
structure GrantHistory where
  ledger : FundingLedger
  now : ℤ
  issued : String → Option Issued
  events : List GrantEvent
  outflows : List Spend

inductive FundingCall where
  | enactGrant (view : FundingView) (proposalId : String) (recipient : Bytes) (amount : ℕ)
    (tranches : List ℕ) (milestones : List String) (vesting : GrantVesting)
    (asset : Option String) (release : GrantRelease)
  | enactTrancheRelease (view : FundingView) (grantId : String) (index : ℕ)
  | verifyMilestone (view : FundingView) (sender : Bytes) (grantId : String) (index : ℕ)
    (evidence : String)
  | releaseMilestone (view : FundingView) (sender : Bytes) (grantId : String) (index : ℕ)
  /-- Another payment the treasury's outflow counts, by the balances it leaves. -/
  | outflow (view : FundingView) (amount : ℕ) (balance : Bytes → ℕ)
  /-- Any other transaction, by the balances it leaves. -/
  | other (view : FundingView) (balance : Bytes → ℕ)

def FundingCall.view : FundingCall → FundingView
  | enactGrant view .. => view
  | enactTrancheRelease view .. => view
  | verifyMilestone view .. => view
  | releaseMilestone view .. => view
  | outflow view .. => view
  | other view _ => view

section
variable [GrantVaults]

namespace GrantHistory
variable (h : GrantHistory)

def treasuryHeld : ℕ := balanceOf h.ledger.balance TreasuryVaults.treasury

def spend (view : FundingView) (asset : Option String) (amount : ℕ) : List Spend :=
  match asset with
  | none => h.outflows ++ [⟨view.nowMs, amount, h.treasuryHeld⟩]
  | some _ => h.outflows

def released (view : FundingView) (s' : FundingLedger) (grantId : String) (index : ℕ)
    (route : Route) : GrantHistory :=
  match h.ledger.grants grantId with
  | none => { h with ledger := s', now := view.nowMs }
  | some g => { h with
      ledger := s'
      now := view.nowMs
      events := .paid grantId index (g.tranches.getD index 0) g.recipient route :: h.events
      outflows := h.spend view g.asset (g.tranches.getD index 0) }

def apply : FundingCall → GrantHistory
  | .enactGrant view proposalId recipient amount tranches milestones vesting asset release =>
    match h.ledger.enactGrant view proposalId recipient amount tranches milestones vesting asset
        release with
    | .ok s' => { h with
        ledger := s'
        now := view.nowMs
        issued := Function.update h.issued proposalId
          (some ⟨recipient, if tranches = [] then [amount] else tranches, release⟩)
        events := .paid proposalId 0 (tranches.headD amount) recipient .approval :: h.events
        outflows := h.spend view asset (tranches.headD amount) }
    | .error _ => { h with now := view.nowMs }
  | .enactTrancheRelease view grantId index =>
    match h.ledger.enactTrancheRelease view grantId index with
    | .ok s' => h.released view s' grantId index .release
    | .error _ => { h with now := view.nowMs }
  | .verifyMilestone view sender grantId index evidence =>
    match h.ledger.executeFunding view sender fun s =>
        s.verifyMilestone view sender grantId index evidence with
    | .ok s' => { h with
        ledger := s'
        now := view.nowMs
        events := .attested grantId index sender :: h.events }
    | .error _ => { h with now := view.nowMs }
  | .releaseMilestone view sender grantId index =>
    match h.ledger.executeFunding view sender fun s => s.releaseMilestone view grantId index with
    | .ok s' => h.released view s' grantId index .milestone
    | .error _ => { h with now := view.nowMs }
  | .outflow view amount balance =>
    match recordOutflow view.outflow h.ledger.balance h.ledger.period view.nowMs amount with
    | .ok period => { h with
        ledger := { h.ledger with balance, period := some period }
        now := view.nowMs
        outflows := h.spend view none amount }
    | .error _ => { h with now := view.nowMs }
  | .other view balance => { h with ledger := { h.ledger with balance }, now := view.nowMs }

end GrantHistory

def Fresh (h : GrantHistory) : FundingCall → Prop
  | .enactGrant _ proposalId .. => h.issued proposalId = none
  | _ => True

/-- Time never goes back nor reaches the end of its width, the parameters stay, and the treasury
holds less than the whole width. -/
structure Steady (params : OutflowParams) (h : GrantHistory) (call : FundingCall) : Prop where
  constant : call.view.outflow = params
  time : h.now ≤ call.view.nowMs
  early : -2 ^ 63 ≤ call.view.nowMs
  late : call.view.nowMs < 2 ^ 63 - 1
  held : h.treasuryHeld < maxValue 128

def run : GrantHistory → List FundingCall → GrantHistory
  | h, [] => h
  | h, call :: rest => run (h.apply call) rest

def Along (p : GrantHistory → FundingCall → Prop) : GrantHistory → List FundingCall → Prop
  | _, [] => True
  | h, call :: rest => p h call ∧ Along p (h.apply call) rest

end

/-! ### What was paid and attested -/

def payments (id : String) (events : List GrantEvent) : List (ℕ × ℕ × Bytes) :=
  events.reverse.filterMap fun e => match e with
    | .paid grant index amount recipient _ =>
      if grant = id then some (index, amount, recipient) else none
    | .attested .. => none

def attesters (id : String) (index : ℕ) (events : List GrantEvent) : List Bytes :=
  events.reverse.filterMap fun e => match e with
    | .attested grant i verifier => if grant = id ∧ i = index then some verifier else none
    | .paid .. => none

def Issued.paidUpTo (i : Issued) (k : ℕ) : List (ℕ × ℕ × Bytes) :=
  (range k).map fun j => (j, i.schedule.getD j 0, i.recipient)

/-- What a later tranche's payment needs to have come before it. -/
def Issued.Allows (i : Issued) (id : String) (index : ℕ) (route : Route)
    (before : List GrantEvent) : Prop :=
  match i.release with
  | .governed => route = .release
  | .scheduled verifiers threshold => route = .milestone ∧
    ∃ l : List Bytes, l.Nodup ∧ threshold ≤ l.length ∧
      ∀ v ∈ l, v ∈ verifiers ∧ GrantEvent.attested id index v ∈ before

def Justified (issued : String → Option Issued) : List GrantEvent → Prop
  | [] => True
  | .paid id index _ _ route :: before =>
    (index = 0 ∨ ∃ i, issued id = some i ∧ i.Allows id index route before) ∧ Justified issued before
  | .attested .. :: before => Justified issued before

section
variable {id : String} {index : ℕ} {events : List GrantEvent}

theorem payments_paid {grant : String} {i amount : ℕ} {recipient : Bytes} {route : Route} :
    payments id (.paid grant i amount recipient route :: events) =
      payments id events ++ if grant = id then [(i, amount, recipient)] else [] := by
  unfold payments
  rw [reverse_cons, filterMap_append]
  split_ifs with own
  · simp [own]
  · simp [own]

theorem payments_attested {grant : String} {i : ℕ} {verifier : Bytes} :
    payments id (.attested grant i verifier :: events) = payments id events := by
  unfold payments
  rw [reverse_cons, filterMap_append]
  simp

theorem attesters_paid {grant : String} {i amount : ℕ} {recipient : Bytes} {route : Route} :
    attesters id index (.paid grant i amount recipient route :: events) =
      attesters id index events := by
  unfold attesters
  rw [reverse_cons, filterMap_append]
  simp

theorem attesters_attested {grant : String} {i : ℕ} {verifier : Bytes} :
    attesters id index (.attested grant i verifier :: events) =
      attesters id index events ++ if grant = id ∧ i = index then [verifier] else [] := by
  unfold attesters
  rw [reverse_cons, filterMap_append]
  split_ifs with own
  · simp [own]
  · simp [own]

theorem mem_attesters {verifier : Bytes} :
    verifier ∈ attesters id index events ↔ GrantEvent.attested id index verifier ∈ events := by
  unfold attesters
  rw [mem_filterMap]
  constructor
  · rintro ⟨e, mem, same⟩
    cases e with
    | paid => cases same
    | attested grant i v =>
      simp only at same
      split_ifs at same with own
      obtain rfl := Option.some.inj same
      rw [← own.1, ← own.2]
      exact mem_reverse.1 mem
  · intro mem
    exact ⟨_, mem_reverse.2 mem, by simp⟩

theorem Justified.congr {issued issued' : String → Option Issued} (justified : Justified issued events)
    (same : ∀ e ∈ events, issued' e.grant = issued e.grant) : Justified issued' events := by
  induction events with
  | nil => trivial
  | cons e before ih =>
    have rest := fun h => ih h fun e' mem => same e' (mem_cons_of_mem _ mem)
    cases e with
    | attested grant i verifier => exact rest justified
    | paid grant i amount recipient route =>
      obtain ⟨allowed, justified⟩ := justified
      refine ⟨allowed.imp_right fun ⟨issue, found, allows⟩ => ⟨issue, ?_, allows⟩, rest justified⟩
      rw [← found]
      exact same _ mem_cons_self

end

/-! ### The treasury's outflow -/

/-- The stored period is the last one, and every period kept within its share. -/
structure OutflowKept (params : OutflowParams) (outflows : List Spend) (now : ℤ)
    (period : Option OutflowPeriod) : Prop where
  ordered : outflows.Pairwise fun x y => x.time ≤ y.time
  bounded : ∀ x ∈ outflows, -2 ^ 63 ≤ x.time ∧ x.time ≤ now
  held : ∀ x ∈ outflows, x.held < maxValue 128
  stored : period = (periods params.periodMs outflows).head?.map fun p =>
    ⟨p.1.time, p.1.held, p.total⟩
  capped : ∀ p ∈ periods params.periodMs outflows, p.total ≤ bpsOf p.1.held params.maxPeriodBps

section
variable {params : OutflowParams} {outflows : List Spend} {now time : ℤ}
  {period : Option OutflowPeriod}

theorem OutflowKept.later (kept : OutflowKept params outflows now period) (le : now ≤ time) :
    OutflowKept params outflows time period :=
  { kept with bounded := fun x mem => ⟨(kept.bounded x mem).1, (kept.bounded x mem).2.trans le⟩ }

variable [GrantVaults]

theorem outflowPeriod_eq (bounds : params.InBounds) (kept : OutflowKept params outflows now period)
    (late : time < 2 ^ 63 - 1) {balance : Bytes → ℕ} :
    outflowPeriod params balance period time =
      match periods params.periodMs outflows with
      | [] => ⟨time, balanceOf balance TreasuryVaults.treasury, 0⟩
      | p :: _ =>
        if time < p.1.time + params.periodMs then ⟨p.1.time, p.1.held, p.total⟩
        else ⟨time, balanceOf balance TreasuryVaults.treasury, 0⟩ := by
  rw [kept.stored]
  cases built : periods params.periodMs outflows with
  | nil => rfl
  | cons p rest =>
    have listed : p ∈ periods params.periodMs outflows := by
      rw [built]
      exact mem_cons_self
    have mem : p.1 ∈ outflows :=
      SpendPeriods.mem_periods listed (mem_append_right _ (mem_singleton_self _))
    obtain ⟨early, before⟩ := kept.bounded p.1 mem
    have most := bounds.most
    have width : wrapSigned 64 params.periodMs = params.periodMs :=
      wrapSigned_64 (by omega) (by omega)
    have closes : time < clampSigned (p.1.time + wrapSigned 64 params.periodMs) ↔
        time < p.1.time + params.periodMs := by
      rw [width]
      unfold clampSigned
      omega
    unfold outflowPeriod
    simp only [head?_cons, Option.map_some, closes]

theorem OutflowKept.record (bounds : params.InBounds) (kept : OutflowKept params outflows now period)
    (le : now ≤ time) (early : -2 ^ 63 ≤ time) (late : time < 2 ^ 63 - 1)
    {balance : Bytes → ℕ} {amount : ℕ} {p' : OutflowPeriod}
    (held : balanceOf balance TreasuryVaults.treasury < maxValue 128)
    (ran : recordOutflow params balance period time amount = .ok p') :
    OutflowKept params
      (outflows ++ [⟨time, amount, balanceOf balance TreasuryVaults.treasury⟩]) time (some p') := by
  have progress := @outflowPeriod_eq _ _ _ _ _ _ bounds kept late balance
  unfold recordOutflow at ran
  set o : Spend := ⟨time, amount, balanceOf balance TreasuryVaults.treasury⟩
  have times : (outflows ++ [o]).Pairwise fun x y => x.time ≤ y.time := by
    rw [pairwise_append]
    refine ⟨kept.ordered, pairwise_singleton _ _, fun x mem y last => ?_⟩
    obtain rfl := mem_singleton.1 last
    exact (kept.bounded x mem).2.trans le
  have all : ∀ x ∈ outflows ++ [o], -2 ^ 63 ≤ x.time ∧ x.time ≤ time :=
    forall_mem_append.2 ⟨fun x old => ⟨(kept.bounded x old).1, (kept.bounded x old).2.trans le⟩,
      forall_mem_singleton.2 ⟨early, le_rfl⟩⟩
  have below : ∀ x ∈ outflows ++ [o], x.held < maxValue 128 :=
    forall_mem_append.2 ⟨kept.held, forall_mem_singleton.2 held⟩
  have share : ∀ v, bpsOf v params.maxPeriodBps ≤ v := fun v => bpsOf_le bounds.period
  have opens (fresh : count params.periodMs (periods params.periodMs outflows) o =
      (o, []) :: periods params.periodMs outflows)
      (now : outflowPeriod params balance period time =
        ⟨time, balanceOf balance TreasuryVaults.treasury, 0⟩) :
      OutflowKept params (outflows ++ [o]) time (some p') := by
    rw [now] at ran
    obtain ⟨_, within, ran⟩ := bind_ok.1 ran
    obtain rfl := pure_ok.1 ran
    have within := ensure_ok.1 within
    have exact_sum := saturatingAdd_eq (lt_of_le_of_lt (share _) held) within
    have alone : Period.total (o, []) = amount := by
      simp [Period.total, Period.spends, SpendPeriods.total, o]
    rw [exact_sum] at within
    refine ⟨times, all, below, ?_, ?_⟩ <;> rw [SpendPeriods.periods_append, fresh]
    · simp only [head?_cons, Option.map_some, alone, exact_sum, Nat.zero_add]
      rfl
    · refine forall_mem_cons.2 ⟨?_, kept.capped⟩
      rw [alone]
      exact (Nat.zero_add amount).symm.trans_le within
  cases built : periods params.periodMs outflows with
  | nil => exact opens (by rw [built]; rfl) (by rw [progress, built])
  | cons p rest =>
    obtain ⟨first, after⟩ := p
    by_cases open_still : time < first.time + params.periodMs
    · have capped := kept.capped
      rw [progress] at ran
      simp only [built, open_still, if_true] at ran capped
      obtain ⟨_, within, ran⟩ := bind_ok.1 ran
      obtain rfl := pure_ok.1 ran
      have within := ensure_ok.1 within
      have first_mem : first ∈ outflows :=
        SpendPeriods.mem_periods (built ▸ mem_cons_self)
          (mem_append_right _ (mem_singleton_self _))
      have exact_sum := saturatingAdd_eq (lt_of_le_of_lt (share _) (kept.held first first_mem)) within
      have grown : Period.total (first, o :: after) = Period.total (first, after) + amount := by
        simp only [Period.total, Period.spends, SpendPeriods.total, cons_append, map_cons,
          sum_cons, o]
        omega
      rw [exact_sum] at within
      refine ⟨times, all, below, ?_, ?_⟩ <;>
        rw [SpendPeriods.periods_append, built, SpendPeriods.count_cons, if_pos open_still]
      · simp only [head?_cons, Option.map_some, grown, exact_sum]
      · refine forall_mem_cons.2 ⟨?_, fun p mem => capped p (mem_cons_of_mem _ mem)⟩
        rwa [grown]
    · refine opens ?_ ?_
      · rw [built, SpendPeriods.count_cons, if_neg open_still]
      · rw [progress, built]
        exact if_neg open_still

/-! ### One payment -/

section
variable {s s' : FundingLedger} {view : FundingView}

theorem payGrant_ok {recipient : Bytes} {amount : ℕ} {vesting : GrantVesting} {asset : Option String}
    (ran : s.payGrant view recipient amount vesting asset = .ok s') :
    s'.grants = s.grants ∧ s'.milestones = s.milestones ∧
      match asset with
      | some _ => s'.period = s.period
      | none => ∃ p, recordOutflow view.outflow s.balance s.period view.nowMs amount = .ok p ∧
        s'.period = some p ∧ fundingMoveBalance s.balance TreasuryVaults.treasury
          (vesting.schedule.elim recipient fun _ => GrantVaults.escrow) amount = .ok s'.balance := by
  cases asset with
  | some tokenId =>
    obtain ⟨_, -, ran⟩ := bind_ok.1 ran
    obtain rfl := pure_ok.1 ran
    exact ⟨rfl, rfl, rfl⟩
  | none =>
    unfold FundingLedger.payGrant at ran
    obtain ⟨_, -, ran⟩ := bind_ok.1 ran
    obtain ⟨_, -, ran⟩ := bind_ok.1 ran
    obtain ⟨p, counted, ran⟩ := bind_ok.1 ran
    cases plan : vesting.schedule with
    | none =>
      simp only [plan] at ran
      obtain ⟨b, moved, ran⟩ := bind_ok.1 ran
      obtain rfl := pure_ok.1 ran
      exact ⟨rfl, rfl, p, counted, rfl, moved⟩
    | some kind =>
      obtain ⟨kind, cliffMs, durationMs⟩ := kind
      simp only [plan] at ran
      unfold FundingLedger.openVesting at ran
      obtain ⟨b, moved, ran⟩ := bind_ok.1 ran
      obtain rfl := pure_ok.1 ran
      exact ⟨rfl, rfl, p, counted, rfl, moved⟩

theorem payTranche_ok {grantId : String} {g : GrantRecord} {index : ℕ}
    (ran : s.payTranche view grantId g index = .ok s') : ∃ s₁,
      s.payGrant view g.recipient (g.tranches.getD index 0) g.vesting g.asset = .ok s₁ ∧
        s' = s₁.setGrant grantId { g with paid := g.paid + 1 } := by
  unfold FundingLedger.payTranche at ran
  obtain ⟨_, -, ran⟩ := bind_ok.1 ran
  obtain ⟨s₁, paid, ran⟩ := bind_ok.1 ran
  exact ⟨s₁, paid, (pure_ok.1 ran).symm⟩

omit [GrantVaults] in
theorem checkNextTranche_ok {g : GrantRecord} {index : ℕ} {u : Unit}
    (ran : g.checkNextTranche index = .ok u) : index < g.tranches.length ∧ index = g.paid := by
  unfold GrantRecord.checkNextTranche at ran
  obtain ⟨_, inside, ran⟩ := bind_ok.1 ran
  exact ⟨ensure_ok.1 inside, ensure_ok.1 ran⟩

omit [GrantVaults] in
theorem loadGrant_ok {grantId : String} {g : GrantRecord} :
    s.loadGrant grantId = .ok g ↔ s.grants grantId = some g := by
  unfold FundingLedger.loadGrant Staking.refuse
  cases s.grants grantId with
  | none => simp
  | some g' => simp

theorem executeFunding_ok {sender : Bytes} {op : FundingLedger → Except VmError FundingLedger}
    (ran : s.executeFunding view sender op = .ok s') :
    ∃ s₁ b, op s = .ok s₁ ∧ s' = { s₁ with balance := b } := by
  unfold FundingLedger.executeFunding at ran
  obtain ⟨_, -, ran⟩ := bind_ok.1 ran
  obtain ⟨s₁, done, ran⟩ := bind_ok.1 ran
  unfold FundingLedger.chargeTreasury at ran
  obtain ⟨_, -, ran⟩ := bind_ok.1 ran
  exact ⟨s₁, _, done, (pure_ok.1 ran).symm⟩

end

/-! ### The invariant -/

/-- What one grant's records say of its events. -/
structure GrantKept (h : GrantHistory) (id : String) : Prop where
  unissued : h.issued id = none → h.ledger.grants id = none ∧
    (∀ index, h.ledger.milestones id index = none) ∧ ∀ e ∈ h.events, e.grant ≠ id
  issued : ∀ i, h.issued id = some i → ∃ k, k ≤ i.schedule.length ∧
    payments id h.events = i.paidUpTo k ∧ ∀ g, h.ledger.grants id = some g →
      g.recipient = i.recipient ∧ g.tranches = i.schedule ∧ g.release = i.release ∧ g.paid = k
  recorded : ∀ index, ((h.ledger.milestones id index).getD {}).verifiers =
    (attesters id index h.events).map hexEncode ∧ (attesters id index h.events).Nodup
  verified : ∀ index i verifiers threshold, h.issued id = some i →
    i.release = .scheduled verifiers threshold →
      (∀ v ∈ attesters id index h.events, v ∈ verifiers) ∧
      (((h.ledger.milestones id index).getD {}).verifiedMs ≠ none →
        threshold ≤ (attesters id index h.events).length)

structure Kept (h : GrantHistory) : Prop where
  grants : ∀ id, GrantKept h id
  justified : Justified h.issued h.events

def GrantHistory.Counted (params : OutflowParams) (h : GrantHistory) : Prop :=
  OutflowKept params h.outflows h.now h.ledger.period

theorem GrantHistory.Counted.spend {h : GrantHistory} (bounds : params.InBounds)
    (counted : h.Counted params) {call : FundingCall} (steady : Steady params h call)
    {recipient : Bytes} {amount : ℕ} {vesting : GrantVesting} {asset : Option String}
    {s₁ : FundingLedger}
    (ran : h.ledger.payGrant call.view recipient amount vesting asset = .ok s₁) :
    OutflowKept params (h.spend call.view asset amount) call.view.nowMs s₁.period := by
  obtain ⟨-, -, paid⟩ := payGrant_ok ran
  cases asset with
  | some tokenId =>
    simp only at paid
    rw [paid]
    exact OutflowKept.later counted steady.time
  | none =>
    obtain ⟨p, recorded, stored, -⟩ := paid
    rw [steady.constant] at recorded
    rw [stored]
    exact OutflowKept.record bounds counted steady.time steady.early steady.late steady.held recorded

end

end Tenzro.Grants
