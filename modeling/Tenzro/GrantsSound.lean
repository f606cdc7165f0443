import Tenzro.GrantsRuns

set_option autoImplicit false
set_option linter.dupNamespace false

/-!
# Grants pay what was approved

Each tranche once, in order, once its milestone was attested or its release enacted, and within the
treasury's outflow period.
-/
namespace Tenzro.Grants
open FixedWidth Outcome NativeBalance Treasury List Function
open Staking (VmError)
open BalanceMovers (fundingMoveBalance)
open ByteCodec (hexEncode hexEncode_injective)
open SpendPeriods (Spend Period periods)

section
variable {params : OutflowParams} {h : GrantHistory} {call : FundingCall} {id : String}

theorem payments_nil {events : List GrantEvent} (absent : ∀ e ∈ events, e.grant ≠ id) :
    payments id events = [] := by
  unfold payments
  rw [filterMap_eq_nil_iff]
  intro e mem
  have other := absent e (mem_reverse.1 mem)
  cases e with
  | paid grant i amount recipient route => exact if_neg other
  | attested grant i verifier => rfl

theorem attesters_nil {events : List GrantEvent} {index : ℕ} (absent : ∀ e ∈ events, e.grant ≠ id) :
    attesters id index events = [] := by
  unfold attesters
  rw [filterMap_eq_nil_iff]
  intro e mem
  have other := absent e (mem_reverse.1 mem)
  cases e with
  | paid grant i amount recipient route => rfl
  | attested grant i verifier => exact if_neg fun own => other own.1

theorem Issued.paidUpTo_succ {i : Issued} {k : ℕ} :
    i.paidUpTo (k + 1) = i.paidUpTo k ++ [(k, i.schedule.getD k 0, i.recipient)] := by
  unfold Issued.paidUpTo
  rw [range_succ, map_append]
  rfl

theorem GrantKept.issued_of_record {g : GrantRecord} (kept : GrantKept h id)
    (found : h.ledger.grants id = some g) : ∃ i, h.issued id = some i := by
  cases issue : h.issued id with
  | none =>
    rw [(kept.unissued issue).1] at found
    cases found
  | some i => exact ⟨i, rfl⟩

theorem GrantKept.frame {h' : GrantHistory} {e : GrantEvent} (kept : GrantKept h id)
    (events : h'.events = e :: h.events) (other : id ≠ e.grant) (issued : h'.issued id = h.issued id)
    (grants : h'.ledger.grants id = h.ledger.grants id)
    (milestones : h'.ledger.milestones id = h.ledger.milestones id) : GrantKept h' id := by
  have paid : payments id h'.events = payments id h.events := by
    rw [events]
    cases e with
    | paid grant =>
      have apart : grant ≠ id := other.symm
      rw [payments_paid, if_neg apart, append_nil]
    | attested => exact payments_attested
  have attested (j : ℕ) : attesters id j h'.events = attesters id j h.events := by
    rw [events]
    cases e with
    | paid => exact attesters_paid
    | attested => rw [attesters_attested, if_neg fun own => other own.1.symm, append_nil]
  constructor
  · intro none_yet
    obtain ⟨no_record, no_milestone, no_event⟩ := kept.unissued (issued ▸ none_yet)
    rw [grants, milestones, events]
    exact ⟨no_record, no_milestone, forall_mem_cons.2 ⟨other.symm, no_event⟩⟩
  · rw [issued, grants, paid]
    exact kept.issued
  · intro j
    rw [milestones, attested]
    exact kept.recorded j
  · intro j
    rw [milestones, attested, issued]
    exact kept.verified j

variable [GrantVaults]

theorem released_eq {view : FundingView} {s' : FundingLedger} {index : ℕ} {route : Route}
    {g : GrantRecord} (found : h.ledger.grants id = some g) :
    h.released view s' id index route = { h with
      ledger := s'
      now := view.nowMs
      events := .paid id index (g.tranches.getD index 0) g.recipient route :: h.events
      outflows := h.spend view g.asset (g.tranches.getD index 0) } := by
  unfold GrantHistory.released
  rw [found]

theorem Kept.released (kept : Kept h) {view : FundingView} {g : GrantRecord} {index : ℕ}
    {route : Route} {s₁ : FundingLedger} {b : Bytes → ℕ} (found : h.ledger.grants id = some g)
    (next : index < g.tranches.length ∧ index = g.paid)
    (ran : h.ledger.payTranche view id g index = .ok s₁)
    (allowed : ∀ i, h.issued id = some i → i.Allows id index route h.events) :
    Kept (h.released view { s₁ with balance := b } id index route) := by
  obtain ⟨s₂, paid, rfl⟩ := payTranche_ok ran
  obtain ⟨grants, milestones, -⟩ := payGrant_ok paid
  obtain ⟨i, issue⟩ := (kept.grants id).issued_of_record found
  rw [released_eq found]
  refine ⟨fun id' => ?_, .inr ⟨i, issue, allowed i issue⟩, kept.justified⟩
  have old := kept.grants id'
  by_cases own : id' = id
  · subst own
    constructor
    · intro none_yet
      rw [issue] at none_yet
      cases none_yet
    · intro i' issue'
      obtain ⟨k, within, paid_so_far, record⟩ := old.issued i' issue'
      obtain ⟨recipient, tranches, release, count⟩ := record g found
      have here : index = k := next.2.trans count
      refine ⟨k + 1, ?_, ?_, ?_⟩
      · rw [← tranches]
        omega
      · change payments id' (.paid id' index _ _ route :: h.events) = _
        rw [payments_paid, if_pos rfl, paid_so_far, Issued.paidUpTo_succ, here, tranches, recipient]
      · intro g' stored
        change update s₂.grants id' _ id' = some g' at stored
        rw [update_self] at stored
        obtain rfl := Option.some.inj stored
        exact ⟨recipient, tranches, release, congrArg (· + 1) count⟩
    · intro j
      change ((s₂.milestones id' j).getD {}).verifiers =
        (attesters id' j (.paid id' index _ _ route :: h.events)).map hexEncode ∧ _
      rw [milestones, attesters_paid]
      exact old.recorded j
    · intro j i' verifiers threshold issue' release
      change (∀ v ∈ attesters id' j (.paid id' index _ _ route :: h.events), v ∈ verifiers) ∧
        (((s₂.milestones id' j).getD {}).verifiedMs ≠ none →
          threshold ≤ (attesters id' j (.paid id' index _ _ route :: h.events)).length)
      rw [milestones, attesters_paid]
      exact old.verified j i' verifiers threshold issue' release
  · refine old.frame rfl own rfl ?_ (congrFun milestones id')
    change update s₂.grants id _ id' = _
    rw [update_of_ne own, grants]

theorem Kept.enactTrancheRelease (kept : Kept h) {view : FundingView} {grantId : String}
    {index : ℕ} {s' : FundingLedger}
    (ran : h.ledger.enactTrancheRelease view grantId index = .ok s') :
    Kept (h.released view s' grantId index .release) := by
  unfold FundingLedger.enactTrancheRelease at ran
  obtain ⟨g, found, ran⟩ := bind_ok.1 ran
  obtain ⟨_, governed, ran⟩ := bind_ok.1 ran
  obtain ⟨_, next, paid⟩ := bind_ok.1 ran
  have found := loadGrant_ok.1 found
  have governed : g.release = .governed := ensure_ok.1 governed
  refine kept.released found (checkNextTranche_ok next) paid ?_
  intro i issue
  obtain ⟨k, -, -, record⟩ := (kept.grants grantId).issued i issue
  obtain ⟨-, -, release, -⟩ := record g found
  unfold Issued.Allows
  rw [← release, governed]

theorem releaseMilestone_terms {s s' : FundingLedger} {view : FundingView} {index : ℕ}
    (ran : s.releaseMilestone view id index = .ok s') :
    ∃ g record, s.grants id = some g ∧ g.release ≠ .governed ∧
      (index < g.tranches.length ∧ index = g.paid) ∧ s.milestones id index = some record ∧
        record.verifiedMs ≠ none ∧ s.payTranche view id g index = .ok s' := by
  unfold FundingLedger.releaseMilestone at ran
  obtain ⟨g, found, ran⟩ := bind_ok.1 ran
  obtain ⟨_, scheduled, ran⟩ := bind_ok.1 ran
  obtain ⟨_, next, ran⟩ := bind_ok.1 ran
  cases milestone : s.milestones id index with
  | none =>
    simp only [milestone, Staking.refuse] at ran
    cases ran
  | some record =>
    simp only [milestone] at ran
    obtain ⟨_, verified, paid⟩ := bind_ok.1 ran
    exact ⟨g, record, loadGrant_ok.1 found, ensure_ok.1 scheduled, checkNextTranche_ok next, rfl,
      ensure_ok.1 verified, paid⟩

theorem Kept.releaseMilestone (kept : Kept h) {view : FundingView} {grantId : String}
    {index : ℕ} {s₁ : FundingLedger} {b : Bytes → ℕ}
    (ran : h.ledger.releaseMilestone view grantId index = .ok s₁) :
    Kept (h.released view { s₁ with balance := b } grantId index .milestone) := by
  obtain ⟨g, record, found, scheduled, next, milestone, verified, paid⟩ :=
    releaseMilestone_terms ran
  refine kept.released found next paid ?_
  intro i issue
  obtain ⟨k, -, -, stored⟩ := (kept.grants grantId).issued i issue
  obtain ⟨-, -, release, -⟩ := stored g found
  unfold Issued.Allows
  cases terms : i.release with
  | governed => exact absurd (release.trans terms) scheduled
  | scheduled verifiers threshold =>
    obtain ⟨named, enough⟩ :=
      (kept.grants grantId).verified index i verifiers threshold issue terms
    refine ⟨rfl, attesters grantId index h.events, ((kept.grants grantId).recorded index).2,
      enough ?_, fun v mem => ⟨named v mem, mem_attesters.1 mem⟩⟩
    rw [milestone]
    exact verified

theorem apply_enactGrant {view : FundingView} {recipient : Bytes} {amount : ℕ}
    {tranches : List ℕ} {milestones : List String} {vesting : GrantVesting}
    {asset : Option String} {release : GrantRelease} {s' : FundingLedger}
    (ran : h.ledger.enactGrant view id recipient amount tranches milestones vesting asset
      release = .ok s') :
    h.apply (.enactGrant view id recipient amount tranches milestones vesting asset release) =
      { h with
        ledger := s'
        now := view.nowMs
        issued := update h.issued id
          (some ⟨recipient, if tranches = [] then [amount] else tranches, release⟩)
        events := .paid id 0 (tranches.headD amount) recipient .approval :: h.events
        outflows := h.spend view asset (tranches.headD amount) } := by
  unfold GrantHistory.apply
  simp only [ran]

theorem enactGrant_ok {s s' : FundingLedger} {view : FundingView} {recipient : Bytes}
    {amount : ℕ} {tranches : List ℕ} {milestones : List String} {vesting : GrantVesting}
    {asset : Option String} {release : GrantRelease}
    (ran : s.enactGrant view id recipient amount tranches milestones vesting asset release =
      .ok s') :
    ∃ s₁, s.payGrant view recipient (tranches.headD amount) vesting asset = .ok s₁ ∧
      (if tranches = [] then s₁
       else s₁.setGrant id ⟨recipient, tranches, milestones, 1, vesting, asset, release⟩) =
        s' := by
  unfold FundingLedger.enactGrant at ran
  obtain ⟨_, -, ran⟩ := bind_ok.1 ran
  obtain ⟨_, -, ran⟩ := bind_ok.1 ran
  cases asset with
  | none =>
    simp only at ran
    obtain ⟨_, -, ran⟩ := bind_ok.1 ran
    obtain ⟨s₁, paid, ran⟩ := bind_ok.1 ran
    refine ⟨s₁, paid, ?_⟩
    split_ifs at ran ⊢ <;> exact pure_ok.1 ran
  | some tokenId =>
    simp only at ran
    obtain ⟨_, -, ran⟩ := bind_ok.1 ran
    obtain ⟨s₁, paid, ran⟩ := bind_ok.1 ran
    refine ⟨s₁, paid, ?_⟩
    split_ifs at ran ⊢ <;> exact pure_ok.1 ran

theorem Kept.enactGrant (kept : Kept h) (fresh : h.issued id = none) {view : FundingView}
    {recipient : Bytes} {amount : ℕ} {tranches : List ℕ} {milestones : List String}
    {vesting : GrantVesting} {asset : Option String} {release : GrantRelease}
    {s' : FundingLedger} (ran : h.ledger.enactGrant view id recipient amount tranches milestones
      vesting asset release = .ok s') :
    Kept (h.apply
      (.enactGrant view id recipient amount tranches milestones vesting asset release)) := by
  obtain ⟨no_record, no_milestone, no_event⟩ := (kept.grants id).unissued fresh
  rw [apply_enactGrant ran]
  obtain ⟨s₁, paid, recorded⟩ := enactGrant_ok ran
  obtain ⟨grants, milestone_records, -⟩ := payGrant_ok paid
  have records : s'.milestones = h.ledger.milestones ∧
      (∀ other, other ≠ id → s'.grants other = h.ledger.grants other) ∧
      ∀ g, s'.grants id = some g → g.recipient = recipient ∧
        g.tranches = (if tranches = [] then [amount] else tranches) ∧ g.release = release ∧
          g.paid = 1 := by
    rw [← recorded]
    split_ifs with single
    · refine ⟨milestone_records, fun other _ => by rw [grants], fun g stored => ?_⟩
      rw [grants, no_record] at stored
      cases stored
    · refine ⟨milestone_records, fun other apart => ?_, fun g stored => ?_⟩
      · change update s₁.grants id _ other = _
        rw [update_of_ne apart, grants]
      · change update s₁.grants id _ id = some g at stored
        rw [update_self] at stored
        obtain rfl := Option.some.inj stored
        exact ⟨rfl, rfl, rfl, rfl⟩
  obtain ⟨milestones_same, others, own⟩ := records
  refine ⟨fun id' => ?_, .inl rfl, ?_⟩
  · by_cases this : id' = id
    · subst this
      constructor
      · intro issue
        change update h.issued id' _ id' = none at issue
        rw [update_self] at issue
        cases issue
      · intro i issue
        change update h.issued id' _ id' = some i at issue
        rw [update_self] at issue
        obtain rfl := Option.some.inj issue
        refine ⟨1, ?_, ?_, own⟩
        · simp only
          split_ifs with single
          · exact le_rfl
          · exact length_pos_of_ne_nil single
        · change payments id' (.paid id' 0 _ _ .approval :: h.events) = _
          rw [payments_paid, if_pos rfl, payments_nil no_event]
          cases tranches with
          | nil => rfl
          | cons first rest => rfl
      · intro j
        change ((s'.milestones id' j).getD {}).verifiers =
          (attesters id' j (.paid id' 0 _ _ .approval :: h.events)).map hexEncode ∧ _
        rw [milestones_same, attesters_paid]
        exact (kept.grants id').recorded j
      · intro j i verifiers threshold _ _
        change (∀ v ∈ attesters id' j (.paid id' 0 _ _ .approval :: h.events), v ∈ verifiers) ∧
          (((s'.milestones id' j).getD {}).verifiedMs ≠ none → _)
        rw [milestones_same, no_milestone, attesters_paid, attesters_nil no_event]
        exact ⟨fun v mem => absurd mem (not_mem_nil), fun set => absurd rfl set⟩
    · exact (kept.grants id').frame rfl this (update_of_ne this _ _) (others id' this)
        (congrFun milestones_same id')
  · exact kept.justified.congr fun e mem => update_of_ne (no_event e mem) _ _

def FundingLedger.setMilestone (s : FundingLedger) (grantId : String) (index : ℕ)
    (r : MilestoneRecord) : FundingLedger :=
  let own := update (s.milestones grantId) index (some r)
  { s with milestones := update s.milestones grantId own }

omit [GrantVaults] in
theorem verifyMilestone_ok {s s' : FundingLedger} {view : FundingView} {verifier : Bytes}
    {index : ℕ} {evidence : String}
    (ran : s.verifyMilestone view verifier id index evidence = .ok s') :
    ∃ g verifiers threshold, s.grants id = some g ∧ g.release = .scheduled verifiers threshold ∧
      verifier ∈ verifiers ∧ hexEncode verifier ∉ ((s.milestones id index).getD {}).verifiers ∧
      ∃ r : MilestoneRecord, s' = s.setMilestone id index r ∧
        r.verifiers = ((s.milestones id index).getD {}).verifiers ++ [hexEncode verifier] ∧
        (r.verifiedMs ≠ none → ((s.milestones id index).getD {}).verifiedMs ≠ none ∨
          threshold ≤ r.verifiers.length) := by
  unfold FundingLedger.verifyMilestone at ran
  obtain ⟨g, found, ran⟩ := bind_ok.1 ran
  cases terms : g.release with
  | governed =>
    simp only [terms, Staking.refuse] at ran
    cases ran
  | scheduled verifiers threshold =>
    simp only [terms] at ran
    simp only [bind_ok] at ran
    obtain ⟨_, named, _, -, _, -, _, fresh, ran⟩ := ran
    refine ⟨g, verifiers, threshold, loadGrant_ok.1 found, terms, ensure_ok.1 named,
      ensure_ok.1 fresh, _, (pure_ok.1 ran).symm, rfl, ?_⟩
    simp only
    split_ifs with reached
    · exact fun _ => .inr reached.2
    · exact .inl

omit [GrantVaults] in
theorem Kept.verifyMilestone (kept : Kept h) {view : FundingView} {verifier : Bytes}
    {index : ℕ} {evidence : String} {s₁ : FundingLedger} {b : Bytes → ℕ}
    (ran : h.ledger.verifyMilestone view verifier id index evidence = .ok s₁) :
    Kept { h with
      ledger := { s₁ with balance := b }
      now := view.nowMs
      events := .attested id index verifier :: h.events } := by
  obtain ⟨g, verifiers, threshold, found, terms, named, fresh, r, rfl, listed, verified⟩ :=
    verifyMilestone_ok ran
  obtain ⟨i, issue⟩ := (kept.grants id).issued_of_record found
  refine ⟨fun id' => ?_, kept.justified⟩
  have old := kept.grants id'
  by_cases this : id' = id
  · subst this
    constructor
    · intro none_yet
      rw [issue] at none_yet
      cases none_yet
    · intro i' issue'
      obtain ⟨k, within, so_far, record⟩ := old.issued i' issue'
      refine ⟨k, within, ?_, record⟩
      change payments id' (.attested id' index verifier :: h.events) = _
      rw [payments_attested]
      exact so_far
    · intro j
      obtain ⟨recorded, once⟩ := old.recorded j
      change ((update h.ledger.milestones id' _ id' j).getD {}).verifiers =
        (attesters id' j (.attested id' index verifier :: h.events)).map hexEncode ∧
          (attesters id' j (.attested id' index verifier :: h.events)).Nodup
      rw [update_self, attesters_attested]
      by_cases here : index = j
      · subst here
        rw [update_self, if_pos ⟨rfl, rfl⟩]
        refine ⟨?_, nodup_append.2 ⟨once, nodup_singleton _, ?_⟩⟩
        · rw [map_append, ← recorded]
          exact listed
        · intro v mem w last same
          obtain rfl := mem_singleton.1 last
          rw [recorded] at fresh
          exact fresh (mem_map_of_mem (same ▸ mem))
      · rw [update_of_ne (Ne.symm here), if_neg (by simp [here]), append_nil]
        exact ⟨recorded, once⟩
    · intro j i' verifiers' threshold' issue' terms'
      obtain ⟨recorded, once⟩ := old.recorded j
      obtain ⟨all_named, enough⟩ := old.verified j i' verifiers' threshold' issue' terms'
      obtain ⟨k, -, -, record⟩ := old.issued i' issue'
      obtain ⟨-, -, release, -⟩ := record g found
      rw [terms, terms'] at release
      cases release
      change (∀ v ∈ attesters id' j (.attested id' index verifier :: h.events), v ∈ verifiers) ∧
        (((update h.ledger.milestones id' _ id' j).getD {}).verifiedMs ≠ none →
          threshold ≤ (attesters id' j (.attested id' index verifier :: h.events)).length)
      rw [update_self, attesters_attested]
      by_cases here : index = j
      · subst here
        rw [update_self, if_pos ⟨rfl, rfl⟩]
        refine ⟨fun v mem => ?_, fun set => ?_⟩
        · rcases mem_append.1 mem with before | last
          · exact all_named v before
          · obtain rfl := mem_singleton.1 last
            exact named
        · rcases verified set with before | reached
          · rw [length_append]
            exact (enough before).trans (Nat.le_add_right _ _)
          · rw [listed, recorded, length_append, length_map] at reached
            rw [length_append]
            exact reached
      · rw [update_of_ne (Ne.symm here), if_neg (by simp [here]), append_nil]
        exact ⟨all_named, enough⟩
  · exact old.frame rfl this rfl rfl (update_of_ne this _ _)

omit [GrantVaults] in
theorem Kept.balance (kept : Kept h) {b : Bytes → ℕ} {period : Option OutflowPeriod} {time : ℤ}
    {outflows : List Spend} :
    Kept { h with ledger := { h.ledger with balance := b, period }, now := time, outflows } :=
  ⟨fun id => ⟨(kept.grants id).unissued, (kept.grants id).issued, (kept.grants id).recorded,
    (kept.grants id).verified⟩, kept.justified⟩

theorem Kept.apply (kept : Kept h) (fresh : Fresh h call) : Kept (h.apply call) := by
  cases call with
  | enactGrant view proposalId recipient amount tranches milestones vesting asset release =>
    cases ran : h.ledger.enactGrant view proposalId recipient amount tranches milestones vesting
        asset release with
    | ok s' => exact kept.enactGrant fresh ran
    | error e =>
      unfold GrantHistory.apply
      simp only [ran]
      exact kept.balance
  | enactTrancheRelease view grantId index =>
    unfold GrantHistory.apply
    simp only
    cases ran : h.ledger.enactTrancheRelease view grantId index with
    | ok s' => exact kept.enactTrancheRelease ran
    | error e => exact kept.balance
  | verifyMilestone view sender grantId index evidence =>
    unfold GrantHistory.apply
    simp only
    split
    · next s' ran =>
      obtain ⟨s₁, b, attested, rfl⟩ := executeFunding_ok ran
      exact kept.verifyMilestone attested
    · exact kept.balance
  | releaseMilestone view sender grantId index =>
    unfold GrantHistory.apply
    simp only
    split
    · next s' ran =>
      obtain ⟨s₁, b, paid, rfl⟩ := executeFunding_ok ran
      exact kept.releaseMilestone paid
    · exact kept.balance
  | outflow view amount balance =>
    unfold GrantHistory.apply
    simp only
    split
    · exact kept.balance
    · exact kept.balance
  | other view balance => exact kept.balance

theorem Kept.run {calls : List FundingCall} (kept : Kept h) (fresh : Along Fresh h calls) :
    Kept (run h calls) := by
  induction calls generalizing h with
  | nil => exact kept
  | cons call rest ih => exact ih (kept.apply fresh.1) fresh.2

/-! ### The counted payments -/

theorem GrantHistory.Counted.released (bounds : params.InBounds) (counted : h.Counted params)
    (steady : Steady params h call) {g : GrantRecord} {index : ℕ} {route : Route}
    {s₁ : FundingLedger} {b : Bytes → ℕ} (found : h.ledger.grants id = some g)
    (ran : h.ledger.payTranche call.view id g index = .ok s₁) :
    (h.released call.view { s₁ with balance := b } id index route).Counted params := by
  obtain ⟨s₂, paid, rfl⟩ := payTranche_ok ran
  rw [released_eq found]
  have spent := counted.spend bounds steady paid
  exact spent

theorem GrantHistory.Counted.apply (bounds : params.InBounds) (counted : h.Counted params)
    (steady : Steady params h call) : (h.apply call).Counted params := by
  have idle : ({ h with now := call.view.nowMs } : GrantHistory).Counted params :=
    OutflowKept.later counted steady.time
  cases call with
  | enactGrant view proposalId recipient amount tranches milestones vesting asset release =>
    cases ran : h.ledger.enactGrant view proposalId recipient amount tranches milestones vesting
        asset release with
    | ok s' =>
      rw [apply_enactGrant ran]
      obtain ⟨s₁, paid, rfl⟩ := enactGrant_ok ran
      have spent := counted.spend bounds steady paid
      split_ifs
      · exact spent
      · exact spent
    | error e =>
      unfold GrantHistory.apply
      simp only [ran]
      exact idle
  | enactTrancheRelease view grantId index =>
    unfold GrantHistory.apply
    simp only
    cases ran : h.ledger.enactTrancheRelease view grantId index with
    | ok s' =>
      unfold FundingLedger.enactTrancheRelease at ran
      obtain ⟨g, found, ran⟩ := bind_ok.1 ran
      obtain ⟨_, -, ran⟩ := bind_ok.1 ran
      obtain ⟨_, -, paid⟩ := bind_ok.1 ran
      exact counted.released bounds steady (loadGrant_ok.1 found) paid
    | error e => exact idle
  | verifyMilestone view sender grantId index evidence =>
    unfold GrantHistory.apply
    simp only
    split
    · next s' ran =>
      obtain ⟨s₁, b, attested, rfl⟩ := executeFunding_ok ran
      obtain ⟨-, -, -, -, -, -, -, -, rfl, -⟩ := verifyMilestone_ok attested
      exact idle
    · exact idle
  | releaseMilestone view sender grantId index =>
    unfold GrantHistory.apply
    simp only
    split
    · next s' ran =>
      obtain ⟨s₁, b, released, rfl⟩ := executeFunding_ok ran
      obtain ⟨g, -, found, -, -, -, -, paid⟩ := releaseMilestone_terms released
      exact counted.released bounds steady found paid
    · exact idle
  | outflow view amount balance =>
    unfold GrantHistory.apply
    simp only
    cases ran : recordOutflow view.outflow h.ledger.balance h.ledger.period view.nowMs amount with
    | error e => exact idle
    | ok period =>
      have constant : view.outflow = params := steady.constant
      rw [constant] at ran
      exact OutflowKept.record bounds counted steady.time steady.early steady.late steady.held ran
  | other view balance => exact idle

theorem GrantHistory.Counted.run (bounds : params.InBounds) {calls : List FundingCall}
    (counted : h.Counted params) (steady : Along (Steady params) h calls) :
    (Grants.run h calls).Counted params := by
  induction calls generalizing h with
  | nil => exact counted
  | cons call rest ih => exact ih (counted.apply bounds steady.1) steady.2

/-! ### Every run -/

def GrantHistory.empty (balance : Bytes → ℕ) (vesting : Bytes → List VestingSchedule) (now : ℤ) :
    GrantHistory :=
  ⟨⟨balance, none, fun _ => none, fun _ _ => none, vesting⟩, now, fun _ => none, [], []⟩

omit [GrantVaults] in
theorem kept_empty (balance : Bytes → ℕ) (vesting : Bytes → List VestingSchedule) (now : ℤ) :
    Kept (.empty balance vesting now) where
  grants id := by
    refine ⟨fun _ => ⟨rfl, fun _ => rfl, fun e mem => absurd mem (not_mem_nil)⟩,
      fun i issue => ?_, fun index => ⟨rfl, nodup_nil⟩,
      fun index i verifiers threshold issue _ => ?_⟩
    · cases issue
    · cases issue
  justified := trivial

omit [GrantVaults] in
theorem counted_empty (balance : Bytes → ℕ) (vesting : Bytes → List VestingSchedule) (now : ℤ) :
    (GrantHistory.empty balance vesting now).Counted params :=
  ⟨List.Pairwise.nil, fun _ mem => absurd mem (not_mem_nil),
    fun _ mem => absurd mem (not_mem_nil), rfl, fun _ mem => absurd mem (not_mem_nil)⟩

theorem payment_made {index amount : ℕ} {recipient : Bytes} {route : Route}
    (recorded : (h.apply call).events = .paid id index amount recipient route :: h.events) :
    ∃ vesting asset s', h.ledger.payGrant call.view recipient amount vesting asset = .ok s' := by
  have idle : ∀ e : GrantEvent, h.events ≠ e :: h.events := fun e same => by
    have longer := congrArg List.length same
    rw [length_cons] at longer
    omega
  have release : ∀ {view : FundingView} {s₁ s₂ : FundingLedger} {grantId : String} {g : GrantRecord}
      {i : ℕ} {r : Route}, h.ledger.grants grantId = some g →
      h.ledger.payTranche view grantId g i = .ok s₁ →
      (h.released view s₂ grantId i r).events =
        .paid id index amount recipient route :: h.events →
        ∃ vesting asset s', h.ledger.payGrant view recipient amount vesting asset = .ok s' := by
    intro view s₁ s₂ grantId g i r found paid same
    obtain ⟨s', made, -⟩ := payTranche_ok paid
    rw [released_eq found] at same
    cases (List.cons.inj same).1
    exact ⟨_, _, s', made⟩
  cases call with
  | enactGrant view proposalId grantee whole tranches milestones vesting asset terms =>
    cases ran : h.ledger.enactGrant view proposalId grantee whole tranches milestones vesting
        asset terms with
    | ok s' =>
      obtain ⟨s₁, paid, -⟩ := enactGrant_ok ran
      rw [apply_enactGrant ran] at recorded
      cases (List.cons.inj recorded).1
      exact ⟨vesting, asset, s₁, paid⟩
    | error e =>
      unfold GrantHistory.apply at recorded
      simp only [ran] at recorded
      exact absurd recorded (idle _)
  | enactTrancheRelease view grantId i =>
    unfold GrantHistory.apply at recorded
    simp only at recorded
    cases ran : h.ledger.enactTrancheRelease view grantId i with
    | ok s' =>
      rw [ran] at recorded
      unfold FundingLedger.enactTrancheRelease at ran
      obtain ⟨g, found, ran⟩ := bind_ok.1 ran
      obtain ⟨_, -, ran⟩ := bind_ok.1 ran
      obtain ⟨_, -, paid⟩ := bind_ok.1 ran
      exact release (loadGrant_ok.1 found) paid recorded
    | error e =>
      rw [ran] at recorded
      exact absurd recorded (idle _)
  | verifyMilestone view sender grantId i evidence =>
    unfold GrantHistory.apply at recorded
    simp only at recorded
    split at recorded
    · cases (List.cons.inj recorded).1
    · exact absurd recorded (idle _)
  | releaseMilestone view sender grantId i =>
    unfold GrantHistory.apply at recorded
    simp only at recorded
    split at recorded
    · next s' ran =>
      obtain ⟨s₁, b, released, rfl⟩ := executeFunding_ok ran
      obtain ⟨g, -, found, -, -, -, -, paid⟩ := releaseMilestone_terms released
      exact release found paid recorded
    · exact absurd recorded (idle _)
  | outflow view whole balance =>
    unfold GrantHistory.apply at recorded
    simp only at recorded
    split at recorded
    · exact absurd recorded (idle _)
    · exact absurd recorded (idle _)
  | other view balance => exact absurd recorded (idle _)

structure Sound (h : GrantHistory) : Prop where
  /-- Under each grant a first part of its schedule was paid, in order, to its recipient. -/
  inOrder : ∀ id i, h.issued id = some i → ∃ k ≤ i.schedule.length,
    payments id h.events = i.paidUpTo k
  approved : ∀ id, h.issued id = none → payments id h.events = []
  total : ∀ id i, h.issued id = some i →
    ((payments id h.events).map fun p => p.2.1).sum ≤ i.schedule.sum
  /-- A later tranche had the attestations it needs, or an enacted release, behind it. -/
  justified : Justified h.issued h.events
  /-- A call that records a payment made it, one in TNZO out of the treasury. -/
  delivered : ∀ call id index amount recipient route,
    (h.apply call).events = .paid id index amount recipient route :: h.events →
      ∃ vesting asset s', h.ledger.payGrant call.view recipient amount vesting asset = .ok s' ∧
        (asset = none → fundingMoveBalance h.ledger.balance TreasuryVaults.treasury
          (vesting.schedule.elim recipient fun _ => GrantVaults.escrow) amount = .ok s'.balance)

/-- What holds of the counted payments after every run under constant parameters. -/
structure WithinPeriods (params : OutflowParams) (h : GrantHistory) : Prop where
  /-- Every outflow period stays within the share of what its first payment found. -/
  period : ∀ p ∈ periods params.periodMs h.outflows,
    p.total ≤ bpsOf p.1.held params.maxPeriodBps
  /-- So does every span shorter than a period, within twice the largest share. -/
  span : ∀ (start finish : ℤ) (m : ℕ), finish - start < params.periodMs →
    (∀ p ∈ periods params.periodMs h.outflows,
      (∃ x ∈ p.spends, start ≤ x.time ∧ x.time ≤ finish) →
        bpsOf p.1.held params.maxPeriodBps ≤ m) →
      SpendPeriods.total (h.outflows.filter fun x => start ≤ x.time ∧ x.time ≤ finish) ≤ 2 * m

omit [GrantVaults] in
theorem sum_take_le (l : List ℕ) (k : ℕ) :
    ((range k).map fun j => l.getD j 0).sum ≤ l.sum := by
  induction l generalizing k with
  | nil =>
    refine (sum_eq_zero fun n mem => ?_).le
    obtain ⟨j, -, rfl⟩ := mem_map.1 mem
    exact getD_nil
  | cons a l ih =>
    cases k with
    | zero => exact Nat.zero_le _
    | succ k =>
      rw [range_succ_eq_map, map_cons, sum_cons, map_map, sum_cons]
      exact Nat.add_le_add_left (ih k) a

theorem Kept.sound (kept : Kept h) : Sound h where
  inOrder id i issue := by
    obtain ⟨k, within, paid, -⟩ := (kept.grants id).issued i issue
    exact ⟨k, within, paid⟩
  approved id none_yet := payments_nil ((kept.grants id).unissued none_yet).2.2
  total id i issue := by
    obtain ⟨k, within, paid, -⟩ := (kept.grants id).issued i issue
    rw [paid]
    unfold Issued.paidUpTo
    rw [map_map]
    exact sum_take_le i.schedule k
  justified := kept.justified
  delivered call id index amount recipient route recorded := by
    obtain ⟨vesting, asset, s', paid⟩ := payment_made recorded
    refine ⟨vesting, asset, s', paid, ?_⟩
    rintro rfl
    obtain ⟨-, -, p, -, -, moved⟩ := payGrant_ok paid
    exact moved

omit [GrantVaults] in
theorem GrantHistory.Counted.within (bounds : params.InBounds) (counted : h.Counted params) :
    WithinPeriods params h where
  period := counted.capped
  span start finish m short most := by
    have positive : (0 : ℤ) < params.periodMs := by
      have least := bounds.least
      omega
    exact SpendPeriods.span_le positive counted.ordered short fun p mem meets =>
      (counted.capped p mem).trans (most p mem meets)

end

/-! ### One grant -/

@[reducible] def plainVaults : GrantVaults where
  account := id
  treasury := [7]
  reserve := [8]
  apart := by decide
  escrow := [9]

attribute [local instance] plainVaults

def grantView : FundingView where
  nowMs := 1000
  gasCost := 1
  outflow := ⟨300, 300, 30 * 24 * 60 * 60 * 1000⟩
  reserveTarget := 100
  grantFloorBps := 5000
  approvedGrantee _ := .ok ()
  grantCaps _ _ := .ok ()
  commitGrantStable _ _ := .ok ()
  payGrantStable _ _ _ := .ok ()
  liveIdentity _ := .ok ()

def fundedVaults (a : Bytes) : ℕ := if a = [7] then 100000 else if a = [8] then 50 else 0

/-- The second tranche waits for both verifiers; what comes too early fails. -/
def grantCalls : List FundingCall :=
  [.enactGrant grantView "spring" [1] 1000 [400, 600] ["kernel"] .liquid none
      (.scheduled [[2], [3]] 2),
    .verifyMilestone grantView [2] "spring" 1 "report",
    .releaseMilestone grantView [1] "spring" 1,
    .verifyMilestone grantView [3] "spring" 1 "report",
    .releaseMilestone grantView [1] "spring" 1,
    .releaseMilestone grantView [1] "spring" 1]

end Tenzro.Grants
