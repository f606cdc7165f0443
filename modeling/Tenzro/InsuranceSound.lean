import Tenzro.Insurance
import Tenzro.StakingSlash

set_option autoImplicit false
set_option linter.dupNamespace false

/-!
# Insurance claims over whole runs

A payment is what one claim took. Other transactions move balances, change what governance and the
validators set, store new mismatches and close epochs in between.
-/
namespace Tenzro.Insurance
open ByteCodec FixedWidth Outcome NativeBalance List Function
open Staking (VmError checkedAdd addOverflow bump bpsShare)
open Settlement (ReconMismatch Route)
open Book (SumsTo)

/-- A paid claim with what it was paid under. -/
structure Payment where
  claim : InsuranceClaim
  view : InsuranceView
  held : ℕ

def Payment.key (p : Payment) : Route × ℕ := p.claim.evidence.mismatch

structure InsuranceWorld where
  state : InsuranceState
  view : InsuranceView
  payments : List Payment

inductive InsuranceEvent where
  | claim (call : InsuranceCall)
  /-- A credit to the pool is recorded. -/
  | credit (amount : ℕ) (source : PoolSource)
  /-- Other transactions move balances. -/
  | ledger (balance nonce : Bytes → ℕ)
  /-- Governed values, rates, the pool's assets, a freeze or the time change. -/
  | govern (view : InsuranceView)
  /-- A reconciliation stores a mismatch at a position not judged before. -/
  | mismatch (m : ReconMismatch)
  | nextEpoch

def paidIn (epoch : ℕ) (l : List Payment) : ℕ :=
  ((l.filter (fun p => p.view.currentEpoch = epoch)).map (fun p => p.claim.paid)).sum

theorem paidIn_append (epoch : ℕ) (l : List Payment) (p : Payment) :
    paidIn epoch (l ++ [p]) =
      paidIn epoch l + if p.view.currentEpoch = epoch then p.claim.paid else 0 := by
  unfold paidIn
  rw [filter_append, map_append, sum_append, filter_singleton]
  by_cases same : p.view.currentEpoch = epoch
  · simp [same]
  · simp [same]

theorem bpsShare_eq (amount bps : ℕ) : bpsShare amount bps = amount * min bps 10000 / 10000 := by
  unfold bpsShare Staking.shareOfLots Staking.shareOfRest
  have split := Nat.div_add_mod amount 10000
  calc amount / 10000 * min bps 10000 + amount % 10000 * min bps 10000 / 10000
      = (amount % 10000 * min bps 10000 + 10000 * (amount / 10000 * min bps 10000)) / 10000 := by
        rw [Nat.add_mul_div_left _ _ (by decide), Nat.add_comm]
    _ = (10000 * (amount / 10000) + amount % 10000) * min bps 10000 / 10000 := by
        congr 1
        ring
    _ = amount * min bps 10000 / 10000 := by rw [split]

theorem InsuranceView.claimCap_le_share (view : InsuranceView) (pool : ℕ) :
    view.claimCap pool * max view.rateNanoUsd 1 ≤
      view.valueE6AtSafety pool * min view.maxClaimBps 10000 / 10000 * 1000 * weiPerTnzo := by
  have pays : view.claimCap pool ≤ bpsShare (view.valueE6AtSafety pool) (min view.maxClaimBps 10000)
      * 1000 * weiPerTnzo / max view.rateNanoUsd 1 :=
    (min_le_left _ _).trans (min_le_left _ _)
  rw [bpsShare_eq, min_assoc, min_self] at pays
  exact (Nat.mul_le_mul_right _ pays).trans (Nat.div_mul_le_self _ _)

theorem InsuranceView.claimCap_le_abs (view : InsuranceView) (pool : ℕ) :
    view.claimCap pool ≤ view.maxClaimTnzo * weiPerTnzo :=
  (min_le_right _ _).trans (min_le_left _ _)

theorem InsuranceView.epochCeiling_fits (view : InsuranceView) :
    view.epochCeiling ≤ maxValue 128 := min_le_right _ _

namespace InsuranceState
variable [InsuranceNames] {view : InsuranceView} {s s' : InsuranceState} {call : InsuranceCall}
  {claim : InsuranceClaim}

/-- The balances once the sender paid for its gas. -/
def charged (s : InsuranceState) (call : InsuranceCall) : Bytes → ℕ :=
  setBalance s.balance call.sender
    (balanceOf s.balance call.sender - saturatingMul 128 call.gasPrice gasPayInsuranceClaim)

def poolBehind (s : InsuranceState) (call : InsuranceCall) : ℕ :=
  balanceOf (s.charged call) InsuranceNames.pool

theorem chargeGas_ok (ran : s.chargeGas call = .ok s') :
    saturatingMul 128 call.gasPrice gasPayInsuranceClaim ≤ balanceOf s.balance call.sender ∧
      s' = { s with balance := s.charged call } := by
  obtain ⟨_, enough, ran⟩ := bind_ok.1 ran
  exact ⟨ensure_ok.1 enough, (pure_ok.1 ran).symm⟩

theorem payClaim_ok {sender : Bytes} (ran : s.payClaim view sender claim = .ok s') :
    let debited := setBalance s.balance InsuranceNames.pool
      (balanceOf s.balance InsuranceNames.pool - claim.paid)
    s' = { s with
      balance := setBalance debited sender (balanceOf debited sender + claim.paid)
      nonce := update s.nonce sender (s.nonce sender + 1)
      claims := update s.claims claim.claimId (some claim)
      claimIds := s.claimIds ++ [claim.claimId]
      paidEpoch := some ⟨view.currentEpoch, saturatingAdd 128 (s.readEpochPaid view) claim.paid⟩
      totals := { s.totals with
        claimsPaid := s.totals.claimsPaid + 1
        totalPaid := saturatingAdd 128 s.totals.totalPaid claim.paid } } := by
  obtain ⟨after, received, ran⟩ := bind_ok.1 ran
  obtain ⟨claimsPaid, counted, ran⟩ := bind_ok.1 ran
  obtain ⟨nonce, spent, ran⟩ := bind_ok.1 ran
  unfold checkedAdd at received
  unfold bump at counted spent
  split_ifs at received counted spent
  rw [← pure_ok.1 ran, ← Except.ok.inj received, ← Except.ok.inj counted, ← Except.ok.inj spent]
  rfl

/-- What a claim that goes through met and did. -/
structure Paid (view : InsuranceView) (s : InsuranceState) (call : InsuranceCall)
    (s' : InsuranceState) (claim : InsuranceClaim) : Prop where
  submitted : call.payload = .ok claim.evidence
  id : claim.claimId = InsuranceNames.claimId claim.evidence
  unpaid : s.claims claim.claimId = none
  claimant : claim.claimant = call.sender
  affords : saturatingMul 128 call.gasPrice gasPayInsuranceClaim ≤ balanceOf s.balance call.sender
  proves : s.proveLoss claim.evidence = .ok (call.sender, claim.loss)
  amount : claim.paid = min (min (min claim.loss (view.claimCap (s.poolBehind call)))
    (view.epochCeiling - s.readEpochPaid view)) (s.poolBehind call)
  positive : 0 < claim.paid
  balance : s'.balance = moved (s.charged call) (AccountNames.account InsuranceNames.pool)
    (AccountNames.account call.sender) claim.paid
  mismatches : s'.mismatches = s.mismatches
  claims : s'.claims = update s.claims claim.claimId (some claim)
  paidEpoch : s'.paidEpoch =
    some ⟨view.currentEpoch, saturatingAdd 128 (s.readEpochPaid view) claim.paid⟩

theorem execute_ok (ran : s.executePayInsuranceClaim view call = .ok (s', claim)) :
    Paid view s call s' claim := by
  unfold executePayInsuranceClaim at ran
  simp only [bind_ok] at ran
  obtain ⟨_, _, evidence, parsed, _, unpaid, after, gas, ⟨owedTo, loss⟩, proves, _, named, _, _,
    _, some', final, paid, ran⟩ := ran
  obtain ⟨rfl, rfl⟩ := Prod.ext_iff.1 (pure_ok.1 ran)
  obtain ⟨affords, rfl⟩ := chargeGas_ok gas
  have submitted : call.payload = .ok evidence := by
    cases given : call.payload with
    | error e =>
      rw [given] at parsed
      cases parsed
    | ok e =>
      rw [given] at parsed
      cases parsed
      rfl
  obtain rfl : owedTo = call.sender := ensure_ok.1 named
  have whole := payClaim_ok paid
  simp only at whole
  refine ⟨submitted, rfl, ensure_ok.1 unpaid, rfl, affords, proves, rfl,
    Nat.pos_of_ne_zero (ensure_ok.1 some'), ?_, ?_, ?_, ?_⟩
  · rw [whole]
    rfl
  · rw [whole]
  · rw [whole]
  · rw [whole]
    rfl

omit [InsuranceNames] in
theorem proveLoss_ok {evidence : InsuranceEvidence} {owedTo : Bytes} {loss : ℕ}
    (ran : s.proveLoss evidence = .ok (owedTo, loss)) :
    ∃ m, s.mismatches evidence.mismatch.1 evidence.mismatch.2 = some m ∧
      m.harmed = some owedTo ∧ m.loss = loss := by
  unfold proveLoss at ran
  split at ran
  · cases ran
  next m stored =>
    split at ran
    · cases ran
    split at ran
    · cases ran
    next harmed named =>
      split at ran
      · cases ran
      · obtain ⟨rfl, rfl⟩ := Prod.ext_iff.1 (Except.ok.inj ran)
        exact ⟨m, stored, named, rfl⟩

namespace Paid
variable (h : Paid view s call s' claim)
include h

theorem paid_le_loss : claim.paid ≤ claim.loss := by
  have amount := h.amount
  omega

theorem paid_le_cap : claim.paid ≤ view.claimCap (s.poolBehind call) := by
  have amount := h.amount
  omega

theorem paid_le_pool : claim.paid ≤ s.poolBehind call := by
  have amount := h.amount
  omega

theorem within_ceiling : s.readEpochPaid view + claim.paid ≤ view.epochCeiling := by
  have amount := h.amount
  have positive := h.positive
  omega

theorem counts : s'.readEpochPaid view = s.readEpochPaid view + claim.paid := by
  have counted : s'.readEpochPaid view = saturatingAdd 128 (s.readEpochPaid view) claim.paid := by
    conv_lhs => unfold readEpochPaid
    rw [h.paidEpoch, Option.filter_some, if_pos (by simp)]
    rfl
  rw [counted]
  exact min_eq_left (h.within_ceiling.trans view.epochCeiling_fits)

theorem moves (other : AccountNames.account call.sender ≠ AccountNames.account InsuranceNames.pool) :
    balanceOf s'.balance InsuranceNames.pool + claim.paid = s.poolBehind call ∧
      balanceOf s'.balance call.sender = balanceOf (s.charged call) call.sender + claim.paid ∧
      ∀ a, a ≠ AccountNames.account InsuranceNames.pool → a ≠ AccountNames.account call.sender →
        s'.balance a = s.charged call a := by
  have covered := h.paid_le_pool
  unfold balanceOf
  rw [h.balance]
  refine ⟨?_, moved_dest other, fun a source dest => moved_of_ne source dest⟩
  rw [moved_source other]
  exact Nat.sub_add_cancel covered

end Paid

theorem sumsTo_charged {total : ℕ} (sums : SumsTo s.balance total) :
    ∃ left ≤ total, SumsTo (s.charged call) left := by
  have held := sums.le (AccountNames.account call.sender)
  refine ⟨total - balanceOf s.balance call.sender + (balanceOf s.balance call.sender -
    saturatingMul 128 call.gasPrice gasPayInsuranceClaim), ?_, sums.update ?_⟩
  · unfold balanceOf
    omega
  · unfold balanceOf
    omega

theorem payClaim_fits {sender : Bytes} {total : ℕ} (sums : SumsTo s.balance total)
    (fits : total ≤ maxValue 128) (covered : claim.paid ≤ balanceOf s.balance InsuranceNames.pool)
    (counted : s.totals.claimsPaid < maxValue 64) (nonce : s.nonce sender < maxValue 64) :
    ∃ s', s.payClaim view sender claim = .ok s' := by
  have after : moved s.balance _ (AccountNames.account sender) claim.paid
      (AccountNames.account sender) ≤ total := (sumsTo_moved sums covered).le _
  unfold moved at after
  rw [update_self] at after
  refine ⟨_, bind_ok.2 ⟨_, if_pos (after.trans fits), bind_ok.2 ⟨_, if_pos counted,
    bind_ok.2 ⟨_, if_pos nonce, rfl⟩⟩⟩⟩

theorem execute_no_overflow {total : ℕ} (sums : SumsTo s.balance total)
    (fits : total ≤ maxValue 128) (counted : s.totals.claimsPaid < maxValue 64)
    (nonce : s.nonce call.sender < maxValue 64) :
    s.executePayInsuranceClaim view call ≠ .error addOverflow := by
  intro ran
  unfold executePayInsuranceClaim addOverflow at ran
  rcases bind_error.1 ran with stop | ⟨_, _, ran⟩
  · unfold InsuranceView.requireUnfrozen at stop
    split at stop <;> cases stop
  rcases bind_error.1 ran with stop | ⟨evidence, _, ran⟩
  · cases given : call.payload with
    | error e =>
      rw [given] at stop
      cases stop
    | ok e =>
      rw [given] at stop
      cases stop
  rcases bind_error.1 ran with stop | ⟨_, _, ran⟩
  · cases (ensure_error.1 stop).2
  rcases bind_error.1 ran with stop | ⟨after, gas, ran⟩
  · rcases bind_error.1 stop with stop | ⟨_, _, stop⟩
    · cases (ensure_error.1 stop).2
    · cases stop
  obtain ⟨-, rfl⟩ := chargeGas_ok gas
  rcases bind_error.1 ran with stop | ⟨⟨owedTo, loss⟩, _, ran⟩
  · unfold proveLoss at stop
    split at stop
    · cases stop
    · split at stop
      · cases stop
      · split at stop
        · cases stop
        · split at stop <;> cases stop
  rcases bind_error.1 ran with stop | ⟨_, _, ran⟩
  · cases (ensure_error.1 stop).2
  rcases bind_error.1 ran with stop | ⟨_, _, ran⟩
  · cases (ensure_error.1 stop).2
  rcases bind_error.1 ran with stop | ⟨_, _, ran⟩
  · cases (ensure_error.1 stop).2
  rcases bind_error.1 ran with stop | ⟨_, _, ran⟩
  · obtain ⟨left, less, (within : SumsTo (s.charged call) left)⟩ := sumsTo_charged sums
    obtain ⟨s', paid⟩ : ∃ s', payClaim view { s with balance := s.charged call } call.sender
        ⟨InsuranceNames.claimId evidence, call.sender, evidence, loss,
          payable view { s with balance := s.charged call } loss, view.nowMs⟩ = .ok s' :=
      payClaim_fits within (less.trans fits) (min_le_right _ _) counted nonce
    rw [paid] at stop
    cases stop
  · cases ran

end InsuranceState

namespace InsuranceWorld
variable [InsuranceNames]

def start (balance nonce : Bytes → ℕ) (mismatches : Route → ℕ → Option ReconMismatch)
    (view : InsuranceView) : InsuranceWorld where
  state := ⟨balance, nonce, mismatches, fun _ => none, [], none, ⟨0, 0, 0, 0⟩⟩
  view := view
  payments := []

def paymentOf (w : InsuranceWorld) (call : InsuranceCall) (claim : InsuranceClaim) : Payment :=
  ⟨claim, w.view, w.state.poolBehind call⟩

def apply (w : InsuranceWorld) : InsuranceEvent → InsuranceWorld
  | .claim call =>
    match w.state.executePayInsuranceClaim w.view call with
    | .error _ => w
    | .ok (state, claim) =>
      { w with
        state := state
        payments := w.payments ++ [w.paymentOf call claim] }
  | .credit amount source => { w with state := w.state.noteCredit amount source }
  | .ledger balance nonce => { w with state := { w.state with balance, nonce } }
  | .govern view => { w with view := { view with currentEpoch := w.view.currentEpoch } }
  | .mismatch m =>
    if (w.state.mismatches m.route m.position).isSome then w
    else { w with state := { w.state with
      mismatches := Settlement.writeMismatch w.state.mismatches m } }
  | .nextEpoch => { w with view := { w.view with currentEpoch := w.view.currentEpoch + 1 } }

def run (w : InsuranceWorld) (events : List InsuranceEvent) : InsuranceWorld := events.foldl apply w

/-- What a claim must meet. Every paid claim on the mismatch was submitted in the same spelling, the
balances together fit their width, and neither counter is full. -/
structure Meets (w : InsuranceWorld) (call : InsuranceCall) : Prop where
  spelled : ∀ evidence, call.payload = .ok evidence → ∀ p ∈ w.payments,
    p.key = evidence.mismatch → p.claim.evidence = evidence
  supply : ∃ total ≤ maxValue 128, SumsTo w.state.balance total
  counted : w.state.totals.claimsPaid < maxValue 64
  nonce : w.state.nonce call.sender < maxValue 64

def Meeting (w : InsuranceWorld) (events : List InsuranceEvent) : Prop :=
  ∀ pre call post, events = pre ++ InsuranceEvent.claim call :: post → (w.run pre).Meets call

structure Kept (w : InsuranceWorld) : Prop where
  recorded : ∀ p ∈ w.payments,
    w.state.claims (InsuranceNames.claimId p.claim.evidence) = some p.claim
  distinct : (w.payments.map Payment.key).Nodup
  owed : ∀ p ∈ w.payments, ∃ m, w.state.mismatches p.key.1 p.key.2 = some m ∧
    m.harmed = some p.claim.claimant ∧ p.claim.paid ≤ m.loss
  capped : ∀ p ∈ w.payments, p.claim.paid ≤ p.view.claimCap p.held
  past : ∀ p ∈ w.payments, p.view.currentEpoch ≤ w.view.currentEpoch
  latest : ∀ r, w.state.paidEpoch = some r → r.epoch ≤ w.view.currentEpoch
  counter : w.state.readEpochPaid w.view = paidIn w.view.currentEpoch w.payments
  ceiling : ∀ epoch B, (∀ p ∈ w.payments, p.view.currentEpoch = epoch → p.view.epochCeiling ≤ B) →
    paidIn epoch w.payments ≤ B

variable {w : InsuranceWorld} {call : InsuranceCall} {s : InsuranceState}
  {claim : InsuranceClaim}

theorem kept_start (balance nonce : Bytes → ℕ) (mismatches : Route → ℕ → Option ReconMismatch)
    (view : InsuranceView) : (start balance nonce mismatches view).Kept where
  recorded := by simp [start]
  distinct := nodup_nil
  owed := by simp [start]
  capped := by simp [start]
  past := by simp [start]
  latest := by simp [start]
  counter := rfl
  ceiling := fun _ _ _ => Nat.zero_le _

theorem Kept.fresh (kept : w.Kept) (paid : InsuranceState.Paid w.view w.state call s claim)
    (meets : w.Meets call) : ∀ p ∈ w.payments, p.key ≠ claim.evidence.mismatch := by
  intro p mem same
  have spelled := meets.spelled _ paid.submitted p mem same
  have stored := kept.recorded p mem
  rw [spelled, ← paid.id, paid.unpaid] at stored
  cases stored

theorem Kept.ceiling_claim (kept : w.Kept)
    (paid : InsuranceState.Paid w.view w.state call s claim) {epoch B : ℕ}
    (bound : ∀ p ∈ w.payments ++ [w.paymentOf call claim],
      p.view.currentEpoch = epoch → p.view.epochCeiling ≤ B) :
    paidIn epoch (w.payments ++ [w.paymentOf call claim]) ≤ B := by
  rw [paidIn_append]
  by_cases now : (w.paymentOf call claim).view.currentEpoch = epoch
  · rw [if_pos now]
    have within := paid.within_ceiling
    rw [kept.counter] at within
    have due := bound _ (by simp) now
    obtain rfl : w.view.currentEpoch = epoch := now
    exact within.trans due
  · rw [if_neg now]
    exact kept.ceiling epoch B fun p mem => bound p (mem_append_left _ mem)

theorem apply_refused {e : VmError}
    (ran : w.state.executePayInsuranceClaim w.view call = .error e) :
    w.apply (.claim call) = w := by
  simp only [apply, ran]

theorem apply_paid (ran : w.state.executePayInsuranceClaim w.view call = .ok (s, claim)) :
    w.apply (.claim call) = ⟨s, w.view, w.payments ++ [w.paymentOf call claim]⟩ := by
  simp only [apply, ran]

theorem Kept.applyClaim (kept : w.Kept) (meets : w.Meets call) : (w.apply (.claim call)).Kept := by
  cases ran : w.state.executePayInsuranceClaim w.view call with
  | error e =>
    rw [apply_refused ran]
    exact kept
  | ok result =>
    obtain ⟨s, claim⟩ := result
    rw [apply_paid ran]
    have paid := InsuranceState.execute_ok ran
    have fresh := kept.fresh paid meets
    constructor
    · intro p mem
      show s.claims _ = _
      rw [paid.claims]
      rcases mem_append.1 mem with old | new
      · have stored := kept.recorded p old
        have other : InsuranceNames.claimId p.claim.evidence ≠ claim.claimId := by
          intro same
          rw [same, paid.unpaid] at stored
          cases stored
        rw [update_of_ne other]
        exact stored
      · obtain rfl := mem_singleton.1 new
        show update w.state.claims _ _ (InsuranceNames.claimId claim.evidence) = some claim
        rw [← paid.id, update_self]
    · show ((w.payments ++ [w.paymentOf call claim]).map Payment.key).Nodup
      rw [map_append, map_singleton, nodup_append]
      refine ⟨kept.distinct, nodup_singleton _, fun key old key' new same => ?_⟩
      obtain ⟨p, mem, rfl⟩ := mem_map.1 old
      obtain rfl := mem_singleton.1 new
      exact fresh p mem same
    · intro p mem
      show ∃ m, s.mismatches _ _ = _ ∧ _
      rw [paid.mismatches]
      rcases mem_append.1 mem with old | new
      · exact kept.owed p old
      · obtain rfl := mem_singleton.1 new
        obtain ⟨m, stored, harmed, loss⟩ := InsuranceState.proveLoss_ok paid.proves
        refine ⟨m, stored, harmed.trans (congrArg some paid.claimant.symm), ?_⟩
        rw [loss]
        exact paid.paid_le_loss
    · intro p mem
      rcases mem_append.1 mem with old | new
      · exact kept.capped p old
      · obtain rfl := mem_singleton.1 new
        exact paid.paid_le_cap
    · intro p mem
      rcases mem_append.1 mem with old | new
      · exact kept.past p old
      · obtain rfl := mem_singleton.1 new
        exact le_rfl
    · intro r stored
      obtain rfl := Option.some.inj (paid.paidEpoch.symm.trans stored)
      exact le_rfl
    · show s.readEpochPaid w.view = paidIn _ (w.payments ++ [w.paymentOf call claim])
      rw [paid.counts, kept.counter, paidIn_append]
      exact congrArg _ (if_pos rfl).symm
    · exact fun epoch B bound => kept.ceiling_claim paid bound

theorem Kept.paidIn_next (kept : w.Kept) : paidIn (w.view.currentEpoch + 1) w.payments = 0 := by
  unfold paidIn
  rw [filter_eq_nil_iff.2 fun p mem => ?_]
  · rfl
  · have past := kept.past p mem
    simp only [decide_eq_true_eq]
    omega

theorem Kept.nextEpoch (kept : w.Kept) : (w.apply .nextEpoch).Kept where
  recorded := kept.recorded
  distinct := kept.distinct
  owed := kept.owed
  capped := kept.capped
  past p mem := (kept.past p mem).trans (Nat.le_succ _)
  latest r stored := (kept.latest r stored).trans (Nat.le_succ _)
  counter := by
    show w.state.readEpochPaid { w.view with currentEpoch := w.view.currentEpoch + 1 } = _
    refine Eq.trans ?_ kept.paidIn_next.symm
    unfold InsuranceState.readEpochPaid
    cases stored : w.state.paidEpoch with
    | none => rfl
    | some r =>
      have past := kept.latest r stored
      rw [Option.filter_some, if_neg (by simp only [decide_eq_true_eq]; omega)]
      rfl
  ceiling := kept.ceiling

theorem Kept.mismatch (kept : w.Kept) (m : ReconMismatch) : (w.apply (.mismatch m)).Kept := by
  by_cases judged : (w.state.mismatches m.route m.position).isSome
  · rw [show w.apply (.mismatch m) = w from if_pos judged]
    exact kept
  · rw [show w.apply (.mismatch m) = _ from if_neg judged]
    refine { kept with owed := fun p mem => ?_ }
    obtain ⟨m', stored, named⟩ := kept.owed p mem
    refine ⟨m', ?_, named⟩
    show Settlement.writeMismatch w.state.mismatches m _ _ = _
    rw [← stored]
    unfold Settlement.writeMismatch
    by_cases route : p.key.1 = m.route
    · rw [route, update_self]
      refine update_of_ne (fun position => judged ?_) _ _
      rw [← route, ← position, stored]
      rfl
    · rw [update_of_ne route]

theorem Kept.apply (kept : w.Kept) (event : InsuranceEvent)
    (meets : ∀ call, event = .claim call → w.Meets call) : (w.apply event).Kept := by
  cases event with
  | claim call => exact kept.applyClaim (meets call rfl)
  | credit amount source =>
    by_cases nothing : amount = 0
    · rw [show w.apply (.credit amount source) = w by
        show { w with state := w.state.noteCredit amount source } = w
        exact congrArg (fun s => { w with state := s }) (if_pos nothing)]
      exact kept
    · rw [show w.apply (.credit amount source) = { w with state := _ } from
        congrArg (fun s => { w with state := s }) (if_neg nothing)]
      cases source
      · exact { kept with }
      · exact { kept with }
  | ledger balance nonce => exact { kept with }
  | govern view => exact { kept with }
  | mismatch m => exact kept.mismatch m
  | nextEpoch => exact kept.nextEpoch

theorem Kept.run {events : List InsuranceEvent} :
    ∀ {w : InsuranceWorld}, w.Kept → w.Meeting events → (w.run events).Kept := by
  induction events with
  | nil => exact fun kept _ => kept
  | cons event events ih =>
    intro w kept meeting
    refine ih (kept.apply event fun call claims => ?_) fun pre call post split => ?_
    · exact meeting [] call events (by rw [claims]; rfl)
    · exact meeting (event :: pre) call post (by rw [split]; rfl)

/-- What one claim does with the balances: nobody's overflow, and the pool loses what the claimant
gains once it paid for its gas. -/
def Exact (w : InsuranceWorld) (call : InsuranceCall) : Prop :=
  w.state.executePayInsuranceClaim w.view call ≠ .error addOverflow ∧
  ∀ s claim, w.state.executePayInsuranceClaim w.view call = .ok (s, claim) →
    AccountNames.account call.sender ≠ AccountNames.account InsuranceNames.pool →
      balanceOf s.balance InsuranceNames.pool + claim.paid = w.state.poolBehind call ∧
      balanceOf s.balance call.sender =
        balanceOf (w.state.charged call) call.sender + claim.paid ∧
      ∀ a, a ≠ AccountNames.account InsuranceNames.pool → a ≠ AccountNames.account call.sender →
        s.balance a = w.state.charged call a

theorem Meets.exact (meets : w.Meets call) : w.Exact call := by
  obtain ⟨total, fits, sums⟩ := meets.supply
  exact ⟨InsuranceState.execute_no_overflow sums fits meets.counted meets.nonce,
    fun s claim ran => (InsuranceState.execute_ok ran).moves⟩

/-- What the pool paid over a run, and what the next claim does. -/
structure Fair (w : InsuranceWorld) : Prop where
  once : (w.payments.map Payment.key).Nodup
  owed : ∀ p ∈ w.payments, ∃ m, w.state.mismatches p.key.1 p.key.2 = some m ∧
    m.harmed = some p.claim.claimant ∧ p.claim.paid ≤ m.loss
  share : ∀ p ∈ w.payments, p.claim.paid * max p.view.rateNanoUsd 1 ≤
    p.view.valueE6AtSafety p.held * min p.view.maxClaimBps 10000 / 10000 * 1000 * weiPerTnzo
  abs : ∀ p ∈ w.payments, p.claim.paid ≤ p.view.maxClaimTnzo * weiPerTnzo
  ceiling : ∀ epoch B, (∀ p ∈ w.payments, p.view.currentEpoch = epoch → p.view.epochCeiling ≤ B) →
    paidIn epoch w.payments ≤ B
  exact : ∀ call, w.Meets call → w.Exact call

theorem Kept.fair (kept : w.Kept) : w.Fair where
  once := kept.distinct
  owed := kept.owed
  share p mem := (Nat.mul_le_mul_right _ (kept.capped p mem)).trans (p.view.claimCap_le_share p.held)
  abs p mem := (kept.capped p mem).trans (p.view.claimCap_le_abs p.held)
  ceiling := kept.ceiling
  exact _ := Meets.exact

/-- While no mismatch is claimed in two spellings, the pool pays each loss once, to the account it is
owed to and within the caps. -/
theorem insurance_fair {balance nonce : Bytes → ℕ}
    {mismatches : Route → ℕ → Option ReconMismatch} {view : InsuranceView}
    {events : List InsuranceEvent}
    (meeting : (start balance nonce mismatches view).Meeting events) :
    ((start balance nonce mismatches view).run events).Fair :=
  ((kept_start balance nonce mismatches view).run meeting).fair

end InsuranceWorld

/-! ### A mismatch claimed in two spellings -/

namespace TwoSpellings
open InsuranceWorld

/-- Identifiers that keep the spelling of a chain, as the hash of the evidence does. -/
local instance names : InsuranceNames where
  account := id
  pool := [1]
  claimId
    | .reconMismatch _ chain position => chain.toList.map (fun c => UInt8.ofNat c.toNat) ++
        [UInt8.ofNat position]

def harmed : Bytes := [2]

def lost : ReconMismatch :=
  ⟨(.contract, "base"), 1, ProofVerifiers.empty,
    ⟨ProofVerifiers.empty, ProofVerifiers.empty, .released, 100⟩, "released without the plan's commit", [], [3], 0, true,
    some harmed, 100⟩

def view : InsuranceView := ⟨none, 10000, 1, 1, 10 ^ 9, 10 ^ 9, [], 0, 0⟩

def claimOf (chain : String) : InsuranceEvent :=
  .claim ⟨harmed, 0, .ok (.reconMismatch .contract chain 1)⟩

def opened : InsuranceWorld :=
  start (update (fun _ => 0) [1] (10 ^ 18)) (fun _ => 0) (fun _ _ => none) view

def spellings : List InsuranceEvent := [.mismatch lost, claimOf "base", claimOf "Base"]

theorem spellings_run :
    ((opened.run spellings).payments.map fun p => (p.claim.paid, p.key)) =
      [(100, (.contract, "base"), 1), (100, (.contract, "base"), 1)] := by decide

/-- A loss of 100 is paid twice. -/
theorem paid_in_two_spellings : ¬ (opened.run spellings).Fair := by
  intro fair
  have once := fair.once
  have run := congrArg (List.map Prod.snd) spellings_run
  rw [map_map] at run
  rw [show List.map Payment.key _ = _ from run] at once
  exact absurd once (by decide)

theorem opened_sums : SumsTo opened.state.balance (10 ^ 18) := Book.SumsTo.zero.update (by rfl)

theorem spellings_meeting : opened.Meeting (spellings.take 2) := by
  rintro (_ | ⟨first, _ | ⟨_, pre⟩⟩) call post split
  · cases split
  · obtain ⟨rfl, claimed⟩ := List.cons.inj split
    obtain ⟨call_eq, _⟩ := List.cons.inj claimed
    obtain rfl := InsuranceEvent.claim.inj call_eq
    exact ⟨nofun, ⟨10 ^ 18, by decide, opened_sums⟩, by decide, by decide⟩
  · have length := congrArg List.length split
    simp [spellings] at length

theorem fair_in_one_spelling : (opened.run (spellings.take 2)).Fair ∧
    ((opened.run (spellings.take 2)).payments.map fun p => p.claim.paid) = [100] :=
  ⟨insurance_fair spellings_meeting, by decide⟩

end TwoSpellings

end Tenzro.Insurance
