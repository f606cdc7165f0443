import Tenzro.TreasuryReserve

set_option autoImplicit false
set_option linter.dupNamespace false

/-!
# Runs of the running-cost reserve

Revenue noted, payments queued and boundaries, in any order, with epochs that never go back.
-/
namespace Tenzro.Treasury
open FixedWidth Outcome NativeBalance List Function Option
open Staking (VmError)
open Book (SumsTo)

/-! ### What one boundary does -/

theorem gets_le_spent (payouts : List (ℕ × ℕ)) (t : ℕ) : gets payouts t ≤ spent payouts := by
  induction payouts with
  | nil => exact le_rfl
  | cons p rest ih =>
    unfold gets spent at ih ⊢
    simp only [map_cons, sum_cons]
    split_ifs
    all_goals omega

namespace ReserveLedger
variable {s : ReserveLedger} {epoch : ℕ}

theorem prune_book {prior : Option ℕ} : (s.prune prior epoch).book = s.book := by
  unfold prune
  split <;> rfl

theorem prune_queue {prior : Option ℕ} : (s.prune prior epoch).queue = s.queue ∧
    (s.prune prior epoch).tickets = s.tickets := by
  unfold prune
  split <;> exact ⟨rfl, rfl⟩

theorem prune_readFlows {prior : Option ℕ} {e : ℕ} (near : epoch ≤ e + maxScanEpochs) :
    (s.prune prior epoch).readFlows e = s.readFlows e := by
  unfold prune
  split
  · rfl
  · unfold readFlows
    simp only
    rw [if_neg (by omega)]

theorem forall₂_tickets {made : List (ℕ × ℕ)} {l l' : List QueuedPayment}
    (each : Forall₂ (PaidFrom made) l l') :
    l'.map QueuedPayment.ticket = l.map QueuedPayment.ticket := by
  induction each with
  | nil => rfl
  | cons head _ ih => rw [map_cons, map_cons, ih, head.ticket]

theorem forall₂_mem {made : List (ℕ × ℕ)} {l l' : List QueuedPayment}
    (each : Forall₂ (PaidFrom made) l l') :
    (∀ q' ∈ l', ∃ q ∈ l, PaidFrom made q q') ∧ ∀ q ∈ l, gets made q.ticket ≤ q.remaining := by
  induction each with
  | nil => simp
  | @cons q q' _ _ head _ ih =>
    have part := head.remaining
    constructor
    · intro r' mem
      rcases mem_cons.1 mem with rfl | mem
      · exact ⟨q, mem_cons_self, head⟩
      · obtain ⟨r, here, paid⟩ := ih.1 r' mem
        exact ⟨r, mem_cons_of_mem _ here, paid⟩
    · intro r mem
      rcases mem_cons.1 mem with rfl | mem
      · omega
      · exact ih.2 r mem

end ReserveLedger

section
variable [TreasuryVaults] {view : ReserveView}

/-- A boundary that was not passed before. -/
structure BoundaryDone (view : ReserveView) (s s' : ReserveLedger) (epoch : ℕ) (tick : ReserveTick) :
    Prop where
  fresh : ∀ e, s.book.epoch = some e → e < epoch
  reached : s'.book.epoch = some epoch
  tickets : s'.tickets = s.tickets
  kept : (s'.queue.map QueuedPayment.ticket).Sublist (s.queue.map QueuedPayment.ticket)
  queue : ∀ q' ∈ s'.queue, ∃ q ∈ s.queue, PaidFrom tick.payouts q q'
  due : ∀ p ∈ tick.payouts, ∃ q ∈ s.queue, q.ticket = p.1 ∧ epoch < q.expiresEpoch
  within : ∀ q ∈ s.queue, gets tick.payouts q.ticket ≤ q.remaining
  payout : tick.payout = spent tick.payouts
  planned : tick.payout ≤ (s.plan view epoch).payout
  fill : tick.fill = (s.plan view epoch).fill
  flows : ∀ e, epoch ≤ e + maxScanEpochs → s'.readFlows e =
    if e = epoch ∧ 0 < tick.payout then { s.readFlows e with
      paid := saturatingAdd 128 (s.readFlows e).paid tick.payout }
    else s.readFlows e

namespace ReserveLedger
variable {s s' : ReserveLedger} {epoch : ℕ} {tick : ReserveTick}

theorem beginBlock_done (once : (s.queue.map QueuedPayment.ticket).Nodup)
    (ran : s.beginBlock view epoch = .ok (s', tick)) :
    (s' = s ∧ tick = {} ∧ ∃ e, s.book.epoch = some e ∧ epoch ≤ e) ∨
      BoundaryDone view s s' epoch tick := by
  unfold beginBlock at ran
  simp only at ran
  split_ifs at ran with passed
  · cases pure_ok.1 ran
    obtain ⟨e, stored, le⟩ := any_eq_true _ _ |>.1 passed
    exact .inl ⟨rfl, rfl, e, stored, of_decide_eq_true le⟩
  obtain ⟨b, -, ran⟩ := bind_ok.1 ran
  obtain ⟨⟨queue, x⟩, ran_queue, ran⟩ := bind_ok.1 ran
  cases pure_ok.1 ran
  have live_tickets : ((s.live epoch).map QueuedPayment.ticket).Sublist
      (s.queue.map QueuedPayment.ticket) := filter_sublist.map _
  obtain ⟨made, paid⟩ := payQueue_paid (live_tickets.nodup once) ran_queue
  have payouts : x.payouts = made := paid.payouts
  have total : x.paid = spent made := by
    have sum := paid.paid ((Nat.zero_add _).trans_le planBoundary_payout_typed)
    exact sum.trans (Nat.zero_add _)
  have left : spent made ≤ (s.plan view epoch).payout := by
    have sum := paid.left
    simp only at sum
    omega
  obtain ⟨each, live_within⟩ := forall₂_mem paid.each
  have in_queue : ∀ q ∈ s.live epoch, q ∈ s.queue ∧ epoch < q.expiresEpoch := fun q mem =>
    ⟨mem_of_mem_filter mem, of_decide_eq_true (mem_filter.1 mem).2⟩
  have due : ∀ p ∈ made, ∃ q ∈ s.queue, q.ticket = p.1 ∧ epoch < q.expiresEpoch := by
    intro p mem
    obtain ⟨q, here, ticket⟩ := mem_map.1 (paid.tickets p mem)
    obtain ⟨queued, early⟩ := in_queue q here
    exact ⟨q, queued, ticket, early⟩
  have distinct : ∀ q ∈ s.queue, ∀ r ∈ s.queue, q.ticket = r.ticket → q = r :=
    fun q hq r hr same => inj_on_of_nodup_map once hq hr same
  have within : ∀ q ∈ s.queue, gets made q.ticket ≤ q.remaining := by
    intro q mem
    by_cases paid_some : ∃ p ∈ made, p.1 = q.ticket
    · obtain ⟨p, here, same⟩ := paid_some
      obtain ⟨r, live, ticket⟩ := mem_map.1 (paid.tickets p here)
      have own := distinct r (in_queue r live).1 q mem (ticket.trans same)
      rw [← own]
      exact live_within r live
    · push Not at paid_some
      rw [gets_eq_zero paid_some]
      exact Nat.zero_le _
  right
  constructor
  · intro e stored
    by_contra late
    refine passed ?_
    rw [stored]
    exact decide_eq_true (by omega)
  · rw [prune_book]
  · exact prune_queue.2
  · rw [prune_queue.1]
    simp only
    split_ifs
    · exact ((filter_sublist.map _).trans (by rw [forall₂_tickets paid.each])).trans live_tickets
    · exact Sublist.refl _
  · rw [prune_queue.1, payouts]
    simp only
    split_ifs with rewritten
    · intro q' mem
      obtain ⟨q, here, from_q⟩ := each q' (mem_of_mem_filter mem)
      exact ⟨q, (in_queue q here).1, from_q⟩
    · intro q mem
      refine ⟨q, mem, rfl, rfl, rfl, ?_⟩
      have few := gets_le_spent made q.ticket
      omega
  · rw [payouts]
    exact due
  · rw [payouts]
    exact within
  · rw [payouts]
    exact total
  · rw [total]
    exact left
  · rfl
  · intro e near
    rw [prune_readFlows near]
    unfold readFlows
    simp only
    by_cases pays : 0 < x.paid
    · simp only [pays, if_true, and_true]
      by_cases here : e = epoch
      · rw [here, update_self, if_pos rfl]
        rfl
      · rw [update_of_ne here, if_neg here]
    · simp only [pays, if_false, and_false]

end ReserveLedger

/-! ### Histories -/

/-- A ledger with the revenue noted and paid by epoch, how often each epoch counted toward a fill,
and what each ticket was granted and paid. -/
structure History where
  ledger : ReserveLedger
  now : ℕ
  noted : ℕ → ℕ
  scans : ℕ → ℕ
  counted : ℕ
  paidIn : ℕ → ℕ
  issued : ℕ → ℕ × ℕ
  received : ℕ → ℕ

inductive ReserveOp where
  | note (epoch amount : ℕ)
  | queue (view : ReserveView) (epoch : ℕ) (proposalId : String) (recipient : Bytes) (amount : ℕ)
  | boundary (view : ReserveView) (epoch : ℕ)
  /-- Any other transaction, by the balances and the outflow period it leaves. -/
  | other (balance : Bytes → ℕ) (period : Option OutflowPeriod)

namespace History
variable (h : History)

def note (epoch amount : ℕ) : History :=
  { h with
    ledger := h.ledger.noteRevenue epoch amount
    now := epoch
    noted := update h.noted epoch (h.noted epoch + amount) }

def queue (s' : ReserveLedger) (view : ReserveView) (epoch amount : ℕ) : History :=
  { h with
    ledger := s'
    now := epoch
    issued := update h.issued h.ledger.tickets
      (amount, saturatingAdd 64 epoch view.paymentTtlEpochs) }

def boundary (view : ReserveView) (s' : ReserveLedger) (epoch : ℕ) (tick : ReserveTick) : History :=
  let i := h.ledger.boundaryInputs view (ReserveRules.read view) epoch
  { h with
    ledger := s'
    now := epoch
    scans := fun e =>
      if h.ledger.scanStart epoch ≤ e ∧ e < epoch then h.scans e + 1 else h.scans e
    counted := h.counted + i.newRevenue
    paidIn := update h.paidIn epoch (h.paidIn epoch + tick.payout)
    received := fun t => h.received t + gets tick.payouts t }

/-- An operation that fails is undone; one that comes again in the same epoch does nothing. -/
def apply : ReserveOp → History
  | .note epoch amount => h.note epoch amount
  | .queue view epoch proposalId recipient amount =>
    match h.ledger.queuePayment view epoch proposalId recipient amount with
    | .ok s' => h.queue s' view epoch amount
    | .error _ => { h with now := epoch }
  | .boundary view epoch =>
    match h.ledger.beginBlock view epoch with
    | .ok (s', tick) =>
      if h.ledger.book.epoch.any fun e => epoch ≤ e then { h with now := epoch }
      else h.boundary view s' epoch tick
    | .error _ => { h with now := epoch }
  | .other balance period => { h with ledger := { h.ledger with balance, period } }

end History

def ReserveOp.epoch (h : History) : ReserveOp → ℕ
  | .note epoch _ => epoch
  | .queue _ epoch _ _ _ => epoch
  | .boundary _ epoch => epoch
  | .other _ _ => h.now

def run : History → List ReserveOp → History
  | h, [] => h
  | h, op :: rest => run (h.apply op) rest

def Ordered : History → List ReserveOp → Prop
  | _, [] => True
  | h, op :: rest => h.now ≤ op.epoch h ∧ Ordered (h.apply op) rest

def History.empty (balance : Bytes → ℕ) (period : Option OutflowPeriod) : History :=
  ⟨⟨balance, period, fun _ => none, {}, [], 0⟩, 0, fun _ => 0, fun _ => 0, 0, fun _ => 0,
    fun _ => (0, 0), fun _ => 0⟩

/-- Flows a boundary after the last one may still read. -/
def Near (h : History) (e : ℕ) : Prop := ∀ b, h.ledger.book.epoch = some b → b ≤ e + maxScanEpochs

structure Kept (h : History) : Prop where
  passed : ∀ b, h.ledger.book.epoch = some b → b ≤ h.now
  revenue : ∀ e, Near h e → (h.ledger.readFlows e).revenue = min (h.noted e) (maxValue 128)
  paid : ∀ e, Near h e → (h.ledger.readFlows e).paid = h.paidIn e
  unpaid : ∀ e, (∀ b, h.ledger.book.epoch = some b → b < e) → h.paidIn e = 0
  scanned : ∀ e, h.scans e ≤ 1 ∧ (h.ledger.book.epoch.getD 0 ≤ e → h.scans e = 0)
  counted : h.counted ≤ ∑ e ∈ Finset.range (h.ledger.book.epoch.getD 0), h.noted e
  once : (h.ledger.queue.map QueuedPayment.ticket).Nodup
  ticketed : ∀ q ∈ h.ledger.queue, q.ticket < h.ledger.tickets ∧
    h.issued q.ticket = (q.amount, q.expiresEpoch) ∧
      q.remaining + h.received q.ticket ≤ q.amount
  received : ∀ t, h.received t ≤ (h.issued t).1
  unissued : ∀ t, h.ledger.tickets ≤ t → h.received t = 0

omit [TreasuryVaults] in
theorem kept_empty (balance : Bytes → ℕ) (period : Option OutflowPeriod) :
    Kept (.empty balance period) where
  passed b stored := by cases stored
  revenue e _ := (Nat.zero_min _).symm
  paid _ _ := rfl
  unpaid _ _ := rfl
  scanned _ := ⟨Nat.zero_le _, fun _ => rfl⟩
  counted := Nat.zero_le _
  once := nodup_nil
  ticketed _ mem := absurd mem (not_mem_nil)
  received _ := le_rfl
  unissued _ _ := rfl

omit [TreasuryVaults] in
theorem Kept.later {h : History} (kept : Kept h) {epoch : ℕ} (le : h.now ≤ epoch) :
    Kept { h with now := epoch } :=
  { kept with passed := fun b stored => (kept.passed b stored).trans le }

omit [TreasuryVaults] in
theorem noteRevenue_readFlows {s : ReserveLedger} {epoch amount e : ℕ} :
    (s.noteRevenue epoch amount).readFlows e = if e = epoch ∧ amount ≠ 0 then
      { s.readFlows e with revenue := saturatingAdd 128 (s.readFlows e).revenue amount }
    else s.readFlows e := by
  unfold ReserveLedger.noteRevenue
  by_cases nothing : amount = 0
  · rw [if_pos nothing, if_neg (by simp [nothing])]
  · rw [if_neg nothing]
    unfold ReserveLedger.readFlows
    simp only
    by_cases here : e = epoch
    · rw [here, update_self, if_pos ⟨rfl, nothing⟩]
      rfl
    · rw [update_of_ne here, if_neg (by simp [here])]

omit [TreasuryVaults] in
theorem noteRevenue_rest (s : ReserveLedger) (epoch amount : ℕ) :
    (s.noteRevenue epoch amount).book = s.book ∧ (s.noteRevenue epoch amount).queue = s.queue ∧
      (s.noteRevenue epoch amount).tickets = s.tickets := by
  unfold ReserveLedger.noteRevenue
  split_ifs <;> exact ⟨rfl, rfl, rfl⟩

omit [TreasuryVaults] in
theorem Kept.note {h : History} (kept : Kept h) {epoch amount : ℕ} (le : h.now ≤ epoch) :
    Kept (h.note epoch amount) := by
  obtain ⟨book, queue, tickets⟩ := noteRevenue_rest h.ledger epoch amount
  -- the last boundary was at this epoch or before it, so what it counted stays as it was
  have before : h.ledger.book.epoch.getD 0 ≤ epoch := by
    cases stored : h.ledger.book.epoch with
    | none => exact Nat.zero_le _
    | some b => exact (kept.passed b stored).trans le
  have stays {e : ℕ} (near : Near (h.note epoch amount) e) : Near h e := fun b stored => near b (by
    change (h.ledger.noteRevenue epoch amount).book.epoch = _
    rw [book]
    exact stored)
  constructor
  · intro b stored
    change (h.ledger.noteRevenue epoch amount).book.epoch = _ at stored
    rw [book] at stored
    exact (kept.passed b stored).trans le
  · intro e near
    have old := kept.revenue e (stays near)
    change ((h.ledger.noteRevenue epoch amount).readFlows e).revenue = min
      (update h.noted epoch (h.noted epoch + amount) e) _
    rw [noteRevenue_readFlows]
    by_cases here : e = epoch
    · subst here
      rw [update_self]
      split_ifs with some_of_it
      · simp only [old, saturatingAdd]
        omega
      · rw [old]
        omega
    · rw [update_of_ne here, if_neg (by simp [here])]
      exact old
  · intro e near
    change ((h.ledger.noteRevenue epoch amount).readFlows e).paid = _
    rw [noteRevenue_readFlows]
    have old := kept.paid e (stays near)
    split_ifs <;> exact old
  · intro e after
    refine kept.unpaid e fun b stored => after b ?_
    change (h.ledger.noteRevenue epoch amount).book.epoch = _
    rw [book]
    exact stored
  · intro e
    change h.scans e ≤ 1 ∧ ((h.ledger.noteRevenue epoch amount).book.epoch.getD 0 ≤ e → h.scans e = 0)
    rw [book]
    exact kept.scanned e
  · change h.counted ≤ ∑ e ∈ Finset.range ((h.ledger.noteRevenue epoch amount).book.epoch.getD 0), _
    rw [book]
    refine kept.counted.trans (Finset.sum_le_sum fun e mem => ?_)
    have earlier := Finset.mem_range.1 mem
    change _ ≤ update h.noted epoch _ e
    rw [update_of_ne (by omega)]
  · change ((h.ledger.noteRevenue epoch amount).queue.map _).Nodup
    rw [queue]
    exact kept.once
  · intro q mem
    change q ∈ (h.ledger.noteRevenue epoch amount).queue at mem
    rw [queue] at mem
    have entry := kept.ticketed q mem
    change q.ticket < (h.ledger.noteRevenue epoch amount).tickets ∧ _
    rw [tickets]
    exact entry
  · exact kept.received
  · intro t beyond
    change (h.ledger.noteRevenue epoch amount).tickets ≤ t at beyond
    rw [tickets] at beyond
    exact kept.unissued t beyond

omit [TreasuryVaults] in
theorem Kept.queue {h : History} (kept : Kept h) {epoch amount : ℕ} {proposalId : String}
    {recipient : Bytes} {s' : ReserveLedger} (le : h.now ≤ epoch)
    (ran : h.ledger.queuePayment view epoch proposalId recipient amount = .ok s') :
    Kept (h.queue s' view epoch amount) := by
  unfold ReserveLedger.queuePayment at ran
  obtain ⟨_, -, ran⟩ := bind_ok.1 ran
  obtain rfl := pure_ok.1 ran
  have fresh : ∀ q ∈ h.ledger.queue, q.ticket ≠ h.ledger.tickets := fun q mem =>
    Nat.ne_of_lt (kept.ticketed q mem).1
  refine ⟨fun b stored => (kept.passed b stored).trans le, kept.revenue, kept.paid, kept.unpaid,
    kept.scanned, kept.counted, ?_, ?_, ?_, ?_⟩
  · change ((h.ledger.queue ++ [_]).map QueuedPayment.ticket).Nodup
    rw [map_append, nodup_append]
    refine ⟨kept.once, nodup_singleton _, ?_⟩
    intro t old t' new same
    obtain ⟨q, mem, rfl⟩ := mem_map.1 old
    have last : t' = h.ledger.tickets := mem_singleton.1 new
    exact fresh q mem (same.trans last)
  · intro q mem
    change q.ticket < h.ledger.tickets + 1 ∧
      update h.issued h.ledger.tickets _ q.ticket = _ ∧ _
    rcases mem_append.1 mem with old | new
    · obtain ⟨below, issued, within⟩ := kept.ticketed q old
      rw [update_of_ne (fresh q old)]
      exact ⟨Nat.lt_succ_of_lt below, issued, within⟩
    · obtain rfl := mem_singleton.1 new
      refine ⟨Nat.lt_succ_self _, update_self _ _ _, ?_⟩
      change amount + h.received h.ledger.tickets ≤ amount
      rw [kept.unissued _ le_rfl]
      exact le_rfl
  · intro t
    change _ ≤ (update h.issued h.ledger.tickets _ t).1
    by_cases new : t = h.ledger.tickets
    · have nothing : h.received t = 0 := kept.unissued t new.ge
      change h.received t ≤ _
      omega
    · rw [update_of_ne new]
      exact kept.received t
  · intro t beyond
    exact kept.unissued t (Nat.le_of_succ_le beyond)

omit [TreasuryVaults] in
theorem scanStart_bounds {s : ReserveLedger} {epoch : ℕ}
    (fresh : ∀ e, s.book.epoch = some e → e < epoch) : s.scanStart epoch ≤ epoch ∧
      s.book.epoch.getD 0 ≤ s.scanStart epoch ∧ epoch ≤ s.scanStart epoch + maxScanEpochs := by
  unfold ReserveLedger.scanStart
  cases stored : s.book.epoch with
  | none =>
    simp only [getD_none]
    omega
  | some b =>
    have before := fresh b stored
    simp only [getD_some]
    omega

omit [TreasuryVaults] in
theorem near_of_reach {h : History} {epoch e : ℕ}
    (fresh : ∀ b, h.ledger.book.epoch = some b → b < epoch) (reach : epoch ≤ e + maxScanEpochs) :
    Near h e := fun b stored => (fresh b stored).le.trans reach

theorem Kept.newRevenue_le {h : History} (kept : Kept h) {epoch : ℕ}
    (fresh : ∀ b, h.ledger.book.epoch = some b → b < epoch) :
    (h.ledger.boundaryInputs view (ReserveRules.read view) epoch).newRevenue ≤
      ∑ e ∈ Finset.Ico (h.ledger.scanStart epoch) epoch, h.noted e := by
  obtain ⟨below, -, reach⟩ := scanStart_bounds fresh
  refine (scan_le _ below).trans (Finset.sum_le_sum fun e mem => ?_)
  have from_start := (Finset.mem_Ico.1 mem).1
  rw [kept.revenue e (near_of_reach fresh (by omega))]
  exact min_le_left _ _

theorem Kept.boundary {h : History} (kept : Kept h) {epoch : ℕ} {s' : ReserveLedger}
    {tick : ReserveTick} (done : BoundaryDone view h.ledger s' epoch tick) :
    Kept (h.boundary view s' epoch tick) := by
  obtain ⟨below, after_last, reach⟩ := scanStart_bounds done.fresh
  have last : h.ledger.book.epoch.getD 0 ≤ epoch := after_last.trans below
  have near_after : ∀ e, Near (h.boundary view s' epoch tick) e → epoch ≤ e + maxScanEpochs :=
    fun e near => near epoch done.reached
  have unpaid : h.paidIn epoch = 0 := kept.unpaid epoch done.fresh
  have typed : tick.payout ≤ maxValue 128 := done.planned.trans planBoundary_payout_typed
  constructor
  · intro b stored
    change s'.book.epoch = some b at stored
    rw [done.reached] at stored
    exact (Option.some.inj stored).ge
  · intro e near
    have near := near_after e near
    change (s'.readFlows e).revenue = _
    rw [done.flows e near]
    have old := kept.revenue e (near_of_reach done.fresh near)
    split_ifs <;> exact old
  · intro e near
    have near := near_after e near
    have old := kept.paid e (near_of_reach done.fresh near)
    change (s'.readFlows e).paid =
      update h.paidIn epoch (h.paidIn epoch + tick.payout) e
    rw [done.flows e near]
    by_cases here : e = epoch
    · subst here
      rw [update_self]
      split_ifs with pays
      · simp only [old, unpaid, saturatingAdd]
        omega
      · rw [old, unpaid]
        omega
    · rw [update_of_ne here, if_neg (by simp [here])]
      exact old
  · intro e after
    have later := after epoch done.reached
    change update h.paidIn epoch _ e = 0
    rw [update_of_ne (by omega)]
    exact kept.unpaid e fun b stored => (done.fresh b stored).trans later
  · intro e
    obtain ⟨once, none_yet⟩ := kept.scanned e
    change (if _ then _ else _) ≤ 1 ∧ (s'.book.epoch.getD 0 ≤ e → (if _ then _ else _) = 0)
    rw [done.reached, getD_some]
    split_ifs with scanned
    · have nothing := none_yet (after_last.trans scanned.1)
      refine ⟨?_, fun late => absurd (scanned.2.trans_le late) (lt_irrefl _)⟩
      rw [nothing]
    · exact ⟨once, fun le => none_yet (last.trans le)⟩
  · change h.counted + _ ≤ ∑ e ∈ Finset.range (s'.book.epoch.getD 0), h.noted e
    rw [done.reached, getD_some]
    have new : (h.ledger.boundaryInputs view (ReserveRules.read view) epoch).newRevenue ≤ _ :=
      kept.newRevenue_le done.fresh
    have old := kept.counted
    have part : ∑ e ∈ Finset.Ico (h.ledger.scanStart epoch) epoch, h.noted e ≤
        ∑ e ∈ Finset.Ico (h.ledger.book.epoch.getD 0) epoch, h.noted e :=
      Finset.sum_le_sum_of_subset (Finset.Ico_subset_Ico_left after_last)
    have whole := Finset.sum_range_add_sum_Ico h.noted last
    omega
  · exact done.kept.nodup kept.once
  · intro q' mem
    obtain ⟨q, here, paid⟩ := done.queue q' mem
    obtain ⟨ticketed, issued, within⟩ := kept.ticketed q here
    have part := paid.remaining
    change q'.ticket < s'.tickets ∧ h.issued q'.ticket = _ ∧
      q'.remaining + (h.received q'.ticket + gets tick.payouts q'.ticket) ≤ q'.amount
    rw [paid.ticket, paid.amount, paid.expires, done.tickets]
    exact ⟨ticketed, issued, by omega⟩
  · intro t
    change h.received t + gets tick.payouts t ≤ (h.issued t).1
    by_cases paid : ∃ p ∈ tick.payouts, p.1 = t
    · obtain ⟨p, mem, rfl⟩ := paid
      obtain ⟨q, here, same, -⟩ := done.due p mem
      obtain ⟨-, issued, within⟩ := kept.ticketed q here
      have part := done.within q here
      rw [← same, issued]
      change _ ≤ q.amount
      omega
    · push Not at paid
      rw [gets_eq_zero paid]
      exact kept.received t
  · intro t beyond
    change s'.tickets ≤ t at beyond
    rw [done.tickets] at beyond
    change h.received t + gets tick.payouts t = 0
    rw [kept.unissued t beyond, Nat.zero_add]
    refine gets_eq_zero fun p mem same => ?_
    obtain ⟨q, here, ticket, -⟩ := done.due p mem
    have below_tickets := (kept.ticketed q here).1
    omega

theorem Kept.apply {h : History} (kept : Kept h) {op : ReserveOp} (le : h.now ≤ op.epoch h) :
    Kept (h.apply op) := by
  cases op with
  | note epoch amount => exact kept.note le
  | queue view epoch proposalId recipient amount =>
    unfold History.apply
    simp only
    cases ran : h.ledger.queuePayment view epoch proposalId recipient amount with
    | ok s' => exact kept.queue le ran
    | error e => exact kept.later le
  | boundary view epoch =>
    unfold History.apply
    simp only
    cases ran : h.ledger.beginBlock view epoch with
    | error e => exact kept.later le
    | ok out =>
      simp only
      split_ifs with passed
      · exact kept.later le
      · rcases ReserveLedger.beginBlock_done kept.once ran with ⟨-, -, e, stored, late⟩ | done
        · refine absurd ?_ passed
          rw [stored]
          exact decide_eq_true late
        · exact kept.boundary done
  | other balance period =>
    exact ⟨kept.passed, kept.revenue, kept.paid, kept.unpaid, kept.scanned, kept.counted, kept.once,
      kept.ticketed, kept.received, kept.unissued⟩

theorem Kept.run {h : History} (kept : Kept h) {ops : List ReserveOp} (ordered : Ordered h ops) :
    Kept (run h ops) := by
  induction ops generalizing h with
  | nil => exact kept
  | cons op rest ih => exact ih (kept.apply ordered.1) ordered.2

/-- What holds after every run, and of the next boundary, under whatever rules. -/
structure Sound (h : History) : Prop where
  /-- No boundary fails while the supply leaves the width half empty. -/
  total : ∀ view epoch n, SumsTo h.ledger.balance n → n < 2 ^ 127 →
    ∃ out, h.ledger.beginBlock view epoch = .ok out
  /-- Each epoch's revenue counts toward one fill, and no more than was noted in it. -/
  once : ∀ e, h.scans e ≤ 1
  counted : h.counted ≤ ∑ e ∈ Finset.range (h.now + 1), h.noted e
  fill : ∀ view epoch s' tick, h.ledger.beginBlock view epoch = .ok (s', tick) → tick.fill ≤
    bps (∑ e ∈ Finset.Ico (h.ledger.scanStart epoch) epoch, h.noted e)
      (ReserveRules.read view).fillShareBps
  /-- A queued payment gets no more than its amount. -/
  paid : ∀ t, h.received t ≤ (h.issued t).1
  /-- Nothing is paid once a payment has expired. -/
  expired : ∀ view epoch s' tick, h.ledger.beginBlock view epoch = .ok (s', tick) →
    ∀ p ∈ tick.payouts, epoch < (h.issued p.1).2
  /-- The month's payments stay within its revenue share and the drawdown of the reserve. -/
  month : ∀ view epoch s' tick, h.ledger.beginBlock view epoch = .ok (s', tick) →
    tick.payout = spent tick.payouts ∧ (tick.payout = 0 ∨
      (∑ e ∈ Finset.Ico (ReserveLedger.monthStart (ReserveRules.read view) epoch) epoch,
        h.paidIn e) + tick.payout ≤
      bps (∑ e ∈ Finset.Ico (ReserveLedger.monthStart (ReserveRules.read view) epoch) epoch,
        h.noted e) (ReserveRules.read view).revenueShareBps +
      bps (balanceOf h.ledger.balance TreasuryVaults.reserve + tick.fill)
        (ReserveRules.read view).drawdownBps)
  /-- What a later boundary reads is as it was recorded. -/
  pruned : ∀ (view : ReserveView) (epoch e : ℕ),
    (∀ b, h.ledger.book.epoch = some b → b < epoch) →
      (h.ledger.scanStart epoch ≤ e ∨
        ReserveLedger.monthStart (ReserveRules.read view) epoch ≤ e) →
          h.ledger.readFlows e = ⟨min (h.noted e) (maxValue 128), h.paidIn e⟩

omit [TreasuryVaults] in
theorem monthStart_reach (rules : ReserveRules) (epoch : ℕ) :
    ReserveLedger.monthStart rules epoch ≤ epoch ∧
      epoch ≤ ReserveLedger.monthStart rules epoch + maxScanEpochs := by
  unfold ReserveLedger.monthStart
  omega

theorem Kept.month {h : History} (kept : Kept h) {epoch : ℕ} {s' : ReserveLedger}
    {tick : ReserveTick} (done : BoundaryDone view h.ledger s' epoch tick) (pays : tick.payout ≠ 0) :
    (∑ e ∈ Finset.Ico (ReserveLedger.monthStart (ReserveRules.read view) epoch) epoch,
      h.paidIn e) + tick.payout ≤
    bps (∑ e ∈ Finset.Ico (ReserveLedger.monthStart (ReserveRules.read view) epoch) epoch,
      h.noted e) (ReserveRules.read view).revenueShareBps +
    bps (balanceOf h.ledger.balance TreasuryVaults.reserve + tick.fill)
      (ReserveRules.read view).drawdownBps := by
  obtain ⟨below, reach⟩ := monthStart_reach (ReserveRules.read view) epoch
  have near : ∀ e ∈ Finset.Ico (ReserveLedger.monthStart (ReserveRules.read view) epoch) epoch,
      Near h e := fun e mem => near_of_reach done.fresh (by
        have from_start := (Finset.mem_Ico.1 mem).1
        omega)
  have planned : 0 < (h.ledger.plan view epoch).payout := by
    have le := done.planned
    omega
  obtain ⟨unsaturated, allowed⟩ := planBoundary_month planned
  have paid : (h.ledger.boundaryInputs view (ReserveRules.read view) epoch).monthPaid =
      ∑ e ∈ Finset.Ico (ReserveLedger.monthStart (ReserveRules.read view) epoch) epoch,
        h.paidIn e := by
    have sums := scan_eq (fun e => (h.ledger.readFlows e).paid) below
    have same : ∑ e ∈ Finset.Ico (ReserveLedger.monthStart (ReserveRules.read view) epoch) epoch,
        (h.ledger.readFlows e).paid = ∑ e ∈ Finset.Ico
          (ReserveLedger.monthStart (ReserveRules.read view) epoch) epoch, h.paidIn e :=
      Finset.sum_congr rfl fun e mem => kept.paid e (near e mem)
    change scan _ _ _ = _
    change scan _ _ _ < _ at unsaturated
    rw [sums] at unsaturated ⊢
    rw [same] at unsaturated ⊢
    omega
  have revenue : (h.ledger.boundaryInputs view (ReserveRules.read view) epoch).monthRevenue ≤
      ∑ e ∈ Finset.Ico (ReserveLedger.monthStart (ReserveRules.read view) epoch) epoch,
        h.noted e := by
    refine (scan_le _ below).trans (Finset.sum_le_sum fun e mem => ?_)
    rw [kept.revenue e (near e mem)]
    exact min_le_left _ _
  have share : bps (h.ledger.boundaryInputs view (ReserveRules.read view) epoch).monthRevenue
      (ReserveRules.read view).revenueShareBps ≤ bps (∑ e ∈ Finset.Ico
        (ReserveLedger.monthStart (ReserveRules.read view) epoch) epoch, h.noted e)
          (ReserveRules.read view).revenueShareBps := bpsOf_mono revenue
  have planned_le := done.planned
  rw [done.fill, ← paid]
  change _ ≤ _ + bps ((h.ledger.boundaryInputs view (ReserveRules.read view) epoch).reserve +
    (h.ledger.plan view epoch).fill) _
  change _ + (h.ledger.plan view epoch).payout ≤ _ + bps (_ + (h.ledger.plan view epoch).fill) _
    at allowed
  omega

theorem Kept.sound {h : History} (kept : Kept h) : Sound h where
  total view epoch n sums half := ReserveLedger.beginBlock_total sums half
  once e := (kept.scanned e).1
  counted := by
    refine kept.counted.trans (Finset.sum_le_sum_of_subset (Finset.range_mono ?_))
    cases stored : h.ledger.book.epoch with
    | none => exact Nat.zero_le _
    | some b => exact Nat.le_succ_of_le (kept.passed b stored)
  fill view epoch s' tick ran := by
    rcases ReserveLedger.beginBlock_done kept.once ran with ⟨-, rfl, -⟩ | done
    · exact Nat.zero_le _
    · rw [done.fill]
      have share : (h.ledger.plan view epoch).fill ≤
          bps (h.ledger.boundaryInputs view (ReserveRules.read view) epoch).newRevenue
            (ReserveRules.read view).fillShareBps := (min_le_left _ _).trans (min_le_left _ _)
      exact share.trans (bpsOf_mono (kept.newRevenue_le done.fresh))
  paid := kept.received
  expired view epoch s' tick ran p mem := by
    rcases ReserveLedger.beginBlock_done kept.once ran with ⟨-, rfl, -⟩ | done
    · cases mem
    · obtain ⟨q, here, same, early⟩ := done.due p mem
      rw [← same, (kept.ticketed q here).2.1]
      exact early
  month view epoch s' tick ran := by
    rcases ReserveLedger.beginBlock_done kept.once ran with ⟨-, rfl, -⟩ | done
    · exact ⟨rfl, .inl rfl⟩
    · refine ⟨done.payout, ?_⟩
      by_cases nothing : tick.payout = 0
      · exact .inl nothing
      · exact .inr (kept.month done nothing)
  pruned view epoch e fresh reads := by
    obtain ⟨-, -, scan_reach⟩ := scanStart_bounds fresh
    have month_reach := (monthStart_reach (ReserveRules.read view) epoch).2
    have near : Near h e := near_of_reach fresh (by omega)
    rw [← kept.revenue e near, ← kept.paid e near]

end

/-! ### One payment -/

theorem vaults_apart : id ([7] : Bytes) ≠ id [8] := by decide

@[reducible] def plainVaults : TreasuryVaults where
  account := id
  treasury := [7]
  reserve := [8]
  apart := vaults_apart

attribute [local instance] plainVaults

def reserveView : ReserveView where
  nowMs := 1000
  fillShareBps := 5000
  targetMonths := 12
  revenueShareBps := 3000
  drawdownBps := 300
  monthEpochs := 720
  saleVolumeShareBps := 500
  maxSaleTnzoEpoch := 10000
  paymentTtlEpochs := 10
  outflow := ⟨300, 300, 30 * 24 * 60 * 60 * 1000⟩
  dailyVolume := 10 ^ 6
  approved _ := true

def fundedVaults (a : Bytes) : ℕ := if a = [7] then 100000 else if a = [8] then 50 else 0

/-- Half of the 1000 realised in epoch 4 fills the reserve in epoch 5, which then pays 120. -/
def reserveOps : List ReserveOp :=
  [.boundary reserveView 4, .note 4 1000, .queue reserveView 4 "payroll" [1] 120,
    .boundary reserveView 5, .boundary reserveView 6]

end Tenzro.Treasury
