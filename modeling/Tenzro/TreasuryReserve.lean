import Tenzro.BalanceMovers

set_option autoImplicit false
set_option linter.dupNamespace false

/-!
# A boundary of the running-cost reserve

At each epoch boundary a share of the treasury's fee revenue fills the reserve,
and the queue of enacted running-cost payments is paid from it. What one
boundary reads, pays and keeps.
-/
namespace Tenzro.Treasury
open FixedWidth Outcome NativeBalance List Function
open Staking (VmError)
open BalanceMovers (fundingMoveBalance)

def maxScanEpochs : ℕ := 8760

def queueCapacity : ℕ := 64

def oneTnzo : ℕ := 10 ^ 18

/-- What the treasury realised and the reserve paid in one epoch. -/
structure EpochFlows where
  revenue : ℕ := 0
  paid : ℕ := 0
deriving DecidableEq, Repr

structure ReserveBook where
  epoch : Option ℕ := none
  monthRevenue : ℕ := 0
  monthPaid : ℕ := 0
  target : ℕ := 0
  allowanceLeft : ℕ := 0
  epochVolume : ℕ := 0
  saleCap : ℕ := 0
  totalFilled : ℕ := 0
  totalPaid : ℕ := 0
deriving DecidableEq, Repr

structure QueuedPayment where
  /-- How many payments were queued before this one: only the proofs read it. -/
  ticket : ℕ
  proposalId : String
  recipient : Bytes
  amount : ℕ
  remaining : ℕ
  expiresEpoch : ℕ
deriving DecidableEq, Repr

structure ReserveLedger where
  balance : Bytes → ℕ
  period : Option OutflowPeriod
  flows : ℕ → Option EpochFlows
  book : ReserveBook
  queue : List QueuedPayment
  tickets : ℕ

/-- What a boundary reads besides the ledger. -/
structure ReserveView where
  nowMs : ℤ
  fillShareBps : ℕ
  targetMonths : ℕ
  revenueShareBps : ℕ
  drawdownBps : ℕ
  monthEpochs : ℕ
  saleVolumeShareBps : ℕ
  maxSaleTnzoEpoch : ℕ
  paymentTtlEpochs : ℕ
  outflow : OutflowParams
  dailyVolume : ℕ
  approved : Bytes → Bool

structure ReserveRules where
  fillShareBps : ℕ
  targetMonths : ℕ
  revenueShareBps : ℕ
  drawdownBps : ℕ
  monthEpochs : ℕ
  saleVolumeShareBps : ℕ
  maxSaleTnzoEpoch : ℕ
deriving DecidableEq, Repr

def ReserveRules.read (view : ReserveView) : ReserveRules where
  fillShareBps := min view.fillShareBps 10000
  targetMonths := view.targetMonths
  revenueShareBps := min view.revenueShareBps 10000
  drawdownBps := min view.drawdownBps 10000
  monthEpochs := max view.monthEpochs 1
  saleVolumeShareBps := min view.saleVolumeShareBps 10000
  maxSaleTnzoEpoch := view.maxSaleTnzoEpoch

structure BoundaryInputs where
  newRevenue : ℕ
  monthRevenue : ℕ
  monthPaid : ℕ
  treasury : ℕ
  reserve : ℕ
  epochVolume : ℕ
  owed : ℕ

structure BoundaryPlan where
  target : ℕ
  fill : ℕ
  allowanceLeft : ℕ
  saleCap : ℕ
  payout : ℕ

def bps (value bps : ℕ) : ℕ := bpsOf value (min bps 10000)

def planBoundary (rules : ReserveRules) (i : BoundaryInputs) : BoundaryPlan :=
  let revenueAllowance := bps i.monthRevenue rules.revenueShareBps
  let monthlyCost := max i.monthPaid revenueAllowance
  let target := saturatingMul 128 monthlyCost rules.targetMonths
  let shortfall := target - i.reserve
  let fill := min (min (bps i.newRevenue rules.fillShareBps) shortfall) i.treasury
  let reserve := saturatingAdd 128 i.reserve fill
  let allowance := saturatingAdd 128 revenueAllowance (bps reserve rules.drawdownBps)
  let allowanceLeft := allowance - i.monthPaid
  -- volume reports can be washed; the absolute ceiling cannot
  let saleCap := min (bps i.epochVolume rules.saleVolumeShareBps)
    (saturatingMul 128 rules.maxSaleTnzoEpoch oneTnzo)
  let payout := min (min (min i.owed allowanceLeft) saleCap) reserve
  ⟨target, fill, allowanceLeft, saleCap, payout⟩

def scan (f : ℕ → ℕ) (start epoch : ℕ) : ℕ :=
  (range' start (epoch - start)).foldl (fun a e => saturatingAdd 128 a (f e)) 0

namespace ReserveLedger
variable (s : ReserveLedger)

def readFlows (epoch : ℕ) : EpochFlows := (s.flows epoch).getD {}

def noteRevenue (epoch amount : ℕ) : ReserveLedger :=
  if amount = 0 then s
  else
    let f := s.readFlows epoch
    { s with
      flows := update s.flows epoch (some { f with
        revenue := saturatingAdd 128 f.revenue amount }) }

def queuePayment (view : ReserveView) (epoch : ℕ) (proposalId : String) (recipient : Bytes)
    (amount : ℕ) : Except VmError ReserveLedger := do
  ensure (s.queue.length < queueCapacity) (VmError.invalidTransaction
    s!"the running-cost queue holds {queueCapacity} payments already")
  let expiresEpoch := saturatingAdd 64 epoch view.paymentTtlEpochs
  return { s with
    queue := s.queue ++ [⟨s.tickets, proposalId, recipient, amount, amount, expiresEpoch⟩]
    tickets := s.tickets + 1 }

end ReserveLedger

/-- The queue's payments as they are made. -/
structure Paying where
  balance : Bytes → ℕ
  period : Option OutflowPeriod
  left : ℕ
  paid : ℕ := 0
  lapsed : Bool
  /-- Each payment made, by ticket: only the proofs read it. -/
  payouts : List (ℕ × ℕ) := []

section
variable [TreasuryVaults] (view : ReserveView)

def payOne (x : Paying) (q : QueuedPayment) (pay : ℕ) : Except VmError Paying := do
  let period ← recordOutflow view.outflow x.balance x.period view.nowMs pay
  let balance ← fundingMoveBalance x.balance TreasuryVaults.reserve q.recipient pay
  return { x with
    balance
    period := some period
    left := x.left - pay
    paid := saturatingAdd 128 x.paid pay
    payouts := x.payouts ++ [(q.ticket, pay)] }

def payQueue : List QueuedPayment → Paying → Except VmError (List QueuedPayment × Paying)
  | [], x => .ok ([], x)
  | q :: rest, x =>
    if x.left = 0 then .ok (q :: rest, x)
    else if view.approved q.recipient = false then do
      let (rest, x) ← payQueue rest { x with lapsed := true }
      return ({ q with remaining := 0 } :: rest, x)
    else
      let headroom := outflowHeadroom view.outflow x.balance x.period view.nowMs
      let pay := min (min q.remaining x.left) headroom
      if pay = 0 then do
        let (rest, x) ← payQueue rest x
        return (q :: rest, x)
      else do
        let x ← payOne view x q pay
        let (rest, x) ← payQueue rest x
        return ({ q with remaining := q.remaining - pay } :: rest, x)

def observedEpochVolume (monthEpochs : ℕ) : ℕ :=
  saturatingMul 128 view.dailyVolume 30 / max monthEpochs 1

structure ReserveTick where
  fill : ℕ := 0
  payout : ℕ := 0
  payouts : List (ℕ × ℕ) := []
deriving DecidableEq, Repr

namespace ReserveLedger
variable (s : ReserveLedger)

def scanStart (epoch : ℕ) : ℕ := max (s.book.epoch.getD epoch) (epoch - maxScanEpochs)

def monthStart (rules : ReserveRules) (epoch : ℕ) : ℕ :=
  epoch - min rules.monthEpochs maxScanEpochs

def live (epoch : ℕ) : List QueuedPayment := s.queue.filter fun q => epoch < q.expiresEpoch

def boundaryInputs (rules : ReserveRules) (epoch : ℕ) : BoundaryInputs where
  newRevenue := scan (fun e => (s.readFlows e).revenue) (s.scanStart epoch) epoch
  monthRevenue := scan (fun e => (s.readFlows e).revenue) (monthStart rules epoch) epoch
  monthPaid := scan (fun e => (s.readFlows e).paid) (monthStart rules epoch) epoch
  treasury := balanceOf s.balance TreasuryVaults.treasury
  reserve := balanceOf s.balance TreasuryVaults.reserve
  epochVolume := observedEpochVolume view rules.monthEpochs
  owed := (s.live epoch).foldl (fun a q => saturatingAdd 128 a q.remaining) 0

def plan (epoch : ℕ) : BoundaryPlan :=
  let rules := ReserveRules.read view
  planBoundary rules (s.boundaryInputs view rules epoch)

def fillReserve (fill : ℕ) : Except VmError (Bytes → ℕ) :=
  if 0 < fill then
    fundingMoveBalance s.balance TreasuryVaults.treasury TreasuryVaults.reserve fill
  else .ok s.balance

/-- Deletes the flows no later boundary reads. -/
def prune (prior : Option ℕ) (epoch : ℕ) : ReserveLedger :=
  match prior with
  | none => s
  | some prior =>
    let finish := epoch - maxScanEpochs
    let start := max (prior - maxScanEpochs) (finish - maxScanEpochs)
    { s with flows := fun e => if start ≤ e ∧ e < finish then none else s.flows e }

def beginBlock (epoch : ℕ) : Except VmError (ReserveLedger × ReserveTick) := do
  if (s.book.epoch.any fun e => epoch ≤ e) then return (s, {})
  let rules := ReserveRules.read view
  let i := s.boundaryInputs view rules epoch
  let plan := s.plan view epoch
  let balance ← s.fillReserve plan.fill
  let live := s.live epoch
  let lapsed : Bool := live.length ≠ s.queue.length
  let (queue, x) ← payQueue view live
    { balance, period := s.period, left := plan.payout, lapsed }
  let queue := if 0 < x.paid ∨ x.lapsed = true then queue.filter (0 < ·.remaining) else s.queue
  let f := s.readFlows epoch
  let flows :=
    if 0 < x.paid then
      update s.flows epoch (some { f with paid := saturatingAdd 128 f.paid x.paid })
    else s.flows
  let book : ReserveBook := {
    epoch := some epoch
    monthRevenue := i.monthRevenue
    monthPaid := saturatingAdd 128 i.monthPaid x.paid
    target := plan.target
    allowanceLeft := plan.allowanceLeft - x.paid
    epochVolume := i.epochVolume
    saleCap := plan.saleCap
    totalFilled := saturatingAdd 128 s.book.totalFilled plan.fill
    totalPaid := saturatingAdd 128 s.book.totalPaid x.paid }
  let after : ReserveLedger := ⟨x.balance, x.period, flows, book, queue, s.tickets⟩
  return (after.prune s.book.epoch epoch, ⟨plan.fill, x.paid, x.payouts⟩)

end ReserveLedger

end

open BalanceMovers (fundingMoveBalance fundingMoveBalance_ok readFirst)
open Book (SumsTo)

/-! ### Sums over epochs -/

theorem foldl_saturatingAdd {α : Type} (f : α → ℕ) (l : List α) {a : ℕ} (within : a ≤ maxValue 128) :
    l.foldl (fun a e => saturatingAdd 128 a (f e)) a = min (a + (l.map f).sum) (maxValue 128) := by
  induction l generalizing a with
  | nil => simp [within]
  | cons e l ih =>
    rw [foldl_cons, ih (a := saturatingAdd 128 a (f e)) (min_le_right _ _), map_cons,
      sum_cons, saturatingAdd]
    omega

theorem sum_range' (f : ℕ → ℕ) (start n : ℕ) :
    ((range' start n).map f).sum = ∑ e ∈ Finset.Ico start (start + n), f e := by
  induction n with
  | zero => simp
  | succ n ih =>
    rw [range'_concat, map_append, sum_append, ih, ← Nat.add_assoc,
      Finset.sum_Ico_succ_top (Nat.le_add_right _ _)]
    simp

theorem scan_eq (f : ℕ → ℕ) {start epoch : ℕ} (le : start ≤ epoch) :
    scan f start epoch = min (∑ e ∈ Finset.Ico start epoch, f e) (maxValue 128) := by
  unfold scan
  rw [foldl_saturatingAdd f _ (Nat.zero_le _), sum_range', Nat.add_sub_cancel' le, Nat.zero_add]

theorem scan_le (f : ℕ → ℕ) {start epoch : ℕ} (le : start ≤ epoch) :
    scan f start epoch ≤ ∑ e ∈ Finset.Ico start epoch, f e := by
  rw [scan_eq f le]
  exact min_le_left _ _

/-! ### The plan -/

section
variable {rules : ReserveRules} {i : BoundaryInputs}

theorem planBoundary_fill_le : (planBoundary rules i).fill ≤ i.treasury := min_le_right _ _

theorem planBoundary_payout_le : (planBoundary rules i).payout ≤ i.reserve + (planBoundary rules i).fill :=
  (min_le_right _ _).trans (min_le_left _ _)

theorem planBoundary_payout_typed : (planBoundary rules i).payout ≤ maxValue 128 :=
  (min_le_right _ _).trans (min_le_right _ _)

theorem planBoundary_month (pays : 0 < (planBoundary rules i).payout) :
    i.monthPaid < maxValue 128 ∧ i.monthPaid + (planBoundary rules i).payout ≤
      bps i.monthRevenue rules.revenueShareBps +
        bps (i.reserve + (planBoundary rules i).fill) rules.drawdownBps := by
  have allowed : (planBoundary rules i).payout ≤
      saturatingAdd 128 (bps i.monthRevenue rules.revenueShareBps)
        (bps (saturatingAdd 128 i.reserve (planBoundary rules i).fill) rules.drawdownBps) -
          i.monthPaid :=
    (min_le_left _ _).trans ((min_le_left _ _).trans (min_le_right _ _))
  have held : bps (saturatingAdd 128 i.reserve (planBoundary rules i).fill) rules.drawdownBps ≤
      bps (i.reserve + (planBoundary rules i).fill) rules.drawdownBps :=
    bpsOf_mono (min_le_left _ _)
  have cut : saturatingAdd 128 (bps i.monthRevenue rules.revenueShareBps)
      (bps (saturatingAdd 128 i.reserve (planBoundary rules i).fill) rules.drawdownBps) ≤
        maxValue 128 := min_le_right _ _
  have within : saturatingAdd 128 (bps i.monthRevenue rules.revenueShareBps)
      (bps (saturatingAdd 128 i.reserve (planBoundary rules i).fill) rules.drawdownBps) ≤
        bps i.monthRevenue rules.revenueShareBps +
          bps (saturatingAdd 128 i.reserve (planBoundary rules i).fill) rules.drawdownBps :=
    min_le_left _ _
  omega

end

/-! ### The queue -/

/-- What the payments give one ticket. -/
def gets (payouts : List (ℕ × ℕ)) (t : ℕ) : ℕ :=
  (payouts.map fun p => if p.1 = t then p.2 else 0).sum

def spent (payouts : List (ℕ × ℕ)) : ℕ := (payouts.map Prod.snd).sum

theorem gets_eq_zero {payouts : List (ℕ × ℕ)} {t : ℕ} (absent : ∀ p ∈ payouts, p.1 ≠ t) :
    gets payouts t = 0 := by
  induction payouts with
  | nil => rfl
  | cons p rest ih =>
    have head := absent p mem_cons_self
    have tail := ih fun q mem => absent q (mem_cons_of_mem _ mem)
    unfold gets at tail ⊢
    simp [head, tail]

/-- A queued payment once part of it is paid. -/
structure PaidFrom (payouts : List (ℕ × ℕ)) (q q' : QueuedPayment) : Prop where
  ticket : q'.ticket = q.ticket
  amount : q'.amount = q.amount
  expires : q'.expiresEpoch = q.expiresEpoch
  remaining : q'.remaining + gets payouts q.ticket ≤ q.remaining

/-- What paying a queue does. -/
structure QueuePaid (l l' : List QueuedPayment) (x x' : Paying) (made : List (ℕ × ℕ)) : Prop where
  payouts : x'.payouts = x.payouts ++ made
  left : x'.left + spent made = x.left
  paid : x.paid + x.left ≤ maxValue 128 → x'.paid = x.paid + spent made
  tickets : ∀ p ∈ made, p.1 ∈ l.map QueuedPayment.ticket
  each : Forall₂ (PaidFrom made) l l'

theorem PaidFrom.refl {q : QueuedPayment} : PaidFrom [] q q := ⟨rfl, rfl, rfl, le_rfl⟩

theorem PaidFrom.none {made : List (ℕ × ℕ)} {q : QueuedPayment}
    (absent : ∀ p ∈ made, p.1 ≠ q.ticket) : PaidFrom made q q := by
  refine ⟨rfl, rfl, rfl, ?_⟩
  rw [gets_eq_zero absent]
  exact le_rfl

theorem PaidFrom.cons_other {made : List (ℕ × ℕ)} {p : ℕ × ℕ} {q q' : QueuedPayment}
    (paid : PaidFrom made q q') (other : p.1 ≠ q.ticket) : PaidFrom (p :: made) q q' := by
  refine ⟨paid.ticket, paid.amount, paid.expires, ?_⟩
  have same : gets (p :: made) q.ticket = gets made q.ticket := by
    unfold gets
    simp [other]
  rw [same]
  exact paid.remaining

theorem QueuePaid.nothing {l : List QueuedPayment} {x : Paying} : QueuePaid l l x x [] where
  payouts := (append_nil _).symm
  left := rfl
  paid _ := rfl
  tickets _ mem := absurd mem (not_mem_nil)
  each := forall₂_same.2 fun _ _ => PaidFrom.refl

section
variable [TreasuryVaults] {view : ReserveView}

theorem payOne_ok {x x' : Paying} {q : QueuedPayment} {pay : ℕ}
    (ran : payOne view x q pay = .ok x') : ∃ balance period, x' = { x with
      balance, period, left := x.left - pay, paid := saturatingAdd 128 x.paid pay,
      payouts := x.payouts ++ [(q.ticket, pay)] } ∧
    fundingMoveBalance x.balance TreasuryVaults.reserve q.recipient pay = .ok balance := by
  unfold payOne at ran
  obtain ⟨period, -, ran⟩ := bind_ok.1 ran
  obtain ⟨balance, moved, ran⟩ := bind_ok.1 ran
  exact ⟨balance, some period, (pure_ok.1 ran).symm, moved⟩

theorem payQueue_paid {l l' : List QueuedPayment} {x x' : Paying}
    (once : (l.map QueuedPayment.ticket).Nodup) (ran : payQueue view l x = .ok (l', x')) :
    ∃ made, QueuePaid l l' x x' made := by
  induction l generalizing x l' x' with
  | nil =>
    cases ran
    exact ⟨[], .nothing⟩
  | cons q rest ih =>
    obtain ⟨fresh, once⟩ := nodup_cons.1 once
    have apart : ∀ made : List (ℕ × ℕ), (∀ p ∈ made, p.1 ∈ rest.map QueuedPayment.ticket) →
        ∀ p ∈ made, p.1 ≠ q.ticket :=
      fun made among p mem same => fresh (same ▸ among p mem)
    unfold payQueue at ran
    split_ifs at ran with done unapproved
    · cases ran
      exact ⟨[], .nothing⟩
    · obtain ⟨⟨rest', y⟩, later, ran⟩ := bind_ok.1 ran
      cases pure_ok.1 ran
      obtain ⟨made, paid⟩ := ih once later
      have head : PaidFrom made q { q with remaining := 0 } := by
        refine ⟨rfl, rfl, rfl, ?_⟩
        rw [gets_eq_zero (apart made paid.tickets)]
        exact Nat.zero_le _
      exact ⟨made, paid.payouts, paid.left, paid.paid,
        fun p mem => mem_cons_of_mem _ (paid.tickets p mem), .cons head paid.each⟩
    · simp only at ran
      split_ifs at ran with nothing
      · obtain ⟨⟨rest', y⟩, later, ran⟩ := bind_ok.1 ran
        cases pure_ok.1 ran
        obtain ⟨made, paid⟩ := ih once later
        exact ⟨made, paid.payouts, paid.left, paid.paid,
          fun p mem => mem_cons_of_mem _ (paid.tickets p mem),
          .cons (.none (apart made paid.tickets)) paid.each⟩
      · obtain ⟨y, one, ran⟩ := bind_ok.1 ran
        obtain ⟨⟨rest', z⟩, later, ran⟩ := bind_ok.1 ran
        cases pure_ok.1 ran
        obtain ⟨balance, period, rfl, -⟩ := payOne_ok one
        obtain ⟨made, paid⟩ := ih once later
        set pay := min (min q.remaining x.left)
          (outflowHeadroom view.outflow x.balance x.period view.nowMs) with pay_eq
        have part : pay ≤ q.remaining := by omega
        have within : pay ≤ x.left := by omega
        have left := paid.left
        simp only at left
        refine ⟨(q.ticket, pay) :: made, ?_, ?_, ?_, ?_, ?_⟩
        · rw [paid.payouts]
          simp
        · simp only [spent, map_cons, sum_cons] at left ⊢
          omega
        · intro fits
          have exact_sum : saturatingAdd 128 x.paid pay = x.paid + pay := min_eq_left (by omega)
          have total := paid.paid (by simp only [exact_sum]; omega)
          simp only [exact_sum] at total
          simp only [spent, map_cons, sum_cons] at total ⊢
          omega
        · intro p mem
          rcases mem_cons.1 mem with rfl | mem
          · exact mem_cons_self
          · exact mem_cons_of_mem _ (paid.tickets p mem)
        · refine .cons ⟨rfl, rfl, rfl, ?_⟩ ?_
          · have others := gets_eq_zero (apart made paid.tickets)
            have mine : gets ((q.ticket, pay) :: made) q.ticket = pay := by
              unfold gets at others ⊢
              simp [others]
            rw [mine]
            simp only
            omega
          · refine (forall₂_iff_get.2 ?_)
            obtain ⟨length, each⟩ := forall₂_iff_get.1 paid.each
            refine ⟨length, fun j h h' => (each j h h').cons_other ?_⟩
            intro same
            have mem : (rest.get ⟨j, h⟩).ticket ∈ rest.map QueuedPayment.ticket :=
              mem_map_of_mem (get_mem rest ⟨j, h⟩)
            exact fresh (by rw [show q.ticket = _ from same]; exact mem)

/-! ### No failure -/

theorem fundingMoveBalance_covered {b : Bytes → ℕ} {source dest : Bytes} {n pay : ℕ}
    (sums : SumsTo b n) (fits : n + pay ≤ maxValue 128) (covered : pay ≤ balanceOf b source) :
    ∃ b', fundingMoveBalance b source dest pay = .ok b' ∧ (∃ n', SumsTo b' n' ∧ n' ≤ n + pay) ∧
      balanceOf b source ≤ balanceOf b' source + pay := by
  have held := sums.le (AccountNames.account dest)
  have held' := sums.le (AccountNames.account source)
  have room : balanceOf b dest + pay ≤ maxValue 128 := by
    unfold balanceOf
    omega
  refine ⟨_, fundingMoveBalance_ok.2 ⟨covered, room, rfl⟩, ?_, ?_⟩
  · unfold balanceOf at covered ⊢
    unfold readFirst
    have debited : SumsTo (update b (AccountNames.account source)
        (b (AccountNames.account source) - pay)) (n - pay) := sums.update (by omega)
    by_cases same : AccountNames.account dest = AccountNames.account source
    · refine ⟨n + pay, ?_, le_rfl⟩
      rw [same]
      refine debited.update ?_
      rw [update_self]
      omega
    · refine ⟨n, ?_, Nat.le_add_right _ _⟩
      refine debited.update ?_
      rw [update_of_ne same]
      omega
  · unfold balanceOf readFirst
    by_cases same : AccountNames.account source = AccountNames.account dest
    · rw [same, update_self]
      omega
    · rw [update_of_ne same, update_self]
      omega

theorem payQueue_total {l : List QueuedPayment} {x : Paying} {n : ℕ} (sums : SumsTo x.balance n)
    (fits : n + x.left ≤ maxValue 128)
    (covered : x.left ≤ balanceOf x.balance TreasuryVaults.reserve) :
    ∃ out, payQueue view l x = .ok out := by
  induction l generalizing x n with
  | nil => exact ⟨_, rfl⟩
  | cons q rest ih =>
    unfold payQueue
    simp only
    split_ifs with done unapproved nothing
    · exact ⟨_, rfl⟩
    · obtain ⟨out, later⟩ := ih (x := { x with lapsed := true }) sums fits covered
      exact ⟨_, bind_ok.2 ⟨out, later, rfl⟩⟩
    · obtain ⟨out, later⟩ := ih sums fits covered
      exact ⟨_, bind_ok.2 ⟨out, later, rfl⟩⟩
    · set pay := min (min q.remaining x.left)
        (outflowHeadroom view.outflow x.balance x.period view.nowMs)
      have within : pay ≤ x.left := by omega
      have head : pay ≤ outflowHeadroom view.outflow x.balance x.period view.nowMs := by omega
      obtain ⟨period, counted⟩ := recordOutflow_ok (Nat.pos_of_ne_zero nothing) head
      obtain ⟨b', moved, ⟨n', sums', grew⟩, kept⟩ :=
        @fundingMoveBalance_covered _ _ _ q.recipient _ _ sums (by omega) (within.trans covered)
      have one : payOne view x q pay = .ok { x with
          balance := b', period := some period, left := x.left - pay,
          paid := saturatingAdd 128 x.paid pay, payouts := x.payouts ++ [(q.ticket, pay)] } :=
        bind_ok.2 ⟨period, counted, bind_ok.2 ⟨b', moved, rfl⟩⟩
      obtain ⟨out, later⟩ := ih (x := { x with
          balance := b', period := some period, left := x.left - pay,
          paid := saturatingAdd 128 x.paid pay, payouts := x.payouts ++ [(q.ticket, pay)] })
        sums' (by simp only; omega) (by simp only; omega)
      exact ⟨_, bind_ok.2 ⟨_, one, bind_ok.2 ⟨out, later, rfl⟩⟩⟩

namespace ReserveLedger
variable {s s' : ReserveLedger} {epoch : ℕ}

theorem beginBlock_total {n : ℕ} (sums : SumsTo s.balance n) (half : n < 2 ^ 127) :
    ∃ out, s.beginBlock view epoch = .ok out := by
  unfold beginBlock
  simp only
  split_ifs
  · exact ⟨_, rfl⟩
  · have fill_le : (s.plan view epoch).fill ≤ balanceOf s.balance TreasuryVaults.treasury :=
      planBoundary_fill_le
    have payout_le : (s.plan view epoch).payout ≤
        balanceOf s.balance TreasuryVaults.reserve + (s.plan view epoch).fill :=
      planBoundary_payout_le
    have treasury_le := sums.le (AccountNames.account TreasuryVaults.treasury)
    have apart := TreasuryVaults.apart
    have width : maxValue 128 = 2 ^ 128 - 1 := rfl
    obtain ⟨b, filled, ⟨sums', held⟩⟩ : ∃ b, s.fillReserve (s.plan view epoch).fill = .ok b ∧
        SumsTo b n ∧ balanceOf b TreasuryVaults.reserve =
          balanceOf s.balance TreasuryVaults.reserve + (s.plan view epoch).fill := by
      unfold fillReserve
      split_ifs with some_of_it
      · have reserve_le := sums.le (AccountNames.account TreasuryVaults.reserve)
        have room : balanceOf s.balance TreasuryVaults.reserve + (s.plan view epoch).fill ≤
            maxValue 128 := by
          unfold balanceOf at fill_le ⊢
          omega
        have moved := (BalanceMovers.readFirst_conserves
          (show _ ≤ s.balance (AccountNames.account TreasuryVaults.treasury) from fill_le)).2
            (by rw [if_neg apart])
        exact ⟨_, fundingMoveBalance_ok.2 ⟨fill_le, room, rfl⟩, moved.total n sums,
          moved.credited apart⟩
      · exact ⟨s.balance, rfl, sums, by omega⟩
    have reserve_le := sums'.le (AccountNames.account TreasuryVaults.reserve)
    obtain ⟨out, paid⟩ := @payQueue_total _ view (s.live epoch)
      { balance := b, period := s.period, left := (s.plan view epoch).payout,
        lapsed := (s.live epoch).length ≠ s.queue.length } n
      sums' (by simp only; unfold balanceOf at held payout_le; omega) (by simp only; omega)
    exact ⟨_, bind_ok.2 ⟨b, filled, bind_ok.2 ⟨out, paid, rfl⟩⟩⟩

end ReserveLedger

end

end Tenzro.Treasury
