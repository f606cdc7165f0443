import Tenzro.Apportionment
import Tenzro.ByteCodec
import Tenzro.Outcome

set_option autoImplicit false
set_option linter.dupNamespace false

/-!
# How a settlement's value is divided

The fee comes off the gross first, then the network fees, and the rule's lines share the rest:
the fixed lines in order, the basis-point lines by largest remainder, and the remainder line.
-/
namespace Tenzro.Split
open FixedWidth Outcome Ranking List Nat

def splitRuleVersion : ℕ := 1

def maxSplitLines : ℕ := 16

def maxSplitDidLen : ℕ := 256

def wholeBps : ℕ := 10000

inductive SplitRole where
  | payee
  | publisher
  | licensor
  | referrer
  | facilitator
  | relayer
  | solver
  | prover
  | refund
deriving DecidableEq

def SplitRole.isIntermediary : SplitRole → Bool
  | facilitator => true
  | relayer => true
  | _ => false

def SplitRole.tag : SplitRole → UInt8
  | payee => 0
  | publisher => 1
  | licensor => 2
  | referrer => 3
  | facilitator => 4
  | relayer => 5
  | solver => 6
  | prover => 7
  | refund => 8

abbrev Address := { b : Bytes // b.length = 32 }

inductive SplitRecipient where
  | address (account : Address)
  | didDerived (did : String)
  | legSubmitter

inductive SplitBasis where
  | bps (b : ℕ)
  | fixed (v : ℕ)
  | remainder
  deriving DecidableEq

structure SplitLine where
  role : SplitRole
  recipient : SplitRecipient
  basis : SplitBasis
  cap : Option ℕ

structure SplitRule where
  version : ℕ
  lines : List SplitLine

inductive SplitError where
  | rule (reason : String)
  | feesExceedGross (fees gross : ℕ)
  | intermediaryShare (maxBps : ℕ)

/-- What ends a division: a refusal, arithmetic that does not fit, or the assertion at its end. -/
inductive Failure where
  | refused (e : SplitError)
  | arithmetic
  | assertion

/-! ### The rule's shape -/

def countLine (s : ℕ × ℕ) (line : SplitLine) : Except SplitError (ℕ × ℕ) :=
  match line.basis with
  | .remainder => do
    ensure (line.cap = none) (SplitError.rule "the remainder line has no cap")
    pure (s.1 + 1, s.2)
  | .bps b => do
    ensure (b ≠ 0) (SplitError.rule "a basis-point line takes a positive share")
    pure (s.1, s.2 + b)
  | .fixed v => do
    ensure (v ≠ 0) (SplitError.rule "a fixed line takes a positive amount")
    pure s

def checkRecipient : SplitRecipient → Except SplitError Unit
  | .didDerived did =>
    ensure (did.utf8ByteSize ≠ 0 ∧ did.utf8ByteSize ≤ maxSplitDidLen)
      (.rule "a DID recipient is 1 to 256 bytes")
  | _ => pure ()

def checkLine (s : ℕ × ℕ) (line : SplitLine) : Except SplitError (ℕ × ℕ) := do
  let s ← countLine s line
  checkRecipient line.recipient
  pure s

def SplitRule.validate (rule : SplitRule) : Except SplitError Unit := do
  ensure (rule.version = splitRuleVersion) (SplitError.rule "unknown split rule version")
  ensure (rule.lines ≠ [] ∧ rule.lines.length ≤ maxSplitLines)
    (SplitError.rule "a split rule has 1 to 16 lines")
  let s ← rule.lines.foldlM checkLine (0, 0)
  ensure (s.1 = 1) (SplitError.rule "a split rule has exactly one remainder line")
  ensure (s.2 ≤ wholeBps) (SplitError.rule "basis-point lines sum to at most 10000")

/-! ### The fee -/

structure FeeParams where
  feeBps : ℕ
  minFee : ℕ
  burnBps : ℕ
  insuranceBps : ℕ

structure FeeAllocation where
  fee : ℕ
  burn : ℕ
  treasury : ℕ
  insurance : ℕ
  deriving DecidableEq

structure Allocation where
  gross : ℕ
  fee : FeeAllocation
  networkFees : ℕ
  net : ℕ
  credits : List ℕ
  deriving DecidableEq

def add (a b : ℕ) : Except Failure ℕ := Checked.add .arithmetic 128 a b

def mul (a b : ℕ) : Except Failure ℕ := Checked.mul .arithmetic 128 a b

def sub (a b : ℕ) : Except Failure ℕ := Checked.sub .arithmetic a b

def sum (l : List ℕ) : Except Failure ℕ := Checked.sum .arithmetic 128 l

/-- The share of a value in basis points, its multiples of 10000 first. -/
def bpsOf (value bps : ℕ) : Except Failure ℕ := do
  let wholes ← mul (value / wholeBps) bps
  let rest ← mul (value % wholeBps) bps
  add wholes (rest / wholeBps)

def feeAllocation (gross : ℕ) (params : FeeParams) : Except Failure FeeAllocation := do
  let charged ← bpsOf gross (min params.feeBps 10000)
  let fee := min (max charged params.minFee) gross
  let burn ← bpsOf fee (min params.burnBps 10000)
  let unburned ← sub fee burn
  let insurance ← bpsOf unburned (min params.insuranceBps 10000)
  let treasury ← sub unburned insurance
  pure ⟨fee, burn, treasury, insurance⟩

/-- Whether the parts sum to the gross exactly. -/
def Allocation.conserves (a : Allocation) : Bool :=
  let feeParts := do
    let parts ← add a.fee.burn a.fee.treasury
    add parts a.fee.insurance
  let whole := do
    let fees ← add a.fee.fee a.networkFees
    add fees a.net
  match feeParts, sum a.credits, whole with
  | .ok parts, .ok credits, .ok whole => parts = a.fee.fee ∧ credits = a.net ∧ whole = a.gross
  | _, _, _ => false

/-! ### The lines -/

def payFixed (s : List ℕ × ℕ) (line : SplitLine × ℕ) : Except Failure (List ℕ × ℕ) :=
  match line.1.basis with
  | .fixed v => do
    let take := min (min v (line.1.cap.getD (maxValue 128))) s.2
    let left ← sub s.2 take
    pure (s.1.set line.2 take, left)
  | _ => pure s

/-- The index and the basis points of a basis-point line. -/
def bpsLine (line : SplitLine × ℕ) : Option (ℕ × ℕ) :=
  match line.1.basis with
  | .bps b => some (line.2, b)
  | _ => none

def SplitRule.bpsLines (rule : SplitRule) : List (ℕ × ℕ) := rule.lines.zipIdx.filterMap bpsLine

/-- The credits with shares rounded down, their sum, and the fractions with their indices. -/
structure Floors where
  credits : List ℕ
  sum : ℕ
  fractions : List (ℕ × ℕ)

def payFloor (pool : ℕ) (s : Floors) (line : ℕ × ℕ) : Except Failure Floors := do
  let share ← bpsOf pool line.2
  let total ← add s.sum share
  let scaled ← mul (pool % wholeBps) line.2
  pure ⟨s.credits.set line.1 share, total, s.fractions ++ [(scaled % wholeBps, line.1)]⟩

/-- One unit more to each index in turn, while there are extra units. -/
def handOut : List (ℕ × ℕ) → ℕ → List ℕ → Except Failure (List ℕ)
  | [], _, credits => pure credits
  | _ :: _, 0, credits => pure credits
  | (_, i) :: fractions, extra + 1, credits => do
    let credit ← add (credits.getD i 0) 1
    handOut fractions extra (credits.set i credit)

def capLine (credits : List ℕ) (line : SplitLine × ℕ) : List ℕ :=
  match line.1.basis, line.1.cap with
  | .bps _, some cap => if cap < credits.getD line.2 0 then credits.set line.2 cap else credits
  | _, _ => credits

def payRest (net : ℕ) (lines : List SplitLine) (credits : List ℕ) : Except Failure (List ℕ) := do
  let paid ← sum credits
  match lines.findIdx? fun line => line.basis = .remainder with
  | some r => do
    let rest ← sub net paid
    pure (credits.set r rest)
  | none => pure credits

def divide (net : ℕ) (rule : SplitRule) : Except Failure (List ℕ) := do
  let fixed ← rule.lines.zipIdx.foldlM payFixed (replicate rule.lines.length 0, net)
  let pool := fixed.2
  let bpsSum ← sum (rule.bpsLines.map Prod.snd)
  let target ← bpsOf pool bpsSum
  let floors ← rule.bpsLines.foldlM (payFloor pool) ⟨fixed.1, 0, []⟩
  let extra ← sub target floors.sum
  let rounded ← handOut (largestFirst floors.fractions) extra floors.credits
  payRest net rule.lines (rule.lines.zipIdx.foldl capLine rounded)

def feesWithin (gross fee networkFees : ℕ) : Except Failure ℕ :=
  if fee + networkFees < 2 ^ 128 then
    if gross < fee + networkFees then
      .error (.refused (.feesExceedGross (fee + networkFees) gross))
    else .ok (fee + networkFees)
  else .error (.refused (.feesExceedGross (maxValue 128) gross))

def apply (gross : ℕ) (rule : SplitRule) (params : FeeParams) (networkFees : ℕ) :
    Except Failure Allocation := do
  rule.validate.mapError Failure.refused
  let fee ← feeAllocation gross params
  let fees ← feesWithin gross fee.fee networkFees
  let net ← sub gross fees
  let credits ← divide net rule
  let allocation : Allocation := ⟨gross, fee, networkFees, net, credits⟩
  ensure (allocation.conserves = true) .assertion
  pure allocation

/-! ### What validation gives -/

def bpsOfLine (line : SplitLine) : ℕ :=
  match line.basis with
  | .bps b => b
  | _ => 0

def bpsTotal (lines : List SplitLine) : ℕ := (lines.map bpsOfLine).sum

/-- A rule whose lines can be divided over. -/
structure Valid (rule : SplitRule) : Prop where
  one : rule.lines.countP (·.basis = .remainder) = 1
  bps : bpsTotal rule.lines ≤ wholeBps
  uncapped : ∀ line ∈ rule.lines, line.basis = .remainder → line.cap = none

theorem countLine_ok {s t : ℕ × ℕ} {line : SplitLine} (ran : countLine s line = .ok t) :
    t = (s.1 + [line].countP (·.basis = .remainder), s.2 + bpsOfLine line) ∧
      (line.basis = .remainder → line.cap = none) := by
  unfold countLine at ran
  unfold bpsOfLine
  cases basis : line.basis with
  | remainder =>
    simp only [basis] at ran
    obtain ⟨_, uncapped, ran⟩ := bind_ok.1 ran
    obtain rfl := pure_ok.1 ran
    exact ⟨by simp [basis], fun _ => ensure_ok.1 uncapped⟩
  | bps b =>
    simp only [basis] at ran
    obtain ⟨_, _, ran⟩ := bind_ok.1 ran
    obtain rfl := pure_ok.1 ran
    exact ⟨by simp [basis], nofun⟩
  | fixed v =>
    simp only [basis] at ran
    obtain ⟨_, _, ran⟩ := bind_ok.1 ran
    obtain rfl := pure_ok.1 ran
    exact ⟨by simp [basis], nofun⟩

theorem checkLines_ok {s t : ℕ × ℕ} {lines : List SplitLine}
    (ran : lines.foldlM checkLine s = .ok t) :
    t = (s.1 + lines.countP (·.basis = .remainder), s.2 + bpsTotal lines) ∧
      ∀ line ∈ lines, line.basis = .remainder → line.cap = none := by
  induction lines generalizing s with
  | nil =>
    obtain rfl := pure_ok.1 ran
    exact ⟨rfl, nofun⟩
  | cons line lines ih =>
    rw [foldlM_cons] at ran
    obtain ⟨s', checked, ran⟩ := bind_ok.1 ran
    obtain ⟨s'', counted, checked⟩ := bind_ok.1 checked
    obtain ⟨_, _, checked⟩ := bind_ok.1 checked
    obtain rfl := pure_ok.1 checked
    obtain ⟨rfl, uncapped⟩ := countLine_ok counted
    obtain ⟨rfl, rest⟩ := ih ran
    refine ⟨?_, forall_mem_cons.2 ⟨uncapped, rest⟩⟩
    have split : (line :: lines).countP (·.basis = .remainder) =
        [line].countP (·.basis = .remainder) + lines.countP (·.basis = .remainder) :=
      (countP_append : ([line] ++ lines).countP _ = _)
    rw [split, bpsTotal, bpsTotal, map_cons, sum_cons]
    simp only [Nat.add_assoc]

theorem valid_of_validate {rule : SplitRule} (ran : rule.validate = .ok ()) : Valid rule := by
  obtain ⟨_, _, ran⟩ := bind_ok.1 ran
  obtain ⟨_, _, ran⟩ := bind_ok.1 ran
  obtain ⟨s, checked, ran⟩ := bind_ok.1 ran
  obtain ⟨_, one, bounded⟩ := bind_ok.1 ran
  obtain ⟨rfl, uncapped⟩ := checkLines_ok checked
  have one := ensure_ok.1 one
  have bounded := ensure_ok.1 bounded
  simp only [Nat.zero_add] at one bounded
  exact ⟨one, bounded, uncapped⟩

/-! ### Shares of a value -/

theorem wholes_rest (value bps : ℕ) :
    value / wholeBps * bps + value % wholeBps * bps / wholeBps = value * bps / wholeBps := by
  have parts : value * bps = value % wholeBps * bps + wholeBps * (value / wholeBps * bps) := by
    conv_lhs => rw [← div_add_mod value wholeBps]
    ring
  rw [parts, add_mul_div_left _ _ (by decide), Nat.add_comm]

theorem fraction_eq (value bps : ℕ) :
    value % wholeBps * bps % wholeBps = value * bps % wholeBps := by
  rw [mod_mul_mod]

theorem share_le {bps : ℕ} (value : ℕ) (part : bps ≤ wholeBps) : value * bps / wholeBps ≤ value := by
  have most : value * bps ≤ value * wholeBps := Nat.mul_le_mul_left _ part
  exact Nat.div_le_of_le_mul (by rwa [Nat.mul_comm wholeBps])

section
variable {value bps : ℕ} (part : bps ≤ wholeBps)
include part

theorem rest_fits : value % wholeBps * bps < 2 ^ 128 := by
  have small : value % wholeBps < wholeBps := mod_lt _ (by decide)
  have bound : value % wholeBps * bps ≤ wholeBps * wholeBps := Nat.mul_le_mul small.le part
  unfold wholeBps at *
  omega

theorem bpsOf_eq (fits : value < 2 ^ 128) : bpsOf value bps = .ok (value * bps / wholeBps) := by
  have whole := wholes_rest value bps
  have most := share_le value part
  have wholes : value / wholeBps * bps ≤ value :=
    (Nat.le_add_right _ _).trans (whole.trans_le most)
  unfold bpsOf mul add
  rw [Checked.mul_ok (wholes.trans_lt fits)]
  change Checked.mul _ _ _ _ >>= _ = _
  rw [Checked.mul_ok (rest_fits part)]
  change Checked.add _ _ _ _ = _
  rw [Checked.add_ok ((whole.trans_le most).trans_lt fits), whole]

end

theorem bpsOf_part {value : ℕ} (fits : value < 2 ^ 128) (bps : ℕ) :
    ∃ share ≤ value, bpsOf value (min bps 10000) = .ok share :=
  ⟨_, share_le value (min_le_right _ _), bpsOf_eq (min_le_right _ _) fits⟩

theorem feeAllocation_ok {gross : ℕ} (fits : gross < 2 ^ 128) (params : FeeParams) :
    ∃ fee, feeAllocation gross params = .ok fee ∧ fee.fee ≤ gross ∧
      fee.burn + fee.treasury + fee.insurance = fee.fee := by
  obtain ⟨charge, -, charged⟩ := bpsOf_part fits params.feeBps
  have within : min (max charge params.minFee) gross ≤ gross := min_le_right _ _
  obtain ⟨burn, part, burned⟩ := bpsOf_part (within.trans_lt fits) params.burnBps
  have unburned : min (max charge params.minFee) gross - burn < 2 ^ 128 := by omega
  obtain ⟨insurance, rest, insured⟩ := bpsOf_part unburned params.insuranceBps
  refine ⟨_, bind_ok.2 ⟨_, charged, bind_ok.2 ⟨_, burned, bind_ok.2 ⟨_, Checked.sub_ok part,
    bind_ok.2 ⟨_, insured, bind_ok.2 ⟨_, Checked.sub_ok rest, rfl⟩⟩⟩⟩⟩, within, ?_⟩
  simp only
  omega

/-! ### What the lines of a kind are paid -/

def paidTo (kind : SplitBasis → Bool) (lines : List SplitLine) (credits : List ℕ) : ℕ :=
  (zipWith (fun line credit => if kind line.basis then credit else 0) lines credits).sum

def isFixed : SplitBasis → Bool
  | .fixed _ => true
  | _ => false

def isBps : SplitBasis → Bool
  | .bps _ => true
  | _ => false

section
variable {kind : SplitBasis → Bool} {line : SplitLine} {lines : List SplitLine} {credits : List ℕ}
  {credit i : ℕ}

@[simp] theorem paidTo_cons : paidTo kind (line :: lines) (credit :: credits) =
    (if kind line.basis then credit else 0) + paidTo kind lines credits := by
  simp [paidTo]

theorem paidTo_all (same : credits.length = lines.length) :
    paidTo (fun _ => true) lines credits = credits.sum := by
  induction lines generalizing credits with
  | nil =>
    obtain rfl := eq_nil_of_length_eq_zero same
    rfl
  | cons line lines ih =>
    obtain _ | ⟨credit, credits⟩ := credits
    · cases same
    · rw [paidTo_cons, sum_cons, ih (by simpa using same), if_pos rfl]

theorem paidTo_set (kind : SplitBasis → Bool) (v : ℕ) (at_i : lines[i]? = some line) (within : i < credits.length) :
    paidTo kind lines (credits.set i v) + (if kind line.basis then credits.getD i 0 else 0) =
      paidTo kind lines credits + if kind line.basis then v else 0 := by
  induction lines generalizing credits i with
  | nil => cases at_i
  | cons head lines ih =>
    obtain _ | ⟨credit, credits⟩ := credits
    · cases within
    · cases i with
      | zero =>
        obtain rfl := Option.some.inj at_i
        simp only [set_cons_zero, paidTo_cons, getD_cons_zero]
        omega
      | succ i =>
        have rest := ih at_i (lt_of_succ_lt_succ within)
        simp only [set_cons_succ, paidTo_cons, getD_cons_succ]
        omega

end

/-! ### The fixed lines -/

def fixedTake (line : SplitLine) (left : ℕ) : ℕ :=
  match line.basis with
  | .fixed v => min (min v (line.cap.getD (maxValue 128))) left
  | _ => 0

def fixedTakes : List SplitLine → ℕ → List ℕ
  | [], _ => []
  | line :: lines, left =>
    fixedTake line left :: fixedTakes lines (left - fixedTake line left)

theorem fixedTake_le (line : SplitLine) (left : ℕ) : fixedTake line left ≤ left := by
  unfold fixedTake
  split
  · exact min_le_right _ _
  · exact Nat.zero_le _

theorem length_fixedTakes (lines : List SplitLine) (left : ℕ) :
    (fixedTakes lines left).length = lines.length := by
  induction lines generalizing left with
  | nil => rfl
  | cons line lines ih => rw [fixedTakes, length_cons, ih, length_cons]

theorem sum_fixedTakes_le (lines : List SplitLine) (left : ℕ) :
    (fixedTakes lines left).sum ≤ left := by
  induction lines generalizing left with
  | nil => exact Nat.zero_le _
  | cons line lines ih =>
    have first := fixedTake_le line left
    have rest := ih (left - fixedTake line left)
    rw [fixedTakes, sum_cons]
    omega

theorem payFixed_step (line : SplitLine) (done rest : List ℕ) (left : ℕ) :
    payFixed (done ++ 0 :: rest, left) (line, done.length) =
      .ok (done ++ fixedTake line left :: rest, left - fixedTake line left) := by
  unfold payFixed fixedTake
  cases basis : line.basis with
  | fixed v =>
    simp only [sub, Checked.sub_ok (min_le_right _ _)]
    change Except.ok _ = _
    rw [set_append_right _ _ le_rfl, Nat.sub_self, set_cons_zero]
  | bps b => rfl
  | remainder => rfl

theorem payFixed_run (lines : List SplitLine) (done : List ℕ) (left : ℕ) :
    (lines.zipIdx done.length).foldlM payFixed (done ++ replicate lines.length 0, left) =
      .ok (done ++ fixedTakes lines left, left - (fixedTakes lines left).sum) := by
  induction lines generalizing done left with
  | nil => rfl
  | cons line lines ih =>
    have rest := ih (done ++ [fixedTake line left]) (left - fixedTake line left)
    rw [length_append, length_singleton] at rest
    rw [zipIdx_cons, foldlM_cons, length_cons, replicate_succ, payFixed_step]
    change foldlM _ _ _ = _
    simp only [append_assoc, cons_append, nil_append] at rest
    rw [rest, fixedTakes, sum_cons, Nat.sub_sub]

/-! ### Shares rounded down -/

def floorOf (pool : ℕ) (line : SplitLine) : ℕ := pool * bpsOfLine line / wholeBps

def withFloor (pool : ℕ) (line : SplitLine) (credit : ℕ) : ℕ :=
  if isBps line.basis then floorOf pool line else credit

/-- What rounding down leaves of a basis-point line's share, with its index. -/
def fractionOf (pool : ℕ) (line : SplitLine × ℕ) : Option (ℕ × ℕ) :=
  if isBps line.1.basis then some (pool * bpsOfLine line.1 % wholeBps, line.2) else none

theorem floorOf_eq_zero (pool : ℕ) {line : SplitLine} (other : isBps line.basis = false) :
    floorOf pool line = 0 := by
  unfold floorOf bpsOfLine
  split
  · rename_i basis
    rw [basis] at other
    cases other
  · rw [Nat.mul_zero, Nat.zero_div]

theorem bpsTotal_cons (line : SplitLine) (lines : List SplitLine) :
    bpsTotal (line :: lines) = bpsOfLine line + bpsTotal lines := rfl

theorem bpsLine_eq (line : SplitLine) (i : ℕ) :
    bpsLine (line, i) = if isBps line.basis then some (i, bpsOfLine line) else none := by
  unfold bpsLine isBps bpsOfLine
  cases line.basis <;> rfl

theorem payFloor_step {pool b total : ℕ} (fits : pool < 2 ^ 128) (part : b ≤ wholeBps)
    (bounded : total + pool * b / wholeBps < 2 ^ 128) (done rest : List ℕ) (credit : ℕ)
    (fractions : List (ℕ × ℕ)) :
    payFloor pool ⟨done ++ credit :: rest, total, fractions⟩ (done.length, b) =
      .ok ⟨done ++ pool * b / wholeBps :: rest, total + pool * b / wholeBps,
        fractions ++ [(pool * b % wholeBps, done.length)]⟩ := by
  refine bind_ok.2 ⟨_, bpsOf_eq part fits, bind_ok.2 ⟨_, Checked.add_ok bounded,
    bind_ok.2 ⟨_, Checked.mul_ok (rest_fits part), pure_ok.2 ?_⟩⟩⟩
  rw [fraction_eq, set_append_right _ _ le_rfl, Nat.sub_self, set_cons_zero]

theorem payFloor_run {pool : ℕ} (fits : pool < 2 ^ 128) (lines : List SplitLine)
    (part : bpsTotal lines ≤ wholeBps) (done credits : List ℕ) (total : ℕ)
    (fractions : List (ℕ × ℕ)) (same : credits.length = lines.length)
    (bounded : total + (lines.map (floorOf pool)).sum < 2 ^ 128) :
    ((lines.zipIdx done.length).filterMap bpsLine).foldlM (payFloor pool)
        ⟨done ++ credits, total, fractions⟩ =
      .ok ⟨done ++ zipWith (withFloor pool) lines credits,
        total + (lines.map (floorOf pool)).sum,
        fractions ++ (lines.zipIdx done.length).filterMap (fractionOf pool)⟩ := by
  induction lines generalizing done credits total fractions with
  | nil =>
    obtain rfl := eq_nil_of_length_eq_zero same
    simp [Pure.pure, Except.pure]
  | cons line lines ih =>
    obtain _ | ⟨credit, credits⟩ := credits
    · cases same
    rw [bpsTotal_cons] at part
    rw [map_cons, sum_cons, ← Nat.add_assoc] at bounded
    rw [zipIdx_cons, zipWith_cons_cons, map_cons, sum_cons, filterMap_cons,
      filterMap_cons, bpsLine_eq, fractionOf, withFloor]
    have next : (done ++ [withFloor pool line credit]).length = done.length + 1 := by simp
    have rest := fun fractions => ih (by omega) (done ++ [withFloor pool line credit]) credits
      (total + floorOf pool line) fractions (by simpa using same) bounded
    rw [next, withFloor] at rest
    simp only [append_assoc, cons_append, nil_append] at rest
    by_cases paid : isBps line.basis = true
    · have first : payFloor pool ⟨done ++ credit :: credits, total, fractions⟩
          (done.length, bpsOfLine line) = .ok ⟨done ++ floorOf pool line :: credits,
            total + floorOf pool line,
            fractions ++ [(pool * bpsOfLine line % wholeBps, done.length)]⟩ :=
        payFloor_step fits (by omega) (by unfold floorOf at bounded; omega) ..
      simp only [paid, if_true, foldlM_cons, first] at rest ⊢
      change foldlM _ _ _ = _
      rw [rest, append_assoc, singleton_append, Nat.add_assoc]
    · have nothing := floorOf_eq_zero pool (Bool.eq_false_iff.2 paid)
      simp only [paid, nothing] at rest ⊢
      simpa using rest fractions

/-! ### The largest fractions -/

section
variable {pool : ℕ} {lines : List SplitLine}

theorem floors_fractions (pool : ℕ) (lines : List SplitLine) (k : ℕ) :
    wholeBps * (lines.map (floorOf pool)).sum +
      (((lines.zipIdx k).filterMap (fractionOf pool)).map Prod.fst).sum =
        pool * bpsTotal lines := by
  induction lines generalizing k with
  | nil => rfl
  | cons line lines ih =>
    have parts := div_add_mod (pool * bpsOfLine line) wholeBps
    have rest := ih (k + 1)
    rw [zipIdx_cons, filterMap_cons, map_cons, sum_cons, bpsTotal_cons,
      Nat.mul_add, Nat.mul_add, fractionOf]
    by_cases paid : isBps line.basis = true
    · simp only [paid, if_true, map_cons, sum_cons, floorOf] at rest ⊢
      omega
    · have nothing := floorOf_eq_zero pool (Bool.eq_false_iff.2 paid)
      have none : bpsOfLine line = 0 := by
        unfold bpsOfLine
        split
        · rename_i basis
          rw [basis] at paid
          exact absurd rfl paid
        · rfl
      simp only [paid, nothing, none] at rest ⊢
      simpa using rest

theorem mem_fractions {k : ℕ} {e : ℕ × ℕ}
    (mem : e ∈ (lines.zipIdx k).filterMap (fractionOf pool)) : ∃ line, (line, e.2) ∈ lines.zipIdx k ∧
      isBps line.basis = true ∧ e.1 = pool * bpsOfLine line % wholeBps := by
  obtain ⟨⟨line, i⟩, there, made⟩ := mem_filterMap.1 mem
  unfold fractionOf at made
  split_ifs at made with paid
  obtain rfl := Option.some.inj made
  exact ⟨line, there, paid, rfl⟩

theorem nodup_indices : ((lines.zipIdx.filterMap (fractionOf pool)).map Prod.snd).Nodup := by
  have part : ((lines.zipIdx.filterMap (fractionOf pool)).map Prod.snd).Sublist
      (lines.zipIdx.map Prod.snd) := by
    generalize lines.zipIdx = l
    induction l with
    | nil => exact .slnil
    | cons e l ih =>
      rw [filterMap_cons, fractionOf, map_cons]
      by_cases paid : isBps e.1.basis = true
      · simp only [paid, if_true, map_cons]
        exact ih.cons_cons _
      · simp only [paid]
        exact ih.cons _
  refine part.nodup ?_
  rw [zipIdx_map_snd]
  exact nodup_range'

/-- What rounding down leaves over goes to lines that were rounded down. -/
theorem extra_le (pool : ℕ) (lines : List SplitLine) :
    (lines.map (floorOf pool)).sum ≤ pool * bpsTotal lines / wholeBps ∧
      pool * bpsTotal lines / wholeBps - (lines.map (floorOf pool)).sum ≤
        (lines.zipIdx.filterMap (fractionOf pool)).countP fun e => 0 < e.1 := by
  have parts := floors_fractions pool lines 0
  have most := sum_lt_countP (t := wholeBps)
    ((lines.zipIdx.filterMap (fractionOf pool)).map Prod.fst) fun x mem => by
      obtain ⟨e, there, rfl⟩ := mem_map.1 mem
      obtain ⟨line, _, _, value⟩ := mem_fractions there
      rw [value]
      exact mod_lt _ (by decide)
  rw [countP_map] at most
  simp only [Function.comp_def] at most
  generalize (lines.zipIdx.filterMap (fractionOf pool)).countP (fun e => 0 < e.1) = count at most ⊢
  unfold wholeBps at *
  omega

end

/-! ### Units handed out -/

theorem set_next (credits : List ℕ) (i : ℕ) :
    credits.set i (credits.getD i 0 + 1) = credits.modify i (· + 1) := by
  rw [modify_eq_set, getD_eq_getElem?_getD]
  rfl

theorem sum_modify {credits : List ℕ} {i : ℕ} (inside : i < credits.length) :
    (credits.modify i (· + 1)).sum = credits.sum + 1 := by
  induction credits generalizing i with
  | nil => cases inside
  | cons credit credits ih =>
    cases i with
    | zero =>
      rw [modify_zero_cons, sum_cons, sum_cons]
      omega
    | succ i => rw [modify_succ_cons, sum_cons, ih (lt_of_succ_lt_succ inside),
        sum_cons, Nat.add_assoc]

theorem handOut_eq (l : List (ℕ × ℕ)) (extra : ℕ) (credits : List ℕ)
    (within : ∀ e ∈ l, e.2 < credits.length) (bounded : credits.sum + extra < 2 ^ 128) :
    handOut l extra credits =
      .ok ((l.take extra).foldl (fun credits e => credits.modify e.2 (· + 1)) credits) := by
  induction l generalizing extra credits with
  | nil => rw [take_nil]; rfl
  | cons e l ih =>
    cases extra with
    | zero => rfl
    | succ extra =>
      have inside := within e mem_cons_self
      have part : credits.getD e.2 0 ≤ credits.sum := by
        rw [getD_eq_getElem _ _ inside]
        exact le_sum_of_mem (getElem_mem inside)
      have raised := sum_modify inside
      refine bind_ok.2 ⟨_, Checked.add_ok (by omega), ?_⟩
      rw [set_next, take_succ_cons, foldl_cons]
      refine ih extra _ (fun e' mem => ?_) (by omega)
      rw [length_modify]
      exact within e' (mem_cons_of_mem _ mem)

theorem paidTo_handed {kind : SplitBasis → Bool} {lines : List SplitLine} {k : Bool}
    (l : List (ℕ × ℕ)) (credits : List ℕ) (same : credits.length = lines.length)
    (places : ∀ e ∈ l, ∃ line, lines[e.2]? = some line ∧ kind line.basis = k) :
    paidTo kind lines (l.foldl (fun credits e => credits.modify e.2 (· + 1)) credits) =
      paidTo kind lines credits + if k then l.length else 0 := by
  induction l generalizing credits with
  | nil => simp
  | cons e l ih =>
    obtain ⟨⟨line, there, own⟩, places⟩ := forall_mem_cons.1 places
    have inside : e.2 < credits.length := by
      rw [same]
      exact (List.getElem?_eq_some_iff.1 there).1
    have once := paidTo_set kind (credits.getD e.2 0 + 1) there inside
    rw [foldl_cons, ih _ (by rw [length_modify, same]) places, ← set_next,
      length_cons]
    rw [own] at once
    cases k
    · simpa using once
    · simp only [if_true] at once ⊢
      omega

theorem length_handed (l : List (ℕ × ℕ)) (credits : List ℕ) :
    (l.foldl (fun credits e => credits.modify e.2 (· + 1)) credits).length = credits.length := by
  induction l generalizing credits with
  | nil => rfl
  | cons e l ih => rw [foldl_cons, ih, length_modify]

/-! ### Caps -/

def capped (line : SplitLine) (credit : ℕ) : ℕ :=
  if isBps line.basis then min credit (line.cap.getD credit) else credit

theorem capLine_step (line : SplitLine) (done rest : List ℕ) (credit : ℕ) :
    capLine (done ++ credit :: rest) (line, done.length) = done ++ capped line credit :: rest := by
  have there : (done ++ credit :: rest).getD done.length 0 = credit := by
    rw [getD_eq_getElem?_getD, getElem?_append_right le_rfl, Nat.sub_self]
    rfl
  unfold capLine capped isBps
  cases line.basis with
  | remainder => rfl
  | fixed v => rfl
  | bps b =>
    cases line.cap with
    | none => simp
    | some cap =>
      simp only [there]
      split_ifs with above
      · simp [above.le]
      · simp [not_lt.1 above]

theorem capLine_run (lines : List SplitLine) (done credits : List ℕ)
    (same : credits.length = lines.length) :
    (lines.zipIdx done.length).foldl capLine (done ++ credits) =
      done ++ zipWith capped lines credits := by
  induction lines generalizing done credits with
  | nil =>
    obtain rfl := eq_nil_of_length_eq_zero same
    rfl
  | cons line lines ih =>
    obtain _ | ⟨credit, credits⟩ := credits
    · cases same
    have rest := ih (done ++ [capped line credit]) credits (by simpa using same)
    rw [length_append, length_singleton, append_assoc, append_assoc] at rest
    rw [zipIdx_cons, foldl_cons, capLine_step, zipWith_cons_cons]
    exact rest

theorem capped_le (line : SplitLine) (credit : ℕ) : capped line credit ≤ credit := by
  unfold capped
  split_ifs
  · exact min_le_left _ _
  · exact le_rfl

section
variable {lines : List SplitLine} {credits : List ℕ}

theorem sum_capped_le : (zipWith capped lines credits).sum ≤ credits.sum := by
  induction lines generalizing credits with
  | nil => exact Nat.zero_le _
  | cons line lines ih =>
    obtain _ | ⟨credit, credits⟩ := credits
    · exact le_rfl
    · rw [zipWith_cons_cons, sum_cons, sum_cons]
      exact Nat.add_le_add (capped_le line credit) ih

theorem fixed_capped :
    paidTo isFixed lines (zipWith capped lines credits) = paidTo isFixed lines credits := by
  induction lines generalizing credits with
  | nil => rfl
  | cons line lines ih =>
    obtain _ | ⟨credit, credits⟩ := credits
    · rfl
    · rw [zipWith_cons_cons, paidTo_cons, paidTo_cons, ih, capped]
      cases line.basis <;> simp [isFixed, isBps]

end

/-! ### What the lines are owed -/

theorem paid_floors (pool : ℕ) (lines : List SplitLine) (left : ℕ) :
    let credits := zipWith (withFloor pool) lines (fixedTakes lines left)
    paidTo isBps lines credits = (lines.map (floorOf pool)).sum ∧
      paidTo isFixed lines credits = (fixedTakes lines left).sum ∧
      credits.sum = (fixedTakes lines left).sum + (lines.map (floorOf pool)).sum := by
  induction lines generalizing left with
  | nil => exact ⟨rfl, rfl, rfl⟩
  | cons line lines ih =>
    obtain ⟨floors, takes, all⟩ := ih (left - fixedTake line left)
    simp only [fixedTakes, zipWith_cons_cons, paidTo_cons, map_cons, sum_cons]
    rw [floors, takes, all]
    cases basis : line.basis <;>
      simp [withFloor, isBps, isFixed, basis, fixedTake, floorOf, bpsOfLine] <;> omega

def Owed (pool : ℕ) (line : SplitLine) (share credit : ℕ) : Prop :=
  (∀ cap, line.cap = some cap → credit ≤ cap) ∧
    match line.basis with
    | .bps b => (share = pool * b / wholeBps ∨ share = pool * b ⌈/⌉ wholeBps) ∧
        credit = min share (line.cap.getD share)
    | .fixed v => credit ≤ v
    | .remainder => True

/-- The net is divided without a rest: every line is credited what it is owed, and the shares of
the basis-point lines before their caps make up the rounded-down share of them all. -/
structure Divides (net : ℕ) (rule : SplitRule) (credits : List ℕ) : Prop where
  length : credits.length = rule.lines.length
  sum : credits.sum = net
  lines : ∃ shares : List ℕ, shares.length = rule.lines.length ∧
    paidTo isBps rule.lines shares =
      (net - paidTo isFixed rule.lines credits) * bpsTotal rule.lines / wholeBps ∧
    ∀ (i : ℕ) (line : SplitLine) (share credit : ℕ), rule.lines[i]? = some line →
      shares[i]? = some share → credits[i]? = some credit →
        Owed (net - paidTo isFixed rule.lines credits) line share credit

def Takes (line : SplitLine) (credit : ℕ) : Prop :=
  match line.basis with
  | .fixed v => credit ≤ v ∧ ∀ cap, line.cap = some cap → credit ≤ cap
  | _ => credit = 0

theorem takes_fixedTake (line : SplitLine) (left : ℕ) : Takes line (fixedTake line left) := by
  unfold Takes fixedTake
  cases line.basis with
  | fixed v =>
    refine ⟨(min_le_left _ _).trans (min_le_left _ _), fun cap own => ?_⟩
    rw [own]
    exact (min_le_left _ _).trans (min_le_right _ _)
  | bps b => rfl
  | remainder => rfl

theorem takes_fixedTakes {lines : List SplitLine} {left i credit : ℕ} {line : SplitLine}
    (there : lines[i]? = some line) (paid : (fixedTakes lines left)[i]? = some credit) :
    Takes line credit := by
  induction lines generalizing left i with
  | nil => cases there
  | cons head lines ih =>
    cases i with
    | zero =>
      obtain rfl := Option.some.inj there
      obtain rfl := Option.some.inj paid
      exact takes_fixedTake _ _
    | succ i => exact ih there paid

/-! ### The division -/

/-- Credits with the extra units handed out and no caps yet. -/
def rounded (pool : ℕ) (lines : List SplitLine) (takes : List ℕ) : List ℕ :=
  ((largestFirst (lines.zipIdx.filterMap (fractionOf pool))).take
    (pool * bpsTotal lines / wholeBps - (lines.map (floorOf pool)).sum)).foldl
      (fun credits e => credits.modify e.2 (· + 1)) (zipWith (withFloor pool) lines takes)

def raised (pool : ℕ) (lines : List SplitLine) : List ℕ :=
  ((largestFirst (lines.zipIdx.filterMap (fractionOf pool))).take
    (pool * bpsTotal lines / wholeBps - (lines.map (floorOf pool)).sum)).map Prod.snd

section
variable {pool : ℕ} {lines : List SplitLine} {takes : List ℕ}

theorem place_of_fraction {e : ℕ × ℕ}
    (mem : e ∈ largestFirst (lines.zipIdx.filterMap (fractionOf pool))) :
    ∃ line, lines[e.2]? = some line ∧ isBps line.basis = true ∧
      e.1 = pool * bpsOfLine line % wholeBps := by
  obtain ⟨line, there, paid, value⟩ := mem_fractions ((largestFirst_perm _).mem_iff.1 mem)
  exact ⟨line, mk_mem_zipIdx_iff_getElem?.1 there, paid, value⟩

theorem length_rounded (same : takes.length = lines.length) :
    (rounded pool lines takes).length = lines.length := by
  rw [rounded, length_handed, length_zipWith, same, min_self]

theorem paidTo_rounded {kind : SplitBasis → Bool} {k : Bool} (same : takes.length = lines.length)
    (own : ∀ b, kind (.bps b) = k) : paidTo kind lines (rounded pool lines takes) =
      paidTo kind lines (zipWith (withFloor pool) lines takes) +
        if k then pool * bpsTotal lines / wholeBps - (lines.map (floorOf pool)).sum else 0 := by
  have few := (extra_le pool lines).2.trans countP_le_length
  rw [← (largestFirst_perm _).length_eq] at few
  rw [rounded, paidTo_handed (k := k) _ _ (by rw [length_zipWith, same, min_self]),
    length_take, min_eq_left few]
  intro e mem
  obtain ⟨line, there, paid, -⟩ := place_of_fraction (mem_of_mem_take mem)
  refine ⟨line, there, ?_⟩
  cases basis : line.basis with
  | bps b => exact own b
  | fixed v => rw [basis] at paid; cases paid
  | remainder => rw [basis] at paid; cases paid

theorem rounded_at {i take : ℕ} {line : SplitLine} (there : lines[i]? = some line)
    (before : takes[i]? = some take) : (rounded pool lines takes)[i]? =
      some (withFloor pool line take + if i ∈ raised pool lines then 1 else 0) := by
  have nodup : ((largestFirst (lines.zipIdx.filterMap (fractionOf pool))).map Prod.snd).Nodup := by
    rw [((largestFirst_perm _).map Prod.snd).nodup_iff]
    exact nodup_indices
  rw [rounded, getElem?_foldl_modify _ (nodup.sublist ((take_sublist ..).map _)),
    getElem?_zipWith, there, before]
  rfl

theorem getElem?_rounded {i share : ℕ} {line : SplitLine} (there : lines[i]? = some line)
    (at_i : (rounded pool lines takes)[i]? = some share) :
    (isBps line.basis = true ∧ (share = pool * bpsOfLine line / wholeBps ∨
      share = pool * bpsOfLine line ⌈/⌉ wholeBps)) ∨
    (isBps line.basis = false ∧ takes[i]? = some share) := by
  cases before : takes[i]? with
  | none =>
    have few : takes.length ≤ i := List.getElem?_eq_none_iff.1 before
    have inside := (List.getElem?_eq_some_iff.1 at_i).1
    rw [rounded, length_handed, length_zipWith] at inside
    omega
  | some take =>
    rw [rounded_at there before, Option.some.injEq] at at_i
    have raised (mem : i ∈ raised pool lines) :
        isBps line.basis = true ∧ 0 < pool * bpsOfLine line % wholeBps := by
      obtain ⟨e, taken, rfl⟩ := mem_map.1 mem
      obtain ⟨line', same, paid, value⟩ := place_of_fraction (mem_of_mem_take taken)
      obtain rfl := Option.some.inj (there.symm.trans same)
      rw [← value]
      exact ⟨paid, pos_of_mem_take (Nodup.of_map _ nodup_indices) (extra_le pool lines).2 taken⟩
    by_cases paid : isBps line.basis = true
    · refine .inl ⟨paid, ?_⟩
      rw [withFloor, if_pos paid, floorOf] at at_i
      split_ifs at at_i with up
      · right
        have rest := (raised up).2
        rw [← at_i, ceilDiv_eq_add_pred_div]
        unfold wholeBps at *
        omega
      · exact .inl at_i.symm
    · have other := Bool.eq_false_iff.2 paid
      rw [withFloor, if_neg paid, if_neg fun up => paid (raised up).1] at at_i
      exact .inr ⟨other, congrArg some at_i⟩

end

theorem sum_bpsLines (lines : List SplitLine) (k : ℕ) :
    (((lines.zipIdx k).filterMap bpsLine).map Prod.snd).sum = bpsTotal lines := by
  induction lines generalizing k with
  | nil => rfl
  | cons line lines ih =>
    rw [zipIdx_cons, filterMap_cons, bpsLine_eq, bpsTotal_cons, ← ih (k + 1)]
    cases basis : line.basis <;> simp [isBps, bpsOfLine, basis]

theorem Valid.remainder {rule : SplitRule} (valid : Valid rule) :
    ∃ r line, rule.lines.findIdx? (fun line => line.basis = .remainder) = some r ∧
      rule.lines[r]? = some line ∧ line.basis = .remainder := by
  have some : rule.lines.any (fun line => line.basis = .remainder) = true := by
    rw [any_eq_true]
    exact countP_pos_iff.1 (by rw [valid.one]; exact Nat.one_pos)
  rw [← findIdx?_isSome, Option.isSome_iff_exists] at some
  obtain ⟨r, found⟩ := some
  obtain ⟨inside, own, -⟩ := findIdx?_eq_some_iff_getElem.1 found
  exact ⟨r, _, found, getElem?_eq_getElem inside, of_decide_eq_true own⟩

theorem payRest_ok {net r : ℕ} {lines : List SplitLine} {credits : List ℕ} (fits : net < 2 ^ 128)
    (found : lines.findIdx? (fun line => line.basis = .remainder) = some r)
    (within : credits.sum ≤ net) :
    payRest net lines credits = .ok (credits.set r (net - credits.sum)) := by
  refine bind_ok.2 ⟨_, Checked.sum_ok (within.trans_lt fits), ?_⟩
  rw [found]
  exact bind_ok.2 ⟨_, Checked.sub_ok within, rfl⟩

def poolOf (net : ℕ) (lines : List SplitLine) : ℕ := net - (fixedTakes lines net).sum

def cappedCredits (net : ℕ) (lines : List SplitLine) : List ℕ :=
  zipWith capped lines (rounded (poolOf net lines) lines (fixedTakes lines net))

theorem getElem?_capped {net i credit : ℕ} {lines : List SplitLine} {line : SplitLine}
    (there : lines[i]? = some line) (at_i : (cappedCredits net lines)[i]? = some credit) :
    ∃ share, (rounded (poolOf net lines) lines (fixedTakes lines net))[i]? = some share ∧
      credit = capped line share := by
  rw [cappedCredits, getElem?_zipWith, there] at at_i
  cases share : (rounded (poolOf net lines) lines (fixedTakes lines net))[i]? with
  | none => rw [share] at at_i; cases at_i
  | some amount =>
    rw [share] at at_i
    exact ⟨amount, rfl, (Option.some.inj at_i).symm⟩

theorem capped_remainder {net i credit : ℕ} {lines : List SplitLine} {line : SplitLine}
    (there : lines[i]? = some line) (own : line.basis = .remainder)
    (at_i : (cappedCredits net lines)[i]? = some credit) : credit = 0 := by
  obtain ⟨share, at_share, rfl⟩ := getElem?_capped there at_i
  rcases getElem?_rounded there at_share with ⟨paid, -⟩ | ⟨-, taken⟩
  · rw [own] at paid
    cases paid
  · have nothing := takes_fixedTakes there taken
    rw [Takes, own] at nothing
    simp [capped, own, isBps, nothing]

theorem owed_capped {net i share credit : ℕ} {lines : List SplitLine} {line : SplitLine}
    (there : lines[i]? = some line) (other : line.basis ≠ .remainder)
    (at_share : (rounded (poolOf net lines) lines (fixedTakes lines net))[i]? = some share)
    (at_i : (cappedCredits net lines)[i]? = some credit) :
    Owed (poolOf net lines) line share credit := by
  obtain ⟨share', same, rfl⟩ := getElem?_capped there at_i
  obtain rfl := Option.some.inj (at_share.symm.trans same)
  rcases getElem?_rounded there at_share with ⟨paid, value⟩ | ⟨unpaid, taken⟩
  · cases basis : line.basis with
    | bps b =>
      simp only [bpsOfLine, basis] at value
      simp only [Owed, capped, basis, isBps, if_true]
      refine ⟨fun cap own => ?_, value, trivial⟩
      rw [own]
      exact min_le_right _ _
    | fixed v => rw [basis] at paid; cases paid
    | remainder => exact absurd basis other
  · have took := takes_fixedTakes there taken
    cases basis : line.basis with
    | bps b => rw [basis] at unpaid; cases unpaid
    | fixed v =>
      simp only [Takes, basis] at took
      simpa [Owed, capped, basis, isBps] using ⟨took.2, took.1⟩
    | remainder => exact absurd basis other

section
variable {rule : SplitRule} {net : ℕ} (fits : net < 2 ^ 128) (valid : Valid rule)
include fits valid

theorem divide_run : ∃ r line, rule.lines[r]? = some line ∧ line.basis = .remainder ∧
    (cappedCredits net rule.lines).sum ≤ net ∧
    divide net rule = .ok ((cappedCredits net rule.lines).set r
      (net - (cappedCredits net rule.lines).sum)) := by
  obtain ⟨r, line, found, there, own⟩ := valid.remainder
  refine ⟨r, line, there, own, ?_⟩
  unfold cappedCredits poolOf
  have takes_le := sum_fixedTakes_le rule.lines net
  have same := length_fixedTakes rule.lines net
  generalize pool_eq : net - (fixedTakes rule.lines net).sum = pool
  obtain ⟨floors_le, few⟩ := extra_le pool rule.lines
  obtain ⟨-, -, first⟩ := paid_floors pool rule.lines net
  have target_le := share_le pool valid.bps
  have fixed := payFixed_run rule.lines [] net
  have floors := payFloor_run (show pool < 2 ^ 128 by omega) rule.lines valid.bps []
    (fixedTakes rule.lines net) 0 [] same (by omega)
  simp only [length_nil, nil_append, Nat.zero_add, pool_eq] at fixed floors
  have handed := handOut_eq (largestFirst (rule.lines.zipIdx.filterMap (fractionOf pool)))
    (pool * bpsTotal rule.lines / wholeBps - (rule.lines.map (floorOf pool)).sum)
    (zipWith (withFloor pool) rule.lines (fixedTakes rule.lines net)) (fun e mem => by
      obtain ⟨line, there, -⟩ := place_of_fraction mem
      rw [length_zipWith, same, min_self]
      exact (List.getElem?_eq_some_iff.1 there).1) (by omega)
  have total : (rounded pool rule.lines (fixedTakes rule.lines net)).sum ≤ net := by
    have all : paidTo (fun _ => true) rule.lines (rounded pool _ _) = _ :=
      paidTo_rounded (k := true) same fun _ => rfl
    rw [paidTo_all (length_rounded same), paidTo_all (by rw [length_zipWith, same, min_self]),
      first] at all
    simp only [if_true] at all
    omega
  have paid_le : (zipWith capped rule.lines
      (rounded pool rule.lines (fixedTakes rule.lines net))).sum ≤ net := sum_capped_le.trans total
  have caps := capLine_run rule.lines [] (rounded pool rule.lines (fixedTakes rule.lines net))
    (length_rounded same)
  simp only [length_nil, nil_append] at caps
  have part : bpsTotal rule.lines < 2 ^ 128 := valid.bps.trans_lt (by decide)
  have summed : sum (rule.bpsLines.map Prod.snd) = .ok (bpsTotal rule.lines) := by
    rw [← sum_bpsLines rule.lines 0] at part ⊢
    exact Checked.sum_ok part
  refine ⟨paid_le, bind_ok.2 ⟨_, fixed, bind_ok.2 ⟨_, summed, bind_ok.2 ⟨_,
    bpsOf_eq valid.bps (by omega), bind_ok.2 ⟨_, floors, bind_ok.2 ⟨_, Checked.sub_ok floors_le,
    bind_ok.2 ⟨_, handed, ?_⟩⟩⟩⟩⟩⟩⟩
  change payRest net rule.lines (List.foldl capLine (rounded pool _ _) _) = _
  rw [caps]
  exact payRest_ok fits found paid_le

theorem divide_ok : ∃ credits, divide net rule = .ok credits ∧ Divides net rule credits := by
  obtain ⟨r, line, there, own, within, ran⟩ := divide_run fits valid
  refine ⟨_, ran, ?_⟩
  have takes_len := length_fixedTakes rule.lines net
  have same : (cappedCredits net rule.lines).length = rule.lines.length := by
    rw [cappedCredits, length_zipWith, length_rounded takes_len, min_self]
  have inside : r < (cappedCredits net rule.lines).length := by
    rw [same]
    exact (List.getElem?_eq_some_iff.1 there).1
  have empty : (cappedCredits net rule.lines).getD r 0 = 0 := by
    rw [getD_eq_getElem _ _ inside]
    exact capped_remainder there own (getElem?_eq_getElem inside)
  have fixed : paidTo isFixed rule.lines ((cappedCredits net rule.lines).set r
      (net - (cappedCredits net rule.lines).sum)) = (fixedTakes rule.lines net).sum := by
    have kept := paidTo_set isFixed (net - (cappedCredits net rule.lines).sum) there inside
    have taken : paidTo isFixed rule.lines (rounded (poolOf net rule.lines) _ _) = _ :=
      paidTo_rounded (k := false) takes_len fun _ => rfl
    rw [own] at kept
    rw [(paid_floors (poolOf net rule.lines) rule.lines net).2.1] at taken
    rw [cappedCredits, fixed_capped] at kept
    exact kept.trans taken
  have length : ((cappedCredits net rule.lines).set r
      (net - (cappedCredits net rule.lines).sum)).length = rule.lines.length := by
    rw [length_set, same]
  refine ⟨length, ?_, rounded (poolOf net rule.lines) rule.lines (fixedTakes rule.lines net),
    length_rounded takes_len, ?_, ?_⟩
  · have all := paidTo_set (fun _ => true) (net - (cappedCredits net rule.lines).sum) there inside
    rw [paidTo_all length, paidTo_all same, empty] at all
    simp only [if_true] at all
    omega
  · have shared : paidTo isBps rule.lines (rounded (poolOf net rule.lines) _ _) = _ :=
      paidTo_rounded (k := true) takes_len fun _ => rfl
    have below := (extra_le (poolOf net rule.lines) rule.lines).1
    rw [(paid_floors (poolOf net rule.lines) rule.lines net).1, if_pos rfl] at shared
    rw [shared, fixed]
    change _ = poolOf net rule.lines * _ / _
    omega
  · intro i line' share credit there' at_share at_i
    rw [fixed]
    rw [getElem?_set] at at_i
    by_cases last : line'.basis = .remainder
    · refine ⟨fun cap own => ?_, by rw [last]; trivial⟩
      rw [valid.uncapped line' (mem_of_getElem? there') last] at own
      cases own
    · split_ifs at at_i with same_i
      · subst same_i
        rw [there] at there'
        obtain rfl := Option.some.inj there'
        exact absurd own last
      · exact owed_capped there' last at_share at_i

end

/-! ### The whole division -/

theorem conserves_of {a : Allocation} (fits : a.gross < 2 ^ 128)
    (parts : a.fee.burn + a.fee.treasury + a.fee.insurance = a.fee.fee)
    (credits : a.credits.sum = a.net) (whole : a.fee.fee + a.networkFees + a.net = a.gross) :
    a.conserves = true := by
  have burned : add a.fee.burn a.fee.treasury = .ok (a.fee.burn + a.fee.treasury) :=
    Checked.add_ok (by omega)
  have insured : add (a.fee.burn + a.fee.treasury) a.fee.insurance =
    .ok (a.fee.burn + a.fee.treasury + a.fee.insurance) := Checked.add_ok (by omega)
  have paid : sum a.credits = .ok a.credits.sum := Checked.sum_ok (by omega)
  have fees : add a.fee.fee a.networkFees = .ok (a.fee.fee + a.networkFees) :=
    Checked.add_ok (by omega)
  have all : add (a.fee.fee + a.networkFees) a.net = .ok (a.fee.fee + a.networkFees + a.net) :=
    Checked.add_ok (by omega)
  have first : (add a.fee.burn a.fee.treasury >>= fun parts => add parts a.fee.insurance) = _ :=
    bind_ok.2 ⟨_, burned, insured⟩
  have last : (add a.fee.fee a.networkFees >>= fun fees => add fees a.net) = _ :=
    bind_ok.2 ⟨_, fees, all⟩
  unfold Allocation.conserves
  rw [first, paid, last]
  simp [parts, credits, whole]

/-- The fee depends on the gross and the parameters alone. Under a valid rule the fees exceed the
gross and nothing is divided, or what they leave is divided without a rest. -/
theorem apply_divides {gross : ℕ} (fits : gross < 2 ^ 128) (params : FeeParams) :
    ∃ fee, feeAllocation gross params = .ok fee ∧
      fee.burn + fee.treasury + fee.insurance = fee.fee ∧
      ∀ (rule : SplitRule) (networkFees : ℕ), rule.validate = .ok () →
        (gross < fee.fee + networkFees → apply gross rule params networkFees =
          .error (.refused (.feesExceedGross (min (fee.fee + networkFees) (maxValue 128)) gross))) ∧
        (fee.fee + networkFees ≤ gross → ∃ credits, apply gross rule params networkFees =
            .ok ⟨gross, fee, networkFees, gross - (fee.fee + networkFees), credits⟩ ∧
          Divides (gross - (fee.fee + networkFees)) rule credits) := by
  obtain ⟨fee, charged, -, parts⟩ := feeAllocation_ok fits params
  refine ⟨fee, charged, parts, fun rule networkFees validated => ?_⟩
  have passed : rule.validate.mapError Failure.refused = .ok () := by
    rw [validated]
    rfl
  constructor
  · intro above
    have refused : feesWithin gross fee.fee networkFees = .error (.refused (.feesExceedGross
        (min (fee.fee + networkFees) (maxValue 128)) gross)) := by
      unfold feesWithin maxValue
      by_cases narrow : fee.fee + networkFees < 2 ^ 128
      · rw [if_pos narrow, if_pos above, Nat.min_eq_left (by omega)]
      · rw [if_neg narrow, Nat.min_eq_right (by omega)]
    exact bind_error.2 (.inr ⟨_, passed, bind_error.2 (.inr ⟨_, charged,
      bind_error.2 (.inl refused)⟩)⟩)
  · intro covered
    have within : feesWithin gross fee.fee networkFees = .ok (fee.fee + networkFees) := by
      unfold feesWithin
      rw [if_pos (covered.trans_lt fits), if_neg covered.not_gt]
    obtain ⟨credits, divided, owed⟩ := divide_ok
      (((sub_le gross (fee.fee + networkFees))).trans_lt fits) (valid_of_validate validated)
    refine ⟨credits, bind_ok.2 ⟨_, passed, bind_ok.2 ⟨_, charged, bind_ok.2 ⟨_, within,
      bind_ok.2 ⟨_, Checked.sub_ok covered, bind_ok.2 ⟨_, divided, bind_ok.2 ⟨(), ?_, rfl⟩⟩⟩⟩⟩⟩,
      owed⟩
    refine ensure_ok.2 (conserves_of fits parts owed.sum ?_)
    simp only
    omega

namespace Sample

def params : FeeParams := ⟨250, 5, 4000, 2500⟩

def account : Address := ⟨replicate 32 1, length_replicate⟩

/-- A fixed line, two basis-point lines, one of them capped, and the rest. -/
def rule : SplitRule :=
  ⟨1, [⟨.relayer, .legSubmitter, .fixed 100, none⟩,
    ⟨.publisher, .didDerived "did:tenzro:a", .bps 3333, none⟩,
    ⟨.facilitator, .address account, .bps 3334, some 250⟩,
    ⟨.payee, .address account, .remainder, none⟩]⟩

theorem divides_sample :
    ∃ credits, apply 1000 rule params 20 = .ok ⟨1000, ⟨25, 10, 12, 3⟩, 20, 955, credits⟩ ∧
      Divides 955 rule credits := by
  obtain ⟨fee, charged, -, each⟩ := apply_divides (show 1000 < 2 ^ 128 by decide) params
  obtain rfl : ⟨25, 10, 12, 3⟩ = fee := Except.ok.inj ((show _ = Except.ok _ from rfl).symm.trans charged)
  exact (each rule 20 rfl).2 (by decide)

end Sample

end Tenzro.Split
