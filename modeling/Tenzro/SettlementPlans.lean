import Tenzro.BridgeRoute
import Tenzro.SettlementLegs

set_option autoImplicit false
set_option linter.dupNamespace false

/-!
# Leg receipts

A plan is opened with its legs and decided once. What a plan moves in balances,
and whether its moves succeed, is an input.
-/
namespace Tenzro.Settlement
open ByteCodec ProofVerifiers Outcome List Function
open Bridge (BridgeRouteAdapter)

/-- What a leg's evidence is worth. -/
inductive LegClass where
  | native
  | proven
  | attested
deriving DecidableEq, Repr

def LegClass.rank : LegClass → ℕ
  | native => 0
  | proven => 1
  | attested => 2

def LegClass.satisfies (c required : LegClass) : Bool := decide (c.rank ≤ required.rank)

inductive LegKind where
  | nativeTransfer
  | netted
  | ibcTransfer
  | remoteLock (adapter : BridgeRouteAdapter) (chain : String) (amount : ℕ)
  | hashLocked
  | railInstruction
deriving DecidableEq, Repr

structure PlanLeg where
  kind : LegKind
  classRequired : LegClass
  usdE6 : ℕ
deriving DecidableEq, Repr

inductive PlanStatus where
  | opened
  | committed
  | aborted
deriving DecidableEq, Repr

inductive SplitRole where
  | payee
  | publisher
  | licensor
  | referrer
  | facilitator
  | relayer
  | solver
  | prover
  | refund
deriving DecidableEq, Repr

inductive SplitRecipient where
  | address (a : Bytes)
  | didDerived (did : String)
  | legSubmitter
deriving DecidableEq, Repr

structure SplitLine where
  role : SplitRole
  recipient : SplitRecipient
deriving DecidableEq, Repr

structure PlanDecision where
  commit : Bool
  decidedAtMs : ℕ
  decidedBy : Bytes
deriving DecidableEq, Repr

structure SettlementPlan where
  planId : Word
  openedBy : Bytes
  split : List SplitLine
  legs : List PlanLeg
  decideDeadlineMs : ℕ
  status : PlanStatus
  achieved : List (Option LegClass)
  decision : Option PlanDecision
deriving DecidableEq, Repr

inductive LegProgress where
  | reached (c : LegClass)
  | failed (reason : String)
  | pending
deriving DecidableEq, Repr

structure PlanView where
  nowMs : ℕ
  horizon : ℕ
  evaluate : SettlementPlan → ℕ → LegProgress
  opens : Bool
  commits : SettlementPlan → Bool
  aborts : SettlementPlan → Bool
  confirms : SettlementPlan → ℕ → Bool
  /-- Whether evidence is recorded, and then whether it revealed a preimage. -/
  evidence : SettlementPlan → ℕ → Option Bool

inductive PlanError where
  | deadline
  | exists
  | missing
  | decided
  | noSuchLeg
  | reached
  | refused
  | notSettling
  | unrevealed
  | noEvidence
deriving DecidableEq, Repr

def isRail (plan : SettlementPlan) (index : ℕ) : Bool :=
  decide ((plan.legs[index]?).map PlanLeg.kind = some .railInstruction)

def legReached (plan : SettlementPlan) (index : ℕ) : Bool := (plan.achieved.getD index none).isSome

def commit (v : PlanView) (plan : SettlementPlan) (decidedBy : Bytes) :
    Except PlanError SettlementPlan := do
  ensure (v.commits plan) PlanError.refused
  return { plan with status := .committed, decision := some ⟨true, v.nowMs, decidedBy⟩ }

def abort (v : PlanView) (plan : SettlementPlan) (decidedBy : Bytes) :
    Except PlanError SettlementPlan := do
  ensure (v.aborts plan) PlanError.refused
  return { plan with status := .aborted, decision := some ⟨false, v.nowMs, decidedBy⟩ }

def evaluateLegs (v : PlanView) : List ℕ → SettlementPlan → SettlementPlan × Bool
  | [], plan => (plan, true)
  | i :: rest, plan =>
    if legReached plan i then evaluateLegs v rest plan
    else
      match v.evaluate plan i with
      | .pending => evaluateLegs v rest plan
      | .failed _ => (plan, false)
      | .reached c =>
        if (plan.legs[i]?).all fun l => c.satisfies l.classRequired then
          evaluateLegs v rest { plan with achieved := plan.achieved.set i (some c) }
        else (plan, false)

/-- Commits when every leg is reached, aborts when one failed. -/
def advance (v : PlanView) (plan : SettlementPlan) (sender : Bytes) :
    Except PlanError SettlementPlan :=
  match evaluateLegs v (range plan.legs.length) plan with
  | (plan, false) => abort v plan sender
  | (plan, true) =>
    if (range plan.legs.length).all fun i => legReached plan i || isRail plan i then
      commit v plan sender
    else .ok plan

abbrev Plans := Word → Option SettlementPlan

inductive PlanOp where
  | opened (planId : Word) (payer : Bytes) (split : List SplitLine) (legs : List PlanLeg)
    (decideDeadlineMs : ℕ)
  | proveLeg (planId : Word) (index : ℕ) (evidence : Bool) (sender : Bytes)
  /-- The plans whose deadline passed, or whose agent lost its authority. -/
  | abortAll (planIds : List Word)
deriving DecidableEq, Repr

def openPlan (v : PlanView) (plans : Plans) (planId : Word) (payer : Bytes) (split : List SplitLine)
    (legs : List PlanLeg) (decideDeadlineMs : ℕ) : Except PlanError Plans := do
  ensure (¬(decideDeadlineMs ≤ v.nowMs ∨ decideDeadlineMs - v.nowMs > v.horizon)) PlanError.deadline
  ensure (plans planId = none) PlanError.exists
  ensure v.opens PlanError.refused
  let plan : SettlementPlan :=
    ⟨planId, payer, split, legs, decideDeadlineMs, .opened, legs.map fun _ => none, none⟩
  let plan ← advance v plan payer
  ensure (plan.status ≠ .aborted) PlanError.notSettling
  return update plans planId (some plan)

/-- Records a leg's evidence; whether it revealed a preimage. -/
def recordEvidence (v : PlanView) (plan : SettlementPlan) (index : ℕ) (evidence : Bool) :
    Except PlanError Bool :=
  if evidence then
    match v.evidence plan index with
    | none => .error .refused
    | some revealed => .ok revealed
  else .ok false

def proveOpen (v : PlanView) (plan : SettlementPlan) (index : ℕ) (evidence : Bool)
    (sender : Bytes) : Except PlanError SettlementPlan := do
  let revealed ← recordEvidence v plan index evidence
  let next ← advance v plan sender
  ensure (¬(revealed ∧ next.status ≠ .committed)) PlanError.unrevealed
  let funded := evidence && !revealed
  ensure (¬(next.status = .opened ∧ next.achieved = plan.achieved ∧ ¬ funded)) PlanError.noEvidence
  return next

def confirmRail (v : PlanView) (plan : SettlementPlan) (index : ℕ) :
    Except PlanError SettlementPlan := do
  ensure (plan.status = .committed ∧ v.confirms plan index) PlanError.refused
  return { plan with achieved := plan.achieved.set index (some .attested) }

/-- A rail leg is confirmed, a late plan aborts, another leg is proven. -/
def proveOne (v : PlanView) (plan : SettlementPlan) (index : ℕ) (evidence : Bool)
    (sender : Bytes) : Except PlanError SettlementPlan :=
  if isRail plan index then confirmRail v plan index
  else if v.nowMs > plan.decideDeadlineMs then abort v plan sender
  else proveOpen v plan index evidence sender

def proveLeg (v : PlanView) (plans : Plans) (planId : Word) (index : ℕ) (evidence : Bool)
    (sender : Bytes) : Except PlanError Plans :=
  match plans planId with
  | none => .error .missing
  | some plan => do
    ensure (¬(plan.status ≠ .opened ∧ ¬ isRail plan index)) PlanError.decided
    ensure (index < plan.legs.length) PlanError.noSuchLeg
    ensure (¬ legReached plan index) PlanError.reached
    let next ← proveOne v plan index evidence sender
    return update plans planId (some next)

def abortOne (v : PlanView) (plans : Plans) (planId : Word) : Except PlanError Plans :=
  match plans planId with
  | none => .ok plans
  | some plan =>
    if plan.status = .opened then do
      let next ← abort v plan (replicate 32 0)
      return update plans planId (some next)
    else .ok plans

def executePlan (v : PlanView) (plans : Plans) : PlanOp → Except PlanError Plans
  | .opened planId payer split legs decideDeadlineMs =>
    openPlan v plans planId payer split legs decideDeadlineMs
  | .proveLeg planId index evidence sender => proveLeg v plans planId index evidence sender
  | .abortAll planIds => planIds.foldlM (abortOne v) plans

/-! ### What a plan keeps -/

/-- A later version of a plan: its terms are the same, and so is its decision once taken. -/
structure Later (p p' : SettlementPlan) : Prop where
  planId : p'.planId = p.planId
  openedBy : p'.openedBy = p.openedBy
  split : p'.split = p.split
  legs : p'.legs = p.legs
  decision : p.decision ≠ none → p'.decision = p.decision

def Grows (plans plans' : Plans) : Prop :=
  ∀ id p, plans id = some p → ∃ p', plans' id = some p' ∧ Later p p'

/-- Each plan is kept under its own id, and is open exactly while undecided. -/
def WellKept (plans : Plans) : Prop :=
  ∀ id p, plans id = some p → p.planId = id ∧ (p.status = .opened ↔ p.decision = none)

section
variable {v : PlanView} {plans plans' : Plans} {p p' q : SettlementPlan} {sender : Bytes} {id : Word}

theorem Later.refl (p : SettlementPlan) : Later p p := ⟨rfl, rfl, rfl, rfl, fun _ => rfl⟩

theorem Later.trans (first : Later p p') (second : Later p' q) : Later p q where
  planId := second.planId.trans first.planId
  openedBy := second.openedBy.trans first.openedBy
  split := second.split.trans first.split
  legs := second.legs.trans first.legs
  decision decided := by
    have same := first.decision decided
    exact (second.decision (same ▸ decided)).trans same

theorem Grows.refl (plans : Plans) : Grows plans plans := fun _ p held => ⟨p, held, Later.refl p⟩

theorem Grows.trans {plans'' : Plans} (first : Grows plans plans') (second : Grows plans' plans'') :
    Grows plans plans'' := by
  intro id p held
  obtain ⟨p', held', later'⟩ := first id p held
  obtain ⟨q, held'', later''⟩ := second id p' held'
  exact ⟨q, held'', later'.trans later''⟩

theorem Grows.update (held : plans id = some p) (later : Later p p') :
    Grows plans (update plans id (some p')) := by
  intro id' q at_id
  by_cases same : id' = id
  · subst same
    rw [held] at at_id
    cases at_id
    exact ⟨p', update_self .., later⟩
  · exact ⟨q, (update_of_ne same ..).trans at_id, Later.refl q⟩

/-- A plan an operation decides or leaves open. -/
structure Advanced (p p' : SettlementPlan) : Prop where
  later : Later p p'
  decided : p'.status = .opened ↔ p'.decision = none

theorem commit_advanced (undecided : p.decision = none) (ran : commit v p sender = .ok p') :
    Advanced p p' := by
  obtain ⟨_, -, ran⟩ := bind_ok.1 ran
  obtain rfl := pure_ok.1 ran
  exact ⟨⟨rfl, rfl, rfl, rfl, fun decided => absurd undecided decided⟩, nofun, nofun⟩

theorem abort_advanced (undecided : p.decision = none) (ran : abort v p sender = .ok p') :
    Advanced p p' := by
  obtain ⟨_, -, ran⟩ := bind_ok.1 ran
  obtain rfl := pure_ok.1 ran
  exact ⟨⟨rfl, rfl, rfl, rfl, fun decided => absurd undecided decided⟩, nofun, nofun⟩

theorem evaluateLegs_later (is : List ℕ) (undecided : p.decision = none) :
    Later p (evaluateLegs v is p).1 ∧ (evaluateLegs v is p).1.decision = none ∧
      (evaluateLegs v is p).1.status = p.status := by
  induction is generalizing p with
  | nil => exact ⟨Later.refl p, undecided, rfl⟩
  | cons i rest ih =>
    unfold evaluateLegs
    split_ifs with reached
    · exact ih undecided
    · cases v.evaluate p i with
      | pending => exact ih undecided
      | failed reason => exact ⟨Later.refl p, undecided, rfl⟩
      | reached c =>
        simp only
        split_ifs
        · obtain ⟨later, still, same⟩ :=
            @ih { p with achieved := p.achieved.set i (some c) } undecided
          exact ⟨⟨later.planId, later.openedBy, later.split, later.legs,
            fun decided => absurd undecided decided⟩, still, same⟩
        · exact ⟨Later.refl p, undecided, rfl⟩

theorem advance_advanced (opened : p.status = .opened) (undecided : p.decision = none)
    (ran : advance v p sender = .ok p') : Advanced p p' := by
  obtain ⟨later, still, same⟩ := evaluateLegs_later (v := v) (range p.legs.length) undecided
  unfold advance at ran
  cases evaluated : evaluateLegs v (range p.legs.length) p with
  | mk next whole =>
    rw [evaluated] at later still same
    simp only [evaluated] at ran
    cases whole with
    | false =>
      obtain ⟨after, decided⟩ := abort_advanced still ran
      exact ⟨later.trans after, decided⟩
    | true =>
      simp only at ran
      split_ifs at ran
      · obtain ⟨after, decided⟩ := commit_advanced still ran
        exact ⟨later.trans after, decided⟩
      · cases ran
        exact ⟨later, iff_of_true (same.trans opened) still⟩

theorem proveOpen_advanced {index : ℕ} {evidence : Bool} (opened : p.status = .opened)
    (undecided : p.decision = none) (ran : proveOpen v p index evidence sender = .ok p') :
    Advanced p p' := by
  obtain ⟨_, -, ran⟩ := bind_ok.1 ran
  obtain ⟨next, advanced, ran⟩ := bind_ok.1 ran
  obtain ⟨_, -, ran⟩ := bind_ok.1 ran
  obtain ⟨_, -, ran⟩ := bind_ok.1 ran
  obtain rfl := pure_ok.1 ran
  exact advance_advanced opened undecided advanced

structure PlansKept (plans plans' : Plans) : Prop where
  grows : Grows plans plans'
  kept : WellKept plans'

theorem PlansKept.write (kept : WellKept plans) (held : plans id = some p) (advanced : Advanced p p') :
    PlansKept plans (update plans id (some p')) := by
  refine ⟨Grows.update held advanced.later, fun id' q at_id => ?_⟩
  by_cases same : id' = id
  · subst same
    rw [update_self] at at_id
    cases at_id
    exact ⟨advanced.later.planId.trans (kept id' p held).1, advanced.decided⟩
  · rw [update_of_ne same] at at_id
    exact kept id' q at_id

theorem openPlan_kept (kept : WellKept plans) {payer : Bytes} {split : List SplitLine}
    {legs : List PlanLeg} {deadline : ℕ}
    (ran : openPlan v plans id payer split legs deadline = .ok plans') : PlansKept plans plans' := by
  obtain ⟨_, -, ran⟩ := bind_ok.1 ran
  obtain ⟨_, fresh, ran⟩ := bind_ok.1 ran
  obtain ⟨_, -, ran⟩ := bind_ok.1 ran
  obtain ⟨plan, advanced, ran⟩ := bind_ok.1 ran
  obtain ⟨_, -, ran⟩ := bind_ok.1 ran
  obtain rfl := pure_ok.1 ran
  have fresh := ensure_ok.1 fresh
  have advanced := advance_advanced rfl rfl advanced
  refine ⟨fun id' q held => ?_, fun id' q held => ?_⟩
  · have other : id' ≠ id := by
      rintro rfl
      rw [fresh] at held
      cases held
    exact ⟨q, (update_of_ne other ..).trans held, Later.refl q⟩
  · by_cases same : id' = id
    · subst same
      rw [update_self] at held
      cases held
      exact ⟨advanced.later.planId, advanced.decided⟩
    · rw [update_of_ne same] at held
      exact kept id' q held

theorem proveLeg_kept (kept : WellKept plans) {index : ℕ} {evidence : Bool}
    (ran : proveLeg v plans id index evidence sender = .ok plans') : PlansKept plans plans' := by
  unfold proveLeg at ran
  cases held : plans id with
  | none =>
    simp only [held] at ran
    cases ran
  | some p =>
    simp only [held] at ran
    simp only [bind_ok] at ran
    obtain ⟨_, undecided, _, -, _, -, next, moved, ran⟩ := ran
    obtain rfl := pure_ok.1 ran
    have status := (kept id p held).2
    unfold proveOne at moved
    split_ifs at moved with rail late
    · obtain ⟨_, -, moved⟩ := bind_ok.1 moved
      obtain rfl := pure_ok.1 moved
      exact PlansKept.write kept held ⟨⟨rfl, rfl, rfl, rfl, fun _ => rfl⟩, status⟩
    · have opened : p.status = .opened := by
        by_contra other
        exact ensure_ok.1 undecided ⟨other, rail⟩
      exact PlansKept.write kept held (abort_advanced (status.1 opened) moved)
    · have opened : p.status = .opened := by
        by_contra other
        exact ensure_ok.1 undecided ⟨other, rail⟩
      exact PlansKept.write kept held (proveOpen_advanced opened (status.1 opened) moved)

theorem abortOne_kept (kept : WellKept plans) (ran : abortOne v plans id = .ok plans') :
    PlansKept plans plans' := by
  unfold abortOne at ran
  cases held : plans id with
  | none =>
    simp only [held] at ran
    cases ran
    exact ⟨Grows.refl plans, kept⟩
  | some p =>
    simp only [held] at ran
    split_ifs at ran with opened
    · obtain ⟨next, moved, ran⟩ := bind_ok.1 ran
      obtain rfl := pure_ok.1 ran
      exact PlansKept.write kept held (abort_advanced ((kept id p held).2.1 opened) moved)
    · cases ran
      exact ⟨Grows.refl plans, kept⟩

theorem abortAll_kept {ids : List Word} (kept : WellKept plans)
    (ran : ids.foldlM (abortOne v) plans = .ok plans') : PlansKept plans plans' := by
  induction ids generalizing plans with
  | nil =>
    have same := pure_ok.1 ran
    rw [← same]
    exact ⟨Grows.refl plans, kept⟩
  | cons id rest ih =>
    rw [foldlM_cons] at ran
    obtain ⟨next, first, ran⟩ := bind_ok.1 ran
    have first := abortOne_kept kept first
    have second := ih first.kept ran
    exact ⟨first.grows.trans second.grows, second.kept⟩

theorem executePlan_kept {op : PlanOp} (kept : WellKept plans)
    (ran : executePlan v plans op = .ok plans') : PlansKept plans plans' := by
  cases op with
  | opened planId payer split legs deadline => exact openPlan_kept kept ran
  | proveLeg planId index evidence sender => exact proveLeg_kept kept ran
  | abortAll planIds => exact abortAll_kept kept ran

end

abbrev U64 := Fin (256 ^ 8)

abbrev U128 := Fin (256 ^ 16)

structure LegReceipt where
  planId : Word
  legId : Word
  index : UInt8
  committed : Bool
  classAchieved : Option LegClass
  amount : U128
  proofDigest : Option Word
  decidedAtMs : U64
  compensation : Option U128
  networkFee : U128
  relayer : Option Word
deriving DecidableEq

namespace LegReceipt

def version : UInt8 := 1

abbrev len : ℕ := 189

def outcomeByte (committed : Bool) : UInt8 := if committed then 1 else 2

def classByte : Option LegClass → UInt8
  | none => 0
  | some .native => 1
  | some .proven => 2
  | some .attested => 3

def flagsByte (digest compensation relayer : Bool) : UInt8 :=
  digest.toUInt8 ||| (compensation.toUInt8 <<< 1) ||| (relayer.toUInt8 <<< 2)

def wordOrZero (w : Option Word) : Bytes := w.elim (replicate 32 0) Subtype.val

def encode (r : LegReceipt) : Bytes :=
  [version, outcomeByte r.committed, r.index, classByte r.classAchieved,
    flagsByte r.proofDigest.isSome r.compensation.isSome r.relayer.isSome] ++
  (beBytes 8 r.decidedAtMs ++ (r.planId.1 ++ (r.legId.1 ++ (beBytes 16 r.amount ++
  (beBytes 16 r.networkFee ++ (beBytes 16 (r.compensation.getD 0) ++
  (wordOrZero r.proofDigest ++ wordOrZero r.relayer)))))))

abbrev Record := Fixed len

def slice (b : Record) (start n : ℕ) (within : start + n ≤ len) : Fixed n :=
  ⟨(b.1.drop start).take n, by
    have whole := b.2
    rw [length_take, length_drop]
    omega⟩

def number {n : ℕ} (b : Fixed n) : Fin (256 ^ n) :=
  ⟨ofBeBytes b.1, (ofBeBytes_lt b.1).trans_eq (congrArg (256 ^ ·) b.2)⟩

def outcome? : UInt8 → Option Bool
  | 1 => some true
  | 2 => some false
  | _ => none

def class? : UInt8 → Option (Option LegClass)
  | 0 => some none
  | 1 => some (some .native)
  | 2 => some (some .proven)
  | 3 => some (some .attested)
  | _ => none

def byteAt (b : Record) (i : Fin len) : UInt8 := b.1.get (i.cast b.2.symm)

def bitSet (v bit : UInt8) : Bool := v &&& (1 <<< bit) ≠ 0

def flag (b : Record) (bit : UInt8) : Bool := bitSet (byteAt b 4) bit

def decodeRecord (b : Record) : Option LegReceipt :=
  if byteAt b 0 ≠ version ∨ byteAt b 4 &&& ~~~7 ≠ 0 then none
  else do
    let committed ← outcome? (byteAt b 1)
    let classAchieved ← class? (byteAt b 3)
    return {
      committed
      index := byteAt b 2
      classAchieved
      decidedAtMs := number (slice b 5 8 (by decide))
      planId := slice b 13 32 (by decide)
      legId := slice b 45 32 (by decide)
      amount := number (slice b 77 16 (by decide))
      networkFee := number (slice b 93 16 (by decide))
      compensation := if flag b 1 then some (number (slice b 109 16 (by decide))) else none
      proofDigest := if flag b 0 then some (slice b 125 32 (by decide)) else none
      relayer := if flag b 2 then some (slice b 157 32 (by decide)) else none }

def decode (b : Bytes) : Option LegReceipt :=
  if whole : b.length = len then decodeRecord ⟨b, whole⟩ else none

/-- The bytes of the fields the flags declare absent are zero. -/
structure AbsentZero (b : Record) : Prop where
  compensation : flag b 1 = false → (slice b 109 16 (by decide)).1 = replicate 16 0
  proofDigest : flag b 0 = false → (slice b 125 32 (by decide)).1 = replicate 32 0
  relayer : flag b 2 = false → (slice b 157 32 (by decide)).1 = replicate 32 0

/-! ### The layout -/

theorem length_wordOrZero (w : Option Word) : (wordOrZero w).length = 32 := by
  cases w with
  | none => exact length_replicate
  | some w => exact w.2

theorem length_encode (r : LegReceipt) : r.encode.length = len := by
  simp only [encode, length_append, length_cons, length_nil, length_beBytes,
    length_wordOrZero, r.planId.2, r.legId.2]

theorem slice_append (b : Bytes) (start n : ℕ) :
    (b.drop start).take n ++ b.drop (start + n) = b.drop start := by
  rw [← drop_drop, take_append_drop]

theorem parts (b : Record) : b.1 =
    [byteAt b 0, byteAt b 1, byteAt b 2, byteAt b 3, byteAt b 4] ++
    ((slice b 5 8 (by decide)).1 ++ ((slice b 13 32 (by decide)).1 ++
    ((slice b 45 32 (by decide)).1 ++ ((slice b 77 16 (by decide)).1 ++
    ((slice b 93 16 (by decide)).1 ++ ((slice b 109 16 (by decide)).1 ++
    ((slice b 125 32 (by decide)).1 ++ (slice b 157 32 (by decide)).1))))))) := by
  obtain ⟨b, whole⟩ := b
  have last : (b.drop 157).take 32 = b.drop 157 := take_of_length_le (by
    rw [length_drop, whole]
    decide)
  have front : [byteAt ⟨b, whole⟩ 0, byteAt ⟨b, whole⟩ 1, byteAt ⟨b, whole⟩ 2,
      byteAt ⟨b, whole⟩ 3, byteAt ⟨b, whole⟩ 4] = b.take 5 := by
    match b, whole with
    | _ :: _ :: _ :: _ :: _ :: _, _ => rfl
  simp only [slice, last, slice_append b 125 32, slice_append b 109 16, slice_append b 93 16,
    slice_append b 77 16, slice_append b 45 32, slice_append b 13 32, slice_append b 5 8, front]
  exact (take_append_drop 5 b).symm

theorem number_beBytes {n : ℕ} (m : Fin (256 ^ n)) (b : Fixed n) (same : b.1 = beBytes n m) :
    number b = m := by
  apply Fin.ext
  change ofBeBytes b.1 = m
  rw [same, ofBeBytes_beBytes m.2]

theorem beBytes_number {n : ℕ} (b : Fixed n) : beBytes n (number b) = b.1 := by
  have whole := beBytes_ofBeBytes b.1
  rwa [b.2] at whole

/-! ### Single bytes -/

theorem flag_bits : ∀ digest compensation relayer : Bool,
    flagsByte digest compensation relayer &&& ~~~7 = 0 ∧
    bitSet (flagsByte digest compensation relayer) 0 = digest ∧
    bitSet (flagsByte digest compensation relayer) 1 = compensation ∧
    bitSet (flagsByte digest compensation relayer) 2 = relayer := by
  decide

theorem flagsByte_bits {v : UInt8} (known : v &&& ~~~7 = 0) :
    flagsByte (bitSet v 0) (bitSet v 1) (bitSet v 2) = v := by
  have all : ∀ n < 256, UInt8.ofNat n &&& ~~~7 = 0 → flagsByte (bitSet (UInt8.ofNat n) 0)
      (bitSet (UInt8.ofNat n) 1) (bitSet (UInt8.ofNat n) 2) = UInt8.ofNat n := by
    decide +kernel
  have own := all v.toNat v.toNat_lt
  rw [UInt8.ofNat_toNat] at own
  exact own known

theorem outcome_byte (committed : Bool) : outcome? (outcomeByte committed) = some committed := by
  cases committed <;> rfl

theorem byte_outcome {v : UInt8} {committed : Bool} (read : outcome? v = some committed) :
    outcomeByte committed = v := by
  unfold outcome? at read
  split at read <;> cases read <;> rfl

theorem class_byte (c : Option LegClass) : class? (classByte c) = some c := by
  match c with
  | none => rfl
  | some .native => rfl
  | some .proven => rfl
  | some .attested => rfl

theorem byte_class {v : UInt8} {c : Option LegClass} (read : class? v = some c) :
    classByte c = v := by
  unfold class? at read
  split at read <;> cases read <;> rfl

/-! ### Both directions -/

theorem decode_encode (r : LegReceipt) : decode r.encode = some r := by
  have whole := r.length_encode
  rw [decode, dif_pos whole]
  have laid := parts ⟨r.encode, whole⟩
  generalize record : (⟨r.encode, whole⟩ : Record) = b at laid
  have own : b.1 = r.encode := by rw [← record]
  rw [own, encode] at laid
  obtain ⟨front, laid⟩ := append_inj laid rfl
  simp only [List.cons.injEq, and_true] at front
  obtain ⟨v, o, i, c, f⟩ := front
  obtain ⟨decided, laid⟩ := append_inj laid (by rw [length_beBytes, (slice b 5 8 _).2])
  obtain ⟨plan, laid⟩ := append_inj laid (by rw [r.planId.2, (slice b 13 32 _).2])
  obtain ⟨leg, laid⟩ := append_inj laid (by rw [r.legId.2, (slice b 45 32 _).2])
  obtain ⟨amount, laid⟩ := append_inj laid (by rw [length_beBytes, (slice b 77 16 _).2])
  obtain ⟨fee, laid⟩ := append_inj laid (by rw [length_beBytes, (slice b 93 16 _).2])
  obtain ⟨comp, laid⟩ := append_inj laid (by rw [length_beBytes, (slice b 109 16 _).2])
  obtain ⟨digest, relayer⟩ := append_inj laid
    (by rw [length_wordOrZero, (slice b 125 32 _).2])
  obtain ⟨known, bit0, bit1, bit2⟩ :=
    flag_bits r.proofDigest.isSome r.compensation.isSome r.relayer.isSome
  unfold decodeRecord flag
  rw [← v, ← o, ← i, ← c, ← f, if_neg (by simp [known]), outcome_byte, class_byte, bit0, bit1, bit2,
    number_beBytes _ _ decided.symm, number_beBytes _ _ amount.symm, number_beBytes _ _ fee.symm]
  obtain ⟨planId, legId, index, committed, classAchieved, amt, proofDigest, ms, compensation, nf,
    rel⟩ := r
  simp only [Option.bind_eq_bind, Option.bind_some, Option.pure_def, Option.some.injEq, mk.injEq,
    true_and] at *
  refine ⟨Subtype.ext plan.symm, Subtype.ext leg.symm, ?_, ?_, ?_⟩
  · cases proofDigest with
    | none => rfl
    | some w => exact congrArg some (Subtype.ext digest.symm)
  · cases compensation with
    | none => rfl
    | some n => exact congrArg some (number_beBytes n _ comp.symm)
  · cases rel with
    | none => rfl
    | some w => exact congrArg some (Subtype.ext relayer.symm)

def optionalFields (b : Record) : Bytes :=
  beBytes 16 ((if flag b 1 then some (number (slice b 109 16 (by decide))) else none).getD 0) ++
  (wordOrZero (if flag b 0 then some (slice b 125 32 (by decide)) else none) ++
  wordOrZero (if flag b 2 then some (slice b 157 32 (by decide)) else none))

theorem wordOrZero_ite {present : Bool} (w : Word) :
    wordOrZero (if present then some w else none) = w.1 ↔
      (present = false → w.1 = replicate 32 0) := by
  cases present with
  | false => exact ⟨fun same _ => same.symm, fun zero => (zero rfl).symm⟩
  | true => exact ⟨fun _ => nofun, fun _ => rfl⟩

theorem number_ite {present : Bool} (b : Fixed 16) :
    beBytes 16 ((if present then some (number b) else none).getD 0) = b.1 ↔
      (present = false → b.1 = replicate 16 0) := by
  have zero : beBytes 16 ((none : Option U128).getD 0) = replicate 16 0 := by decide
  cases present with
  | false => exact ⟨fun same _ => same.symm.trans zero, fun own => zero.trans (own rfl).symm⟩
  | true => exact ⟨fun _ => nofun, fun _ => beBytes_number b⟩

theorem optionalFields_eq (b : Record) : optionalFields b =
    (slice b 109 16 (by decide)).1 ++
      ((slice b 125 32 (by decide)).1 ++ (slice b 157 32 (by decide)).1) ↔ AbsentZero b := by
  constructor
  · intro same
    obtain ⟨compensation, same⟩ := append_inj same
      (by rw [length_beBytes, (slice b 109 16 _).2])
    obtain ⟨digest, relayer⟩ := append_inj same
      (by rw [length_wordOrZero, (slice b 125 32 _).2])
    exact ⟨(number_ite _).1 compensation, (wordOrZero_ite _).1 digest, (wordOrZero_ite _).1 relayer⟩
  · intro zero
    rw [optionalFields, (number_ite _).2 zero.compensation, (wordOrZero_ite _).2 zero.proofDigest,
      (wordOrZero_ite _).2 zero.relayer]

theorem encode_decodeRecord {b : Record} {r : LegReceipt} (read : decodeRecord b = some r) :
    r.encode = b.1 ↔ AbsentZero b := by
  unfold decodeRecord at read
  have plain : ¬ (byteAt b 0 ≠ version ∨ byteAt b 4 &&& ~~~7 ≠ 0) := by
    intro strange
    rw [if_pos strange] at read
    cases read
  rw [if_neg plain] at read
  rw [not_or, not_not, not_not] at plain
  obtain ⟨committed, outcome, read⟩ := Option.bind_eq_some_iff.1 read
  obtain ⟨c, reached, read⟩ := Option.bind_eq_some_iff.1 read
  obtain rfl := Option.some.inj read
  have present {α : Type} (f : Bool) (a : α) : (if f then some a else none).isSome = f := by
    cases f <;> rfl
  have flags : flagsByte (flag b 0) (flag b 1) (flag b 2) = byteAt b 4 := flagsByte_bits plain.2
  rw [← optionalFields_eq]
  conv_lhs => rw [parts b]
  simp only [encode, present, flags, beBytes_number, byte_outcome outcome, byte_class reached,
    ← plain.1, append_cancel_left_eq]
  rfl

/-- Every receipt is read back from its encoding, and what is read back is what was encoded exactly
where the bytes of absent fields are zero. -/
theorem decode_binds (b : Bytes) (r : LegReceipt) : decode r.encode = some r ∧
    (decode b = some r → (r.encode = b ↔ ∃ record : Record, record.1 = b ∧ AbsentZero record)) := by
  refine ⟨decode_encode r, fun read => ?_⟩
  unfold decode at read
  split_ifs at read with whole
  rw [encode_decodeRecord read]
  constructor
  · intro zero
    exact ⟨_, rfl, zero⟩
  · rintro ⟨record, rfl, zero⟩
    exact zero

namespace Sample

theorem length_word : (replicate 32 (7 : UInt8)).length = 32 := length_replicate

def word : Word := ⟨replicate 32 7, length_word⟩

/-- A commit with compensation alone. -/
def receipt : LegReceipt :=
  ⟨word, word, 3, true, some .proven, 1000, none, 1700000000000, some 25, 4, none⟩

theorem binds_receipt : ∃ record : Record, record.1 = receipt.encode ∧ AbsentZero record :=
  ((decode_binds receipt.encode receipt).2 (decode_binds receipt.encode receipt).1).1 rfl

end Sample

def filled : Bytes :=
  [1, 2, 0, 0, 0] ++ (replicate 120 0 ++ (replicate 32 1 ++ replicate 32 0))

theorem filled_read : ∃ r, decode filled = some r ∧ r.encode ≠ filled := by
  have written : (decode filled).any (fun r => r.encode ≠ filled) = true := by decide +kernel
  obtain ⟨r, read, differs⟩ := (Option.any_eq_true _ _).1 written
  exact ⟨r, read, of_decide_eq_true differs⟩

end LegReceipt
end Tenzro.Settlement
