import Tenzro.FixedWidth

set_option autoImplicit false
set_option linter.dupNamespace false

/-!
# Claims on a stream

A stream accrues in whole epochs of its own, less the time its provider was judged unavailable. A
claim pays what accrued beyond the claims before it, and notes how far it judged.
-/
namespace Tenzro.Streams
open FixedWidth Function List

def marketEpochMs : ℤ := 3600000

def marketSubmitWindow : ℕ := 24

/-- An escrow that is released as a stream, and whether its payee is a bonded provider. -/
structure StreamEscrow where
  ratePerEpoch : ℕ
  epochMs : ℕ
  createdAt : ℤ
  expiresAt : ℤ
  amount : ℕ
  bonded : Bool

/-- The time up to which every hour has been judged, and the milliseconds of it withheld. -/
structure StreamCursor where
  judgedMs : ℤ
  withheldMs : ℕ

abbrev Verdicts := ℕ → Option Bool

def epochAt (ms : ℤ) : ℕ := (max ms 0 / marketEpochMs).toNat

def hourStart (hour : ℕ) : ℤ := hour * marketEpochMs

def overlap (lower upper : ℤ) (hour : ℕ) : ℕ :=
  (min (hourStart hour + marketEpochMs) upper - max (hourStart hour) lower).toNat

def hoursFrom (first : ℕ) (upper : ℤ) : List ℕ :=
  range' first (((upper + marketEpochMs - 1) / marketEpochMs).toNat - first)

def judge (verdicts : Verdicts) (nowEpoch : ℕ) (undecidedPaid : Bool) (lower upper : ℤ)
    (withheld : ℕ) : List ℕ → ℤ × ℕ
  | [] => (upper, withheld)
  | hour :: rest =>
    match verdicts hour with
    | some true => judge verdicts nowEpoch undecidedPaid lower upper withheld rest
    | some false =>
      judge verdicts nowEpoch undecidedPaid lower upper (withheld + overlap lower upper hour) rest
    | none =>
      if undecidedPaid ∨ hour + marketSubmitWindow < nowEpoch then
        judge verdicts nowEpoch undecidedPaid lower upper withheld rest
      else (max (hourStart hour) lower, withheld)

def StreamEscrow.accrued (escrow : StreamEscrow) (upper : ℤ) (withheldMs : ℕ) : ℕ :=
  let elapsed := (min (upper - escrow.createdAt) (2 ^ 63 - 1)).toNat
  let epochs := elapsed / max escrow.epochMs 1
  let withheld := saturatingMul 128 escrow.ratePerEpoch withheldMs / max escrow.epochMs 1
  min (saturatingMul 128 escrow.ratePerEpoch epochs - withheld) escrow.amount

def StreamEscrow.streamProgress (escrow : StreamEscrow) (verdicts : Verdicts)
    (cursor : StreamCursor) (claimed : ℕ) (now : ℤ) (undecidedPaid : Bool) : ℕ × StreamCursor :=
  let upper := min now escrow.expiresAt
  if escrow.bonded then
    let lower := max escrow.createdAt cursor.judgedMs
    let (upper, withheldMs) := judge verdicts (epochAt now) undecidedPaid lower upper
      cursor.withheldMs (hoursFrom (epochAt lower) upper)
    (escrow.accrued upper withheldMs - claimed, ⟨max cursor.judgedMs upper, withheldMs⟩)
  else (escrow.accrued upper cursor.withheldMs - claimed, cursor)

structure StreamState where
  verdicts : Verdicts
  cursor : StreamCursor
  claimed : ℕ

def StreamState.empty : StreamState := ⟨fun _ => none, ⟨0, 0⟩, 0⟩

/-- The attesters of an hour reach a verdict, or the stream is claimed. -/
inductive StreamStep where
  | freeze (now : ℤ) (hour : ℕ) (available : Bool)
  | claim (now : ℤ)

def StreamStep.now : StreamStep → ℤ
  | .freeze now .. => now
  | .claim now => now

def freezeVerdict (verdicts : Verdicts) (now : ℤ) (hour : ℕ) (available : Bool) : Verdicts :=
  if epochAt now ≤ hour ∨ hour + marketSubmitWindow < epochAt now ∨ (verdicts hour).isSome then
    verdicts
  else update verdicts hour (some available)

def StreamEscrow.step (escrow : StreamEscrow) (s : StreamState) : StreamStep → StreamState
  | .freeze now hour available =>
    { s with verdicts := freezeVerdict s.verdicts now hour available }
  | .claim now =>
    let (due, cursor) := escrow.streamProgress s.verdicts s.cursor s.claimed now false
    if due = 0 then s else { s with cursor := cursor, claimed := s.claimed + due }

def StreamEscrow.run (escrow : StreamEscrow) (steps : List StreamStep) : StreamState :=
  steps.foldl escrow.step .empty

def StreamEscrow.alone (escrow : StreamEscrow) (verdicts : Verdicts) (now : ℤ) : ℕ :=
  (escrow.streamProgress verdicts ⟨0, 0⟩ 0 now false).1

/-! ### Unavailable time -/

/-- The milliseconds of unavailable hours between two times. -/
def down (verdicts : Verdicts) (lower upper : ℤ) : ℕ :=
  ∑ hour ∈ Finset.range (epochAt upper + 1),
    if verdicts hour = some false then overlap lower upper hour else 0

section
variable {verdicts verdicts' : Verdicts} {lower upper mid now now' : ℤ} {hour nowEpoch : ℕ}

theorem hourStart_succ (hour : ℕ) : hourStart (hour + 1) = hourStart hour + marketEpochMs := by
  unfold hourStart
  push_cast
  ring

theorem hourStart_le {a b : ℕ} (le : a ≤ b) : hourStart a ≤ hourStart b :=
  mul_le_mul_of_nonneg_right (by exact_mod_cast le) (by decide)

theorem lt_hourStart (ms : ℤ) : ms < hourStart (epochAt ms + 1) := by
  unfold hourStart epochAt marketEpochMs
  omega

theorem hourStart_epochAt {ms : ℤ} (nonneg : 0 ≤ ms) : hourStart (epochAt ms) ≤ ms := by
  unfold hourStart epochAt marketEpochMs
  omega

theorem epochAt_mono {a b : ℤ} (le : a ≤ b) : epochAt a ≤ epochAt b :=
  Int.toNat_le_toNat (Int.ediv_le_ediv (by decide) (max_le_max_right 0 le))

theorem overlap_above (above : upper ≤ hourStart hour) : overlap lower upper hour = 0 := by
  unfold overlap
  omega

theorem overlap_below (below : hourStart hour + marketEpochMs ≤ lower) :
    overlap lower upper hour = 0 := by
  unfold overlap
  omega

theorem down_empty (le : upper ≤ lower) : down verdicts lower upper = 0 := by
  refine Finset.sum_eq_zero fun hour _ => ?_
  have none : overlap lower upper hour = 0 := by
    unfold overlap
    omega
  rw [none, ite_self]

theorem down_eq {n : ℕ} (large : upper ≤ hourStart n) : down verdicts lower upper =
    ∑ hour ∈ Finset.range n, if verdicts hour = some false then overlap lower upper hour else 0 := by
  have late (m : ℕ) (at_m : upper ≤ hourStart m) : ∀ hour ≥ m,
      (if verdicts hour = some false then overlap lower upper hour else 0) = 0 := fun hour le => by
    rw [overlap_above (at_m.trans (hourStart_le le)), ite_self]
  rcases le_total (epochAt upper + 1) n with le | le
  · exact (Finset.eventually_constant_sum (late _ (lt_hourStart upper).le) le).symm
  · exact Finset.eventually_constant_sum (late n large) le

theorem down_add (below : lower ≤ mid) (above : mid ≤ upper) :
    down verdicts lower mid + down verdicts mid upper = down verdicts lower upper := by
  have large := (lt_hourStart upper).le
  rw [down_eq (above.trans large), down_eq large, down_eq large, ← Finset.sum_add_distrib]
  refine Finset.sum_congr rfl fun hour _ => ?_
  split_ifs
  · unfold overlap marketEpochMs
    omega
  · rfl

theorem down_hour (begun : hourStart hour < upper) :
    down verdicts lower (min upper (hourStart (hour + 1))) =
      down verdicts lower (hourStart hour) +
        if verdicts hour = some false then overlap lower upper hour else 0 := by
  rw [down_eq (min_le_right _ _), down_eq (le_refl (hourStart hour)), Finset.sum_range_succ,
    hourStart_succ]
  congr 1
  · refine Finset.sum_congr rfl fun h mem => ?_
    have ends : hourStart h + marketEpochMs ≤ hourStart hour :=
      (hourStart_succ h).symm.trans_le (hourStart_le (Finset.mem_range.1 mem))
    split_ifs
    · unfold overlap marketEpochMs at *
      omega
    · rfl
  · split_ifs
    · unfold overlap
      omega
    · rfl

theorem down_congr (same : ∀ hour, hourStart hour < upper → lower < hourStart hour + marketEpochMs →
    (verdicts' hour = some false ↔ verdicts hour = some false)) :
    down verdicts' lower upper = down verdicts lower upper := by
  refine Finset.sum_congr rfl fun hour _ => ?_
  by_cases inside : hourStart hour < upper ∧ lower < hourStart hour + marketEpochMs
  · simp only [same hour inside.1 inside.2]
  · have none : overlap lower upper hour = 0 := by
      rw [not_and_or, not_lt, not_lt] at inside
      exact inside.elim overlap_above overlap_below
    simp only [none, ite_self]

/-! ### Judging -/

def Settled (verdicts : Verdicts) (nowEpoch hour : ℕ) : Prop :=
  verdicts hour ≠ none ∨ hour + marketSubmitWindow < nowEpoch

def SettledTo (verdicts : Verdicts) (nowEpoch : ℕ) (lower upper : ℤ) : Prop :=
  ∀ hour, hourStart hour < upper → lower < hourStart hour + marketEpochMs → lower < upper →
    Settled verdicts nowEpoch hour

/-- How far the hours from `lower` on are judged, `upper` being the latest. -/
structure Judged (verdicts : Verdicts) (nowEpoch : ℕ) (lower upper reached : ℤ) : Prop where
  settled : SettledTo verdicts nowEpoch lower reached
  stops : reached = upper ∨ ∃ hour, ¬Settled verdicts nowEpoch hour ∧ hourStart hour < upper ∧
    lower < hourStart hour + marketEpochMs ∧ reached = max (hourStart hour) lower

theorem judge_hours {withheld before : ℕ} (n first : ℕ)
    (begun : ∀ hour ∈ range' first n, hourStart hour < upper)
    (last : upper ≤ hourStart (first + n))
    (ends : lower < hourStart first + marketEpochMs)
    (passed : ∀ hour < first, lower < hourStart hour + marketEpochMs →
      Settled verdicts nowEpoch hour)
    (sum : withheld = before + down verdicts lower (min upper (hourStart first))) :
    ∃ reached, judge verdicts nowEpoch false lower upper withheld (range' first n) =
        (reached, before + down verdicts lower reached) ∧
      Judged verdicts nowEpoch lower upper reached := by
  induction n generalizing first withheld with
  | zero =>
    rw [Nat.add_zero] at last
    rw [min_eq_left last] at sum
    refine ⟨upper, Prod.ext rfl sum, fun hour early beyond _ => passed hour ?_ beyond, .inl rfl⟩
    by_contra late
    have above := hourStart_le (not_lt.1 late)
    omega
  | succ n ih =>
    rw [range'_succ] at begun ⊢
    obtain ⟨here, begun⟩ := forall_mem_cons.1 begun
    have next := hourStart_succ first
    rw [Nat.add_comm n 1, ← Nat.add_assoc] at last
    have hour := @down_hour verdicts lower upper first here
    rw [min_eq_right here.le] at sum
    have go (settled : Settled verdicts nowEpoch first) {w : ℕ}
        (more : w = before + down verdicts lower (min upper (hourStart (first + 1)))) :=
      ih (first + 1) begun last
        ((ends.trans_le next.ge).trans (lt_add_of_pos_right _ (by decide)))
        (fun hour early beyond => (Nat.lt_succ_iff_lt_or_eq.1 early).elim
          (fun earlier => passed hour earlier beyond) fun same => by rwa [same]) more
    unfold judge
    cases verdict : verdicts first with
    | some available =>
      have settled : Settled verdicts nowEpoch first := .inl (by simp [verdict])
      cases available with
      | true => exact go settled (by rw [hour, verdict, sum]; simp)
      | false => exact go settled (by rw [hour, verdict, sum]; simp [Nat.add_assoc])
    | none =>
      simp only [Bool.false_eq_true, false_or]
      split_ifs with closed
      · exact go (.inr closed) (by rw [hour, verdict, sum]; simp)
      · refine ⟨_, Prod.ext rfl ?_, fun hour early beyond _ => passed hour ?_ beyond,
          .inr ⟨first, fun settled => settled.elim (· verdict) closed, here, ends, rfl⟩⟩
        · simp only [sum]
          rcases le_total lower (hourStart first) with le | le
          · rw [max_eq_left le]
          · rw [max_eq_right le, down_empty le, down_empty le_rfl]
        · by_contra late
          have above := hourStart_le (not_lt.1 late)
          omega

theorem judge_eq (verdicts : Verdicts) (nowEpoch : ℕ) (upper : ℤ) (nonneg : 0 ≤ lower)
    (before : ℕ) : ∃ reached,
    judge verdicts nowEpoch false lower upper before (hoursFrom (epochAt lower) upper) =
        (reached, before + down verdicts lower reached) ∧
      Judged verdicts nowEpoch lower upper reached := by
  have start := hourStart_epochAt nonneg
  have ends := lt_hourStart lower
  rw [hourStart_succ] at ends
  refine judge_hours _ _ (fun hour mem => ?_) ?_ ends (fun hour early beyond => ?_) ?_
  · obtain ⟨from_first, below⟩ := mem_range'_1.1 mem
    unfold hourStart marketEpochMs at *
    omega
  · unfold hourStart marketEpochMs
    omega
  · have before := hourStart_le (Nat.succ_le_of_lt early)
    rw [Nat.succ_eq_add_one, hourStart_succ] at before
    omega
  · rw [down_empty ((min_le_right _ _).trans start), Nat.add_zero]

theorem Judged.unique {base judged one other : ℤ} (settled : SettledTo verdicts nowEpoch base judged)
    (far : base < judged) (within : judged ≤ upper)
    (first : Judged verdicts nowEpoch base upper one)
    (second : Judged verdicts nowEpoch judged upper other) : one = other := by
  -- An hour that stops the one lies after the cursor, where it stops the other.
  have late {hour : ℕ} (open_hour : ¬Settled verdicts nowEpoch hour)
      (beyond : base < hourStart hour + marketEpochMs) : judged ≤ hourStart hour := by
    by_contra early
    exact open_hour (settled hour (not_le.1 early) beyond far)
  rcases first.stops with rfl | ⟨a, open_a, begun_a, beyond_a, rfl⟩ <;>
    rcases second.stops with rfl | ⟨b, open_b, begun_b, beyond_b, rfl⟩
  · rfl
  · exact absurd (first.settled b begun_b (by omega) (by omega)) open_b
  · have after := late open_a beyond_a
    unfold marketEpochMs at *
    exact absurd (second.settled a begun_a (by unfold marketEpochMs; omega) (by omega)) open_a
  · have after := late open_a beyond_a
    have after' := late open_b (by omega)
    rw [max_eq_left (by omega), max_eq_left after']
    refine le_antisymm (not_lt.1 fun less => ?_) (not_lt.1 fun less => ?_)
    · exact open_b (first.settled b (by omega) (by omega) (by omega))
    · exact open_a (second.settled a (by omega) (by unfold marketEpochMs; omega) (by omega))

end

/-! ### Runs -/

/-- What the cursor of a stream has judged and withheld, up to the time of the last step. -/
structure Kept (escrow : StreamEscrow) (s : StreamState) (time : ℤ) : Prop where
  nonneg : 0 ≤ s.cursor.judgedMs
  within : s.cursor.judgedMs ≤ max (max escrow.createdAt 0) (min time escrow.expiresAt)
  settled : SettledTo s.verdicts (epochAt time) (max escrow.createdAt 0) s.cursor.judgedMs
  withheld : s.cursor.withheldMs = down s.verdicts (max escrow.createdAt 0) s.cursor.judgedMs
  unbonded : escrow.bonded = false → s.cursor = ⟨0, 0⟩

section
variable {escrow : StreamEscrow} {s : StreamState} {time now : ℤ}

theorem SettledTo.later {verdicts : Verdicts} {lower upper : ℤ}
    (settled : SettledTo verdicts (epochAt time) lower upper) (later : time ≤ now) :
    SettledTo verdicts (epochAt now) lower upper := fun hour early beyond some =>
  (settled hour early beyond some).imp_right fun closed => closed.trans_le (epochAt_mono later)

theorem Kept.later (kept : Kept escrow s time) (later : time ≤ now) : Kept escrow s now := by
  have within := kept.within
  exact { kept with within := by omega, settled := kept.settled.later later }

theorem Kept.freeze (kept : Kept escrow s now) (hour : ℕ) (available : Bool) :
    Kept escrow (escrow.step s (.freeze now hour available)) now := by
  unfold StreamEscrow.step freezeVerdict
  simp only
  split_ifs with refused
  · exact kept
  · simp only [not_or, Bool.not_eq_true, Option.isSome_eq_false_iff, Option.isNone_iff_eq_none]
      at refused
    have new (h : ℕ) (settled : Settled s.verdicts (epochAt now) h) : h ≠ hour := by
      rintro rfl
      exact settled.elim (· refused.2.2) refused.2.1
    refine { kept with settled := fun h early beyond some => ?_, withheld := ?_ }
    · have before := kept.settled h early beyond some
      refine before.imp_left fun found => ?_
      change update s.verdicts hour (Option.some available) h ≠ none
      rwa [update_of_ne (new h before)]
    · simp only [kept.withheld]
      rcases le_or_gt s.cursor.judgedMs (max escrow.createdAt 0) with none | some
      · rw [down_empty none, down_empty none]
      · refine (down_congr fun h early beyond => ?_).symm
        rw [update_of_ne (new h (kept.settled h early beyond some))]

theorem Kept.progress (kept : Kept escrow s now) : ∃ cursor,
    escrow.streamProgress s.verdicts s.cursor s.claimed now false =
        (escrow.alone s.verdicts now - s.claimed, cursor) ∧
      Kept escrow { s with cursor := cursor } now := by
  unfold StreamEscrow.alone StreamEscrow.streamProgress
  cases bonded : escrow.bonded with
  | false =>
    rw [kept.unbonded bonded]
    exact ⟨⟨0, 0⟩, rfl, kept.unbonded bonded ▸ kept⟩
  | true =>
    simp only [if_true, Nat.sub_zero]
    have nonneg := kept.nonneg
    have within := kept.within
    set base := max escrow.createdAt 0 with base_eq
    set upper := min now escrow.expiresAt
    obtain ⟨alone, ran, judged⟩ := judge_eq s.verdicts (epochAt now) upper
      (le_max_right escrow.createdAt 0) 0
    rw [← base_eq] at ran judged
    rcases le_or_gt s.cursor.judgedMs base with near | far
    · have lower : max escrow.createdAt s.cursor.judgedMs = base := by omega
      have unused : s.cursor.withheldMs = 0 := kept.withheld.trans (down_empty near)
      rw [lower, unused, ran, Nat.zero_add]
      refine ⟨_, rfl, le_max_of_le_left nonneg, ?_, fun hour early beyond some => ?_, ?_, ?_⟩
      · change max s.cursor.judgedMs alone ≤ max base upper
        rcases judged.stops with eq | ⟨hour, -, begun, -, eq⟩ <;> omega
      · simp only at early some
        exact judged.settled hour (by omega) beyond (by omega)
      · rcases le_total s.cursor.judgedMs alone with le | le
        · simp only [max_eq_right le, base_eq]
        · simp only [max_eq_left le]
          rw [down_empty near, down_empty (le.trans near)]
      · simp [bonded]
    · have lower : max escrow.createdAt s.cursor.judgedMs = s.cursor.judgedMs := by omega
      obtain ⟨reached, ran', judged'⟩ := judge_eq s.verdicts (epochAt now) upper nonneg
        s.cursor.withheldMs
      obtain rfl := Judged.unique kept.settled far (by omega) judged judged'
      have past : s.cursor.judgedMs ≤ alone := by
        rcases judged'.stops with eq | ⟨hour, -, -, -, eq⟩ <;> rw [eq] <;> omega
      rw [lower, ran, ran', kept.withheld, down_add far.le past, Nat.zero_add, max_eq_right past]
      refine ⟨_, rfl, nonneg.trans past, ?_, fun hour early beyond some => ?_, rfl, ?_⟩
      · change alone ≤ max base upper
        rcases judged'.stops with eq | ⟨hour, -, begun, -, eq⟩ <;> omega
      · rcases lt_or_ge (hourStart hour) s.cursor.judgedMs with earlier | later
        · exact kept.settled hour earlier beyond far
        · have early : hourStart hour < alone := early
          exact judged'.settled hour early (by unfold marketEpochMs; omega) (by omega)
      · simp [bonded]

theorem Kept.claim (kept : Kept escrow s now) : Kept escrow (escrow.step s (.claim now)) now ∧
    (escrow.step s (.claim now)).claimed = max s.claimed (escrow.alone s.verdicts now) := by
  obtain ⟨cursor, ran, after⟩ := kept.progress
  unfold StreamEscrow.step
  simp only [ran]
  split_ifs with nothing
  · exact ⟨kept, by omega⟩
  · refine ⟨⟨after.nonneg, after.within, after.settled, after.withheld, after.unbonded⟩, ?_⟩
    simp only
    omega

end

def StreamEscrow.singles (escrow : StreamEscrow) : StreamState → List StreamStep → List ℕ
  | _, [] => []
  | s, .freeze now hour available :: rest =>
    escrow.singles (escrow.step s (.freeze now hour available)) rest
  | s, .claim now :: rest =>
    escrow.alone s.verdicts now :: escrow.singles (escrow.step s (.claim now)) rest

/-- What the claims of a run are paid together. -/
structure Settles (escrow : StreamEscrow) (steps : List StreamStep) : Prop where
  total : (escrow.run steps).claimed = (escrow.singles .empty steps).foldr max 0
  grows : ∀ before after, steps = before ++ after →
    (escrow.run before).claimed ≤ (escrow.run steps).claimed
  /-- What is withheld is the unavailable time of the span judged, all of it once. -/
  withheld : (escrow.run steps).cursor.withheldMs = down (escrow.run steps).verdicts
    (max escrow.createdAt 0) (escrow.run steps).cursor.judgedMs

section
variable {escrow : StreamEscrow}

theorem kept_empty (time : ℤ) : Kept escrow .empty time where
  nonneg := le_rfl
  within := le_max_of_le_left (le_max_right _ _)
  settled _ _ _ some := absurd some (le_max_right _ _).not_gt
  withheld := (down_empty (le_max_right _ _)).symm
  unbonded _ := rfl

theorem Kept.run {s : StreamState} {time : ℤ} (kept : Kept escrow s time) {steps : List StreamStep}
    (sorted : steps.Pairwise (·.now ≤ ·.now)) (later : ∀ a ∈ steps, time ≤ a.now) :
    (∃ time', Kept escrow (steps.foldl escrow.step s) time') ∧
      (steps.foldl escrow.step s).claimed =
        max s.claimed ((escrow.singles s steps).foldr max 0) := by
  induction steps generalizing s time with
  | nil => exact ⟨⟨time, kept⟩, (max_eq_left (Nat.zero_le _)).symm⟩
  | cons a rest ih =>
    obtain ⟨first, ordered⟩ := pairwise_cons.1 sorted
    have kept := kept.later (later a mem_cons_self)
    cases a with
    | freeze now hour available => exact ih (kept.freeze hour available) ordered first
    | claim now =>
      obtain ⟨kept', paid⟩ := kept.claim
      obtain ⟨last, total⟩ := ih kept' ordered first
      refine ⟨last, total.trans ?_⟩
      rw [paid, max_assoc]
      rfl

theorem claimed_le (s : StreamState) (steps : List StreamStep) :
    s.claimed ≤ (steps.foldl escrow.step s).claimed := by
  induction steps generalizing s with
  | nil => exact le_rfl
  | cons a rest ih =>
    refine le_trans ?_ (ih (escrow.step s a))
    cases a with
    | freeze => exact le_rfl
    | claim now =>
      unfold StreamEscrow.step
      simp only
      split_ifs
      · exact le_rfl
      · exact Nat.le_add_right _ _

end

/-! A stream of two-hour epochs, its third hour unavailable, claimed before and after it. -/

namespace ThirdHour

def escrow : StreamEscrow := ⟨100, 7200000, 0, 72000000, 1000, true⟩

def steps : List StreamStep :=
  [.freeze 3600000 0 true, .freeze 7200000 1 true, .claim 7200000, .freeze 10800000 2 false,
    .claim 10800000]

end ThirdHour

end Tenzro.Streams
