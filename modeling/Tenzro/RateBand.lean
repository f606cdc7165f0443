import Tenzro.RateQuotes

set_option autoImplicit false
set_option linter.dupNamespace false

/-!
# A minority cannot push the rate

With the quorum the rate in force moves only into the band of the quantiles, and a quantile lies
where the stake lies; short of the quorum it waits for a run of far epochs.
-/
namespace Tenzro.Rates
open ByteCodec FixedWidth List Option

/-! ### Quantiles -/

def stakeOf (rows : List RateRow) : ℕ := (rows.map RateRow.stake).sum

def stakeUpTo (x : ℕ) (rows : List RateRow) : ℕ := stakeOf (rows.filter (·.rate ≤ x))

def stakeOutside (a b : ℕ) (rows : List RateRow) : ℕ :=
  stakeOf (rows.filter fun r => r.rate < a ∨ b < r.rate)

section
variable {rows rows' : List RateRow} {row : RateRow} {x y q r : ℕ}

theorem stakeOf_cons : stakeOf (row :: rows) = row.stake + stakeOf rows := sum_cons

theorem stakeUpTo_cons : stakeUpTo x (row :: rows) =
    (if row.rate ≤ x then row.stake else 0) + stakeUpTo x rows := by
  unfold stakeUpTo
  by_cases below : row.rate ≤ x <;> simp [below, stakeOf_cons]

theorem stakeUpTo_none (above : ∀ row ∈ rows, x < row.rate) : stakeUpTo x rows = 0 := by
  have none : rows.filter (·.rate ≤ x) = [] :=
    filter_eq_nil_iff.2 fun row mem => by simpa using above row mem
  rw [stakeUpTo, none]
  rfl

theorem stakeOf_split (p : RateRow → Bool) :
    stakeOf (rows.filter p) + stakeOf (rows.filter fun r => !p r) = stakeOf rows := by
  induction rows with
  | nil => rfl
  | cons row rest ih =>
    rw [stakeOf_cons, ← ih]
    cases side : p row <;> simp [side, stakeOf_cons] <;> omega

theorem stakeOf_filter_le {p p' : RateRow → Bool} (sub : ∀ r, p r = true → p' r = true) :
    stakeOf (rows.filter p) ≤ stakeOf (rows.filter p') :=
  ((monotone_filter_right rows sub).map _).sum_le_sum (by simp)

theorem sortRows_perm : (sortRows rows).Perm rows := mergeSort_perm ..

theorem sortRows_sorted : (sortRows rows).Pairwise (·.rate ≤ ·.rate) := by
  refine (pairwise_mergeSort (fun a b c => ?_) (fun a b => ?_) rows).imp fun le => ?_
  · simp only [decide_eq_true_eq]
    rintro (less | ⟨same, le⟩) (less' | ⟨same', le'⟩)
    · exact .inl (less.trans less')
    · exact .inl (same' ▸ less)
    · exact .inl (same ▸ less')
    · exact .inr ⟨same.trans same', le.trans le'⟩
  · simp only [Bool.or_eq_true, decide_eq_true_eq]
    rcases lt_trichotomy a.rate b.rate with less | same | less
    · exact .inl (.inl less)
    · exact (le_total (hexEncode a.validator) (hexEncode b.validator)).imp
        (fun le => .inr ⟨same, le⟩) fun le => .inr ⟨same.symm, le⟩
    · exact .inr (.inl less)
  · rcases of_decide_eq_true le with less | ⟨same, -⟩
    · exact less.le
    · exact same.le

theorem rowsStake_eq (fits : stakeOf rows ≤ maxValue 128) : rowsStake rows = stakeOf rows := by
  unfold rowsStake
  rw [foldl_saturatingAdd RateRow.stake rows (Nat.zero_le _), Nat.zero_add]
  exact min_eq_left fits

/-- `r` is the least rate of the reports up to which `q` of the stake lies. -/
structure QuantileAt (rows : List RateRow) (before total q r : ℕ) : Prop where
  reported : ∃ row ∈ rows, row.rate = r
  reached : total * q ≤ (before + stakeUpTo r rows) * 10000
  least : ∀ x < r, (before + stakeUpTo x rows) * 10000 < total * q ∨ ∀ row ∈ rows, x < row.rate

theorem quantileFrom_spec {before total : ℕ} (sorted : rows.Pairwise (·.rate ≤ ·.rate))
    (sum : before + stakeOf rows = total) (fits : total * 10000 ≤ maxValue 128) (q_le : q ≤ 10000)
    (some_rows : rows ≠ []) :
    ∃ r, quantileFrom total q before rows = some r ∧ QuantileAt rows before total q r := by
  induction rows generalizing before with
  | nil => exact absurd rfl some_rows
  | cons row rest ih =>
    obtain ⟨first, sorted⟩ := pairwise_cons.1 sorted
    rw [stakeOf_cons] at sum
    have share : total * q ≤ total * 10000 := Nat.mul_le_mul_left _ q_le
    have reach : saturatingAdd 128 before row.stake = before + row.stake := by
      unfold saturatingAdd
      omega
    have left : saturatingMul 128 total q = total * q := min_eq_left (share.trans fits)
    have right : saturatingMul 128 (before + row.stake) 10000 = (before + row.stake) * 10000 :=
      min_eq_left ((Nat.mul_le_mul_right _ (by omega)).trans fits)
    unfold quantileFrom
    simp only [reach, left, right]
    split_ifs with here
    · refine ⟨row.rate, rfl, ⟨row, mem_cons_self, rfl⟩, ?_, fun x less => .inr ?_⟩
      · rw [stakeUpTo_cons, if_pos (le_refl row.rate)]
        exact here.trans (Nat.mul_le_mul_right _ (by omega))
      · exact forall_mem_cons.2 ⟨less, fun r mem => less.trans_le (first r mem)⟩
    · have more : rest ≠ [] := by
        rintro rfl
        have alone : before + row.stake = total := sum
        rw [alone] at here
        omega
      have left_sum : before + row.stake + stakeOf rest = total := by omega
      obtain ⟨r, found, ⟨last, mem, rfl⟩, reached, least⟩ := ih sorted left_sum more
      refine ⟨last.rate, found, ⟨last, mem_cons_of_mem _ mem, rfl⟩, ?_, fun x less => ?_⟩
      · rwa [stakeUpTo_cons, if_pos (first last mem), ← Nat.add_assoc]
      · by_cases below : row.rate ≤ x
        · rw [stakeUpTo_cons, if_pos below, ← Nat.add_assoc]
          rcases least x less with short | above
          · exact .inl short
          · rw [stakeUpTo_none above]
            exact .inl (by omega)
        · have above : x < row.rate := not_le.1 below
          exact .inr (forall_mem_cons.2
            ⟨above, fun r mem => above.trans_le (first r mem)⟩)

theorem stakeOf_perm (perm : rows.Perm rows') : stakeOf rows = stakeOf rows' :=
  (perm.map _).sum_eq

theorem stakeWeightedQuantile_spec (some_stake : 0 < stakeOf rows)
    (fits : stakeOf rows * 10000 ≤ maxValue 128) : ∃ r, stakeWeightedQuantile rows q = some r ∧
      QuantileAt rows 0 (stakeOf rows) (min q 10000) r := by
  have perm : (sortRows rows).Perm rows := sortRows_perm
  have same := stakeOf_perm perm
  have total : rowsStake (sortRows rows) = stakeOf rows := by
    rw [rowsStake_eq (by rw [same]; omega), same]
  have up_to (x : ℕ) : stakeUpTo x (sortRows rows) = stakeUpTo x rows :=
    stakeOf_perm (perm.filter _)
  obtain ⟨r, found, ⟨row, mem, eq⟩, reached, least⟩ := quantileFrom_spec (q := min q 10000)
    sortRows_sorted ((Nat.zero_add _).trans same) fits (min_le_right _ _) fun none => by
      rw [none] at same
      exact some_stake.ne same
  rw [up_to] at reached
  refine ⟨r, ?_, ⟨row, perm.mem_iff.1 mem, eq⟩, reached, fun x less => ?_⟩
  · unfold stakeWeightedQuantile
    simp only [total]
    rw [if_neg some_stake.ne', found]
    rfl
  · rw [← up_to]
    exact (least x less).imp_right fun above row mem => above row (perm.mem_iff.2 mem)

theorem QuantileAt.unique {total : ℕ} (perm : rows.Perm rows') (one : QuantileAt rows 0 total q x)
    (other : QuantileAt rows' 0 total q y) : ¬x < y := by
  intro less
  have up_to : stakeUpTo x rows = stakeUpTo x rows' := stakeOf_perm (perm.filter _)
  obtain ⟨row, mem, eq⟩ := one.reported
  rcases other.least x less with short | above
  · have reached := one.reached
    rw [up_to] at reached
    omega
  · exact (above row (perm.mem_iff.1 mem)).ne' eq

theorem stakeWeightedQuantile_perm (perm : rows.Perm rows') (some_stake : 0 < stakeOf rows)
    (fits : stakeOf rows * 10000 ≤ maxValue 128) :
    stakeWeightedQuantile rows q = stakeWeightedQuantile rows' q := by
  have same := stakeOf_perm perm
  obtain ⟨x, found, one⟩ := stakeWeightedQuantile_spec (q := q) some_stake fits
  rw [same] at some_stake fits one
  obtain ⟨y, found', other⟩ := stakeWeightedQuantile_spec (q := q) some_stake fits
  rw [found, found', le_antisymm (not_lt.1 (other.unique perm.symm one))
    (not_lt.1 (one.unique perm other))]

theorem QuantileAt.between {a b : ℕ} (at_r : QuantileAt rows 0 (stakeOf rows) q r)
    (low : stakeOutside a b rows * 10000 < q * stakeOf rows)
    (high : stakeOutside a b rows * 10000 < (10000 - q) * stakeOf rows) : a ≤ r ∧ r ≤ b := by
  have reached := at_r.reached
  have split (x : ℕ) : stakeUpTo x rows + stakeOf (rows.filter fun r => !(r.rate ≤ x : Bool)) =
    stakeOf rows := stakeOf_split _
  rw [Nat.zero_add, Nat.mul_comm] at reached
  refine ⟨not_lt.1 fun below => ?_, not_lt.1 fun above => ?_⟩
  · have outside : stakeUpTo r rows ≤ stakeOutside a b rows :=
      stakeOf_filter_le fun row le => decide_eq_true (.inl ((of_decide_eq_true le).trans_lt below))
    omega
  · have outside : stakeOf (rows.filter fun r => !(r.rate ≤ b : Bool)) ≤ stakeOutside a b rows :=
      stakeOf_filter_le fun row more => decide_eq_true (.inr (by simpa using more))
    have whole := split b
    rw [Nat.sub_mul] at high
    rcases at_r.least b above with short | none
    · rw [Nat.zero_add, Nat.mul_comm (stakeOf rows)] at short
      omega
    · rw [stakeUpTo_none none] at whole
      omega

end

/-! ### One epoch -/

/-- A tallied epoch: its opened reports, whether they reached the quorum, and the governed values
it is tallied under. -/
structure RateEpoch where
  rows : List RateRow
  full : Bool
  quantileLowBps : ℕ
  quantileHighBps : ℕ
  rules : RateRules

namespace RateEpoch
variable (e : RateEpoch)

def tally : Option Tally := do
  let median ← stakeWeightedQuantile e.rows 5000
  let low ← stakeWeightedQuantile e.rows e.quantileLowBps
  let high ← stakeWeightedQuantile e.rows e.quantileHighBps
  return ⟨median, low, high, e.full⟩

/-- The rate in force and the stale epochs counted, after the epoch. -/
def next (live : ℕ × ℕ) : ℕ × ℕ :=
  (e.tally.bind fun t => nextRate (some live.1) live.2 t e.rules).getD live

/-- An epoch that counts for nothing. -/
def held : Bool := e.rules.frozen || e.tally.isNone

def far (rate : ℕ) : Bool := !e.full && e.tally.any fun t =>
  saturatingMul 128 t.median e.rules.staleGapBps <
    saturatingMul 128 (Nat.dist rate t.median) 10000

end RateEpoch

/-- From `prior` by no more than one epoch's rise or fall. -/
structure Within (prior out : ℕ) (rules : RateRules) : Prop where
  rise : out ≤ prior + prior * min rules.maxChangeBps 10000 / 10000
  fall : prior ≤ out + prior * min rules.maxFallBps 10000 / 10000

section
variable {prior median low high out a b : ℕ} {rules : RateRules} {e : RateEpoch} {live : ℕ × ℕ}

theorem bounded_between (positive : 0 < prior) (fits : prior ≤ maxValue 128) (rise fall : ℕ) :
    min prior median ≤ bounded prior median rise fall ∧
      bounded prior median rise fall ≤ max prior median := by
  unfold bounded saturatingAdd
  omega

theorem bounded_within (positive : 0 < prior) (fits : prior ≤ maxValue 128) :
    Within prior (bounded prior median rules.maxChangeBps rules.maxFallBps) rules := by
  have step (bps : ℕ) : rateStep prior bps ≤ prior * min bps 10000 / 10000 :=
    Nat.div_le_div_right (min_le_left _ _)
  have rise := step rules.maxChangeBps
  have fall := step rules.maxFallBps
  unfold bounded saturatingAdd
  constructor <;> omega

theorem banded_between (positive : 0 < prior) (fits : prior ≤ maxValue 128)
    (low_in : a ≤ low ∧ low ≤ b) (high_in : a ≤ high ∧ high ≤ b) (rise fall : ℕ) :
    min prior a ≤ banded prior low high rise fall ∧
      banded prior low high rise fall ≤ max prior b := by
  have between := @bounded_between prior (max (min low high) (min prior (max high low))) positive
    fits rise fall
  unfold banded
  omega

theorem RateEpoch.next_cases (e : RateEpoch) (live : ℕ × ℕ) :
    e.held = true ∧ e.next live = live ∨
    (∃ t, e.held = false ∧ e.tally = some t ∧ e.full = true ∧ e.next live =
      (banded live.1 t.low t.high e.rules.maxChangeBps e.rules.maxFallBps, 0)) ∨
    ∃ t, e.held = false ∧ e.tally = some t ∧ e.full = false ∧
      (e.next live).2 = (if e.far live.1 then saturatingAdd 64 live.2 1 else 0) ∧
      (e.next live).1 = if e.rules.staleEpochs ≤ (e.next live).2 then
        bounded live.1 t.median e.rules.maxChangeBps e.rules.maxFallBps else live.1 := by
  unfold RateEpoch.held RateEpoch.next RateEpoch.far
  cases tallied : e.tally with
  | none => simp
  | some t =>
    have full : t.full = e.full := by
      unfold RateEpoch.tally at tallied
      simp only [bind_eq_bind, bind_eq_some_iff] at tallied
      obtain ⟨_, -, _, -, _, -, eq⟩ := tallied
      obtain rfl := Option.some.inj eq
      rfl
    cases frozen : e.rules.frozen <;> cases quorum : e.full <;>
      simp [nextRate, frozen, full, quorum]
    split_ifs <;> simp_all
    omega

theorem RateEpoch.next_fits (positive : 0 < live.1) (fits : live.1 ≤ maxValue 128) :
    0 < (e.next live).1 ∧ (e.next live).1 ≤ maxValue 128 ∧ Within live.1 (e.next live).1 e.rules := by
  have stay : 0 < live.1 ∧ live.1 ≤ maxValue 128 ∧ Within live.1 live.1 e.rules :=
    ⟨positive, fits, Nat.le_add_right _ _, Nat.le_add_right _ _⟩
  have move (m : ℕ) : 0 < bounded live.1 m e.rules.maxChangeBps e.rules.maxFallBps ∧
      bounded live.1 m e.rules.maxChangeBps e.rules.maxFallBps ≤ maxValue 128 ∧
      Within live.1 (bounded live.1 m e.rules.maxChangeBps e.rules.maxFallBps) e.rules := by
    refine ⟨?_, ?_, bounded_within positive fits⟩ <;> unfold bounded saturatingAdd <;> omega
  obtain ⟨-, same⟩ | ⟨t, -, -, -, banded⟩ | ⟨t, -, -, -, -, next⟩ := e.next_cases live
  · rwa [same]
  · rw [banded]
    exact move _
  · rw [next]
    split_ifs
    exacts [move _, stay]

end

/-! ### Runs of epochs -/

/-- The rate in force with the stale epochs counted, and the epochs tallied, each with the rate
before it. -/
abbrev RateRun := (ℕ × ℕ) × List (ℕ × RateEpoch)

def RateRun.tallied (s : RateRun) (e : RateEpoch) : RateRun := (e.next s.1, s.2 ++ [(s.1.1, e)])

def RateRun.after (start : ℕ) (epochs : List RateEpoch) : RateRun :=
  epochs.foldl RateRun.tallied ((start, 0), [])

def FarRun (n : ℕ) (epochs : List (ℕ × RateEpoch)) : Prop :=
  ∃ recent, recent <:+ epochs.filter (fun x => !x.2.held) ∧ n ≤ recent.length ∧
    ∀ x ∈ recent, x.2.far x.1 = true

structure RateRun.Counted (s : RateRun) : Prop where
  positive : 0 < s.1.1
  fits : s.1.1 ≤ maxValue 128
  stale : FarRun s.1.2 s.2

theorem RateRun.Counted.tallied {s : RateRun} (counted : s.Counted) (e : RateEpoch) :
    (s.tallied e).Counted := by
  obtain ⟨positive, fits, -⟩ := e.next_fits counted.positive counted.fits
  refine ⟨positive, fits, ?_⟩
  obtain ⟨recent, last, long, far⟩ := counted.stale
  unfold RateRun.tallied FarRun
  simp only [filter_append]
  obtain ⟨held, same⟩ | ⟨t, -, -, -, banded⟩ | ⟨t, unheld, -, -, stale, -⟩ := e.next_cases s.1
  · rw [same]
    exact ⟨recent, by simpa [held] using last, long, far⟩
  · exact ⟨[], nil_suffix, by rw [banded]; exact le_rfl, nofun⟩
  · rw [stale]
    split_ifs with here
    · obtain ⟨older, eq⟩ := last
      refine ⟨recent ++ [(s.1.1, e)], ⟨older, ?_⟩, ?_, forall_mem_append.2
        ⟨far, forall_mem_singleton.2 here⟩⟩
      · rw [← eq]
        simp [unheld]
      · unfold saturatingAdd
        rw [length_append, length_singleton]
        omega
    · exact ⟨[], nil_suffix, le_rfl, nofun⟩

theorem RateRun.after_counted {start : ℕ} (positive : 0 < start) (fits : start ≤ maxValue 128)
    (epochs : List RateEpoch) : (RateRun.after start epochs).Counted := by
  have begun : RateRun.Counted ((start, 0), []) :=
    ⟨positive, fits, [], nil_suffix, le_rfl, nofun⟩
  exact foldlRecOn epochs _ begun fun s counted e _ => counted.tallied e

/-- What a minority of the reports can do to the rate in force. -/
structure Resists (s : RateRun) (e : RateEpoch) : Prop where
  within : Within s.1.1 (e.next s.1).1 e.rules
  order : ∀ rows, rows.Perm e.rows →
    RateEpoch.next ⟨rows, e.full, e.quantileLowBps, e.quantileHighBps, e.rules⟩ s.1 = e.next s.1
  /-- With the quorum, the rate stays between where it was and where most of the stake is. -/
  quorum : e.full = true → e.quantileLowBps ≤ e.quantileHighBps → ∀ a b,
    stakeOutside a b e.rows * 10000 < e.quantileLowBps * stakeOf e.rows →
    stakeOutside a b e.rows * 10000 < (10000 - e.quantileHighBps) * stakeOf e.rows →
    (min s.1.1 a ≤ (e.next s.1).1 ∧ (e.next s.1).1 ≤ max s.1.1 b) ∧
      a - (e.next s.1).1 ≤ a - s.1.1 ∧ (e.next s.1).1 - b ≤ s.1.1 - b
  /-- Short of it, the rate moves toward the median alone, after a run of far epochs. -/
  short : e.full = false → (e.next s.1).1 ≠ s.1.1 →
    (∃ median, stakeWeightedQuantile e.rows 5000 = some median ∧
      min s.1.1 median ≤ (e.next s.1).1 ∧ (e.next s.1).1 ≤ max s.1.1 median) ∧
    FarRun e.rules.staleEpochs (s.tallied e).2

namespace HeldBetween

def epoch (rate : ℕ) (frozen : Bool) : RateEpoch where
  rows := [⟨rate, [1], 100⟩]
  full := false
  quantileLowBps := 3334
  quantileHighBps := 6666
  rules := ⟨100, 500, 2, 300, frozen⟩

def past : List RateEpoch := [epoch 2000 false, epoch 1000 true]

end HeldBetween

end Tenzro.Rates
