import Tenzro.Apportionment
import Tenzro.VotingWeights

set_option autoImplicit false
set_option linter.dupNamespace false

/-!
# The committee of a validator set


-/
namespace Tenzro.ValidatorSet
open FixedWidth Outcome Ranking WideArithmetic

/-! ### The order of the stakes -/

section
variable {cap total capped rest : ℕ} {raw : List ℕ}

def ordered (raw : List ℕ) : List (ℕ × ℕ) := largestFirst raw.zipIdx

theorem nodup_zipIdx (raw : List ℕ) : raw.zipIdx.Nodup := by
  apply List.Nodup.of_map Prod.snd
  rw [List.zipIdx_map_snd]
  exact List.nodup_range'

theorem ordered_sorted : (ordered raw).Pairwise Before :=
  largestFirst_sorted (nodup_zipIdx raw)

theorem ordered_perm : (ordered raw).Perm raw.zipIdx := largestFirst_perm _

theorem nodup_ordered : (ordered raw).Nodup := ordered_perm.nodup_iff.2 (nodup_zipIdx raw)

theorem map_fst_ordered : ((ordered raw).map Prod.fst).Perm raw := by
  rw [← List.zipIdx_map_fst 0 raw]
  conv_lhs => rw [List.zipIdx_map_fst]
  exact ordered_perm.map Prod.fst

theorem sum_ordered : ((ordered raw).map Prod.fst).sum = raw.sum := map_fst_ordered.sum_eq

def stakedCount (raw : List ℕ) : ℕ := raw.countP (0 < ·)

theorem stakedCount_ordered : (ordered raw).countP (fun e => 0 < e.1) = stakedCount raw := by
  unfold stakedCount
  rw [← map_fst_ordered.countP_eq, List.countP_map]
  rfl

theorem le_head {l : List (ℕ × ℕ)} (sorted : l.Pairwise Before) {e d : ℕ × ℕ}
    (head : e ∈ l.head?) (mem : d ∈ l) : d.1 ≤ e.1 := by
  cases l with
  | nil => cases mem
  | cons a l =>
    cases head
    rcases List.mem_cons.1 mem with rfl | mem
    · exact le_rfl
    · have first := (List.pairwise_cons.1 sorted).1 d mem
      unfold Before at first
      omega

theorem sum_le_head {l : List (ℕ × ℕ)} (sorted : l.Pairwise Before) {e : ℕ × ℕ}
    (head : e ∈ l.head?) : (l.map Prod.fst).sum ≤ l.countP (fun d => 0 < d.1) * e.1 := by
  have below : ∀ d ∈ l, d.1 ≤ e.1 := fun d mem => le_head sorted head mem
  clear head sorted
  induction l with
  | nil => simp
  | cons d l ih =>
    obtain ⟨first, below⟩ := List.forall_mem_cons.1 below
    have later := ih below
    rw [List.map_cons, List.sum_cons, List.countP_cons]
    rcases Nat.eq_zero_or_pos d.1 with zero | pos
    · simp only [zero, lt_irrefl, decide_false, Bool.false_eq_true, if_false, Nat.add_zero]
      omega
    · simp only [pos, decide_true, if_true, Nat.add_mul, Nat.one_mul]
      omega

theorem Filled.exhausted (filled : Filled cap (ordered raw) total capped rest) :
    (((ordered raw).drop capped).map Prod.fst).sum = 0 ↔ stakedCount raw * cap < total := by
  have spent := filled.spent
  have counted : stakedCount raw = capped +
      ((ordered raw).drop capped).countP (fun e => 0 < e.1) := by
    rw [← stakedCount_ordered]
    conv_lhs => rw [← List.take_append_drop capped (ordered raw), List.countP_append]
    rw [List.countP_eq_length.2 fun e mem => by simpa using filled.staked e mem,
      List.length_take_of_le filled.within]
  constructor
  · intro none
    have zero : ((ordered raw).drop capped).countP (fun e => 0 < e.1) = 0 := by
      rw [List.countP_eq_zero]
      intro e mem
      have zero := List.sum_eq_zero_iff.1 none _ (List.mem_map_of_mem mem)
      simp [zero]
    have left := filled.left
    rw [counted, zero, Nat.add_zero]
    omega
  · intro short
    by_contra some
    rcases filled.stops with none | stops
    · exact some none
    · obtain ⟨e, head⟩ : ∃ e, e ∈ ((ordered raw).drop capped).head? := by
        cases bottom : (ordered raw).drop capped with
        | nil => simp [bottom] at some
        | cons e l => exact ⟨e, rfl⟩
      have bound := sum_le_head (ordered_sorted.sublist (List.drop_sublist ..)) head
      have within := stops e head
      rw [counted, Nat.add_mul] at short
      have fewer : ((ordered raw).drop capped).countP (fun e => 0 < e.1) * cap < rest := by omega
      generalize ((ordered raw).drop capped).countP (fun e => 0 < e.1) = q at *
      have positive : 0 < e.1 := by
        rcases Nat.eq_zero_or_pos e.1 with zero | positive
        · rw [zero, Nat.mul_zero] at bound
          omega
        · exact positive
      have chain : e.1 * (q * cap) < e.1 * (q * cap) := calc
        e.1 * (q * cap) < e.1 * rest := Nat.mul_lt_mul_of_pos_left fewer positive
        _ ≤ cap * (((ordered raw).drop capped).map Prod.fst).sum := within
        _ ≤ cap * (q * e.1) := Nat.mul_le_mul_left _ bound
        _ = e.1 * (q * cap) := by ring
      exact lt_irrefl _ chain

end

/-! ### The weights written -/

section
variable {α : Type} (place : α → ℕ) (value : α → ℕ)

theorem length_foldl_set (l : List α) (w : List ℕ) :
    (l.foldl (fun w b => w.set (place b) (value b)) w).length = w.length := by
  induction l generalizing w with
  | nil => rfl
  | cons b l ih => rw [List.foldl_cons, ih, List.length_set]

theorem getElem?_foldl_set {l : List α} (nodup : (l.map place).Nodup) (w : List ℕ) (i : ℕ) :
    (l.foldl (fun w b => w.set (place b) (value b)) w)[i]? =
      if i < w.length then (((l.find? fun b => place b = i).map value).or w[i]?) else none := by
  induction l generalizing w with
  | nil =>
    split_ifs with inside
    · rfl
    · exact List.getElem?_eq_none (not_lt.1 inside)
  | cons b l ih =>
    obtain ⟨away, nodup⟩ := List.nodup_cons.1 nodup
    rw [List.foldl_cons, ih nodup, List.length_set]
    split_ifs with inside
    · by_cases own : place b = i
      · subst own
        have none : l.find? (fun c => place c = place b) = none := by
          rw [List.find?_eq_none]
          intro c mem same
          exact away (List.mem_map.2 ⟨c, mem, by simpa using same⟩)
        simp [none, inside]
      · simp [own]
    · rfl

end

section
variable {cap total capped rest restRaw : ℕ} {raw : List ℕ}

theorem lt_iff_mem_take {α : Type} {l : List α} (nodup : l.Nodup) {n k : ℕ} {a : α}
    (at_n : l[n]? = some a) : n < k ↔ a ∈ l.take k := by
  rw [List.mem_take_iff_getElem]
  obtain ⟨inside, value⟩ := List.getElem?_eq_some_iff.1 at_n
  constructor
  · intro below
    exact ⟨n, by omega, value⟩
  · rintro ⟨m, below, same⟩
    have one : m = n := (nodup.getElem_inj_iff).1 (same.trans value.symm)
    omega

def weightAt (cap capped rest restRaw : ℕ) (raw : List ℕ) (e : ℕ × ℕ) : ℕ :=
  if e ∈ (ordered raw).take capped then cap else mulDiv e.1 rest restRaw

theorem written_eq : (ordered raw).zipIdx.foldl
    (fun weights e => weights.set e.1.2 (weightOf cap capped rest restRaw e)) raw =
      raw.zipIdx.map (weightAt cap capped rest restRaw raw) := by
  have places : ((ordered raw).zipIdx.map fun e => e.1.2).Nodup := by
    have indices : (ordered raw).zipIdx.map (fun e => e.1.2) = (ordered raw).map Prod.snd := by
      conv_rhs => rw [← List.zipIdx_map_fst 0 (ordered raw), List.map_map]
      rfl
    rw [indices, (ordered_perm.map Prod.snd).nodup_iff, List.zipIdx_map_snd]
    exact List.nodup_range'
  apply List.ext_getElem?
  intro i
  rw [getElem?_foldl_set (fun e : (ℕ × ℕ) × ℕ => e.1.2) _ places, List.getElem?_map,
    List.getElem?_zipIdx]
  by_cases inside : i < raw.length
  · have at_i : raw[i]? = some raw[i] := List.getElem?_eq_getElem inside
    have mem : (raw[i], i) ∈ ordered raw :=
      ordered_perm.mem_iff.2 (List.mk_mem_zipIdx_iff_getElem?.2 at_i)
    obtain ⟨n, at_n⟩ := List.mem_iff_getElem?.1 mem
    have there : ((raw[i], i), n) ∈ (ordered raw).zipIdx :=
      List.mk_mem_zipIdx_iff_getElem?.2 at_n
    obtain ⟨c, found⟩ : ∃ c, (ordered raw).zipIdx.find? (fun e => e.1.2 = i) = some c := by
      rw [← Option.isSome_iff_exists, List.find?_isSome]
      exact ⟨_, there, by simp⟩
    obtain ⟨⟨v, j⟩, m⟩ := c
    obtain rfl : j = i := by simpa using List.find?_some found
    have at_m := List.mk_mem_zipIdx_iff_getElem?.1 (List.mem_of_find?_eq_some found)
    have listed : (v, j) ∈ raw.zipIdx := ordered_perm.mem_iff.1 (List.mem_of_getElem? at_m)
    obtain rfl : raw[j] = v := by
      have value := List.mk_mem_zipIdx_iff_getElem?.1 listed
      rw [at_i] at value
      exact Option.some.inj value
    rw [if_pos inside, found, at_i]
    simp only [Option.map_some, Option.some_or, weightOf, weightAt, Nat.zero_add,
      lt_iff_mem_take nodup_ordered at_m]
  · rw [if_neg inside, List.getElem?_eq_none (not_lt.1 inside)]
    rfl

end

/-! ### What the claim asks of the weights -/

/-- Capped weights, in proportion to the powers but for the rounding. -/
structure Normalized (powers weights : List ℕ) (cap : ℕ) : Prop where
  length : weights.length = powers.length
  capped : ∀ w ∈ weights, w ≤ cap
  idle : ∀ e ∈ powers.zip weights, e.1 = 0 → e.2 = 0
  sum_le : weights.sum ≤ powers.sum
  sum_gt : powers.sum < weights.sum + powers.length
  monotone : ∀ e ∈ powers.zip weights, ∀ d ∈ powers.zip weights, e.1 < d.1 → e.2 ≤ d.2

section
variable {cap total capped rest : ℕ} {raw : List ℕ}

theorem zip_weightAt (f : ℕ × ℕ → ℕ) : raw.zip (raw.zipIdx.map f) =
    raw.zipIdx.map fun e => (e.1, f e) := by
  conv_lhs => lhs; rw [← List.zipIdx_map_fst 0 raw]
  rw [List.zip_map']

theorem sum_div_le (l : List ℕ) (c : ℕ) (pos : 0 < c) (a : ℕ) :
    c * (l.map fun n => n * a / c).sum ≤ l.sum * a ∧
      l.sum * a + l.length ≤ c * ((l.map fun n => n * a / c).sum + l.length) := by
  induction l with
  | nil => simp
  | cons n l ih =>
    obtain ⟨lower, upper⟩ := ih
    have parts := Nat.div_add_mod (n * a) c
    have small := Nat.mod_lt (n * a) pos
    simp only [List.map_cons, List.sum_cons, List.length_cons, Nat.mul_add, Nat.add_mul] at *
    omega

theorem Filled.normalized (filled : Filled cap (ordered raw) raw.sum capped rest)
    (fits : raw.sum < 2 ^ 128)
    (some : (((ordered raw).drop capped).map Prod.fst).sum ≠ 0) :
    Normalized raw (raw.zipIdx.map
      (weightAt cap capped rest (((ordered raw).drop capped).map Prod.fst).sum raw)) cap := by
  set bottom := (ordered raw).drop capped with bottom_eq
  set restRaw := (bottom.map Prod.fst).sum with restRaw_eq
  have spent := filled.spent
  have parted : ∀ e ∈ raw.zipIdx, e ∈ (ordered raw).take capped ∨ e ∈ bottom := fun e mem => by
    rw [← List.mem_append, List.take_append_drop]
    exact ordered_perm.mem_iff.2 mem
  have total : ((ordered raw).take capped |>.map Prod.fst).sum + restRaw = raw.sum := by
    rw [restRaw_eq, ← List.sum_append, ← List.map_append, List.take_append_drop, sum_ordered]
  have sorted : bottom.Pairwise Before := ordered_sorted.sublist (List.drop_sublist ..)
  obtain ⟨e₀, head⟩ : ∃ e, e ∈ bottom.head? := by
    cases parts : bottom with
    | nil => simp [restRaw_eq, parts] at some
    | cons e l => exact ⟨e, rfl⟩
  have stops : e₀.1 * rest ≤ cap * restRaw := by
    rcases filled.stops with none | stops
    · exact absurd none some
    · exact stops e₀ head
  have pos : 0 < restRaw := Nat.pos_of_ne_zero some
  have share : ∀ e ∈ bottom, mulDiv e.1 rest restRaw = e.1 * rest / restRaw ∧
      e.1 * rest / restRaw ≤ cap := fun e mem => by
    have below := le_head sorted head mem
    have quotient : e.1 * rest / restRaw ≤ cap := by
      apply Nat.div_le_of_le_mul
      rw [Nat.mul_comm restRaw]
      exact (Nat.mul_le_mul_right _ below).trans stops
    have within : e.1 ≤ raw.sum := by
      have part : e.1 ≤ restRaw := List.single_le_sum (by simp) _ (List.mem_map_of_mem mem)
      omega
    have small : e.1 * rest / restRaw ≤ rest := by
      apply Nat.div_le_of_le_mul
      apply Nat.mul_le_mul_right
      exact List.single_le_sum (by simp) _ (List.mem_map_of_mem mem)
    refine ⟨mulDiv_eq pos (by omega) ?_ (by omega), quotient⟩
    calc e.1 * rest < 2 ^ 128 * 2 ^ 128 := Nat.mul_lt_mul'' (by omega) (by omega)
      _ = 2 ^ 256 := by norm_num
  have value : ∀ e ∈ raw.zipIdx, weightAt cap capped rest restRaw raw e =
      if e ∈ (ordered raw).take capped then cap else e.1 * rest / restRaw := fun e mem => by
    unfold weightAt
    split_ifs with top
    · rfl
    · exact (share e ((parted e mem).resolve_left top)).1
  have apart : ∀ e ∈ bottom, e ∉ (ordered raw).take capped := fun e mem top => by
    have nodup : (ordered raw).Nodup := nodup_ordered
    rw [← List.take_append_drop capped (ordered raw)] at nodup
    exact (List.nodup_append.1 nodup).2.2 e top e mem rfl
  have summed : (raw.zipIdx.map (weightAt cap capped rest restRaw raw)).sum = capped * cap +
      (bottom.map fun e => e.1 * rest / restRaw).sum := by
    rw [← (ordered_perm.map _).sum_eq]
    conv_lhs => rw [← List.take_append_drop capped (ordered raw)]
    rw [List.map_append, List.sum_append]
    congr 1
    · have same : ((ordered raw).take capped).map (weightAt cap capped rest restRaw raw) =
          ((ordered raw).take capped).map fun _ => cap :=
        List.map_congr_left fun e mem => if_pos mem
      rw [same, List.map_const', List.sum_replicate, smul_eq_mul,
        List.length_take_of_le filled.within]
    · exact congrArg List.sum (List.map_congr_left fun e mem => by
        rw [weightAt, if_neg (apart e mem), (share e mem).1])
  have bounds := sum_div_le (bottom.map Prod.fst) restRaw pos rest
  rw [List.map_map, List.length_map, ← restRaw_eq] at bounds
  have same : (fun n => n * rest / restRaw) ∘ Prod.fst =
      fun e : ℕ × ℕ => e.1 * rest / restRaw := rfl
  rw [same] at bounds
  obtain ⟨lower, upper⟩ := bounds
  have shared : (bottom.map fun e => e.1 * rest / restRaw).sum ≤ rest :=
    Nat.le_of_mul_le_mul_left lower pos
  have lost : rest < (bottom.map fun e => e.1 * rest / restRaw).sum + bottom.length := by
    have some : 0 < bottom.length := by
      rw [List.length_pos_iff]
      rintro none
      simp [none] at head
    exact Nat.lt_of_mul_lt_mul_left (a := restRaw) (by omega)
  have fewer : bottom.length ≤ raw.length := by
    rw [bottom_eq, List.length_drop, ordered_perm.length_eq, List.length_zipIdx]
    omega
  refine ⟨by simp, ?_, ?_, by omega, by omega, ?_⟩
  · intro w mem
    obtain ⟨e, listed, rfl⟩ := List.mem_map.1 mem
    rw [value e listed]
    split_ifs with top
    · exact le_rfl
    · exact (share e ((parted e listed).resolve_left top)).2
  · rw [zip_weightAt]
    intro d mem zero
    obtain ⟨e, listed, rfl⟩ := List.mem_map.1 mem
    simp only at zero ⊢
    rw [value e listed, if_neg fun top => (filled.staked e top).ne' zero, zero]
    simp
  · rw [zip_weightAt]
    intro d mem d' mem' less
    obtain ⟨e, listed, rfl⟩ := List.mem_map.1 mem
    obtain ⟨e', listed', rfl⟩ := List.mem_map.1 mem'
    simp only at less ⊢
    rw [value e listed, value e' listed']
    by_cases top' : e' ∈ (ordered raw).take capped
    · rw [if_pos top']
      split_ifs with top
      · exact le_rfl
      · exact (share e ((parted e listed).resolve_left top)).2
    · have top : e ∉ (ordered raw).take capped := fun top => by
        have order : (ordered raw).Pairwise Before := ordered_sorted
        rw [← List.take_append_drop capped (ordered raw)] at order
        have first := (List.pairwise_append.1 order).2.2 e top e'
          ((parted e' listed').resolve_left top')
        unfold Before at first
        omega
      rw [if_neg top, if_neg top']
      exact Nat.div_le_div_right (Nat.mul_le_mul_right _ less.le)

end

section
variable [ValidatorKeys]

def WeighsFairly (s : ValidatorSet) : Prop :=
  ∃ weights, s.normalizedWeights = .ok weights ∧
    if s.powers.sum ≤ s.powers.length * weightCap s.powers.sum then
      Normalized s.powers weights (weightCap s.powers.sum)
    else weights = s.powers

omit [ValidatorKeys] in
theorem normalized_zero {powers : List ℕ} (none : powers.sum = 0) (some : powers ≠ []) (cap : ℕ) :
    Normalized powers powers cap := by
  have zero : ∀ w ∈ powers, w = 0 := fun w mem => List.sum_eq_zero_iff.1 none w mem
  have same : ∀ e ∈ powers.zip powers, e.2 = 0 := fun e mem => zero _ (List.of_mem_zip mem).2
  refine ⟨rfl, fun w mem => ?_, fun e mem _ => same e mem, le_rfl, ?_, fun e mem d _ _ => ?_⟩
  · rw [zero w mem]
    exact Nat.zero_le _
  · have long := List.length_pos_iff.2 some
    omega
  · rw [same e mem]
    exact Nat.zero_le _

/-- The weights are as they should be unless the validators with a stake are too few for the cap
while all validators together are not. -/
theorem normalized_weights (s : ValidatorSet) (fits : s.powers.sum < 2 ^ 128) :
    s.WeighsFairly ↔ (s.powers.sum ≤ s.powers.length * weightCap s.powers.sum →
      s.powers.sum ≤ stakedCount s.powers * weightCap s.powers.sum) := by
  have nonempty : s.powers ≠ [] := by
    unfold powers
    simpa using s.nonempty
  unfold WeighsFairly normalizedWeights
  simp only
  set raw := s.powers
  set cap := weightCap raw.sum
  by_cases none : raw.sum = 0
  · rw [if_pos none]
    refine ⟨fun _ _ => by omega, fun _ => ⟨raw, rfl, ?_⟩⟩
    rw [if_pos (by omega)]
    exact normalized_zero none nonempty cap
  rw [if_neg none]
  by_cases idle : cap = 0 ∨ saturatingMul 128 raw.length cap < raw.sum
  · have below : ¬ raw.sum ≤ raw.length * cap := by
      rcases idle with zero | short
      · rw [zero]
        omega
      · unfold saturatingMul maxValue at short
        omega
    rw [if_pos idle]
    refine ⟨fun _ applies => absurd applies below, fun _ => ⟨raw, rfl, ?_⟩⟩
    rw [if_neg below]
  · rw [if_neg idle]
    push Not at idle
    obtain ⟨some, enough⟩ := idle
    have applies : raw.sum ≤ raw.length * cap := enough.trans (min_le_left _ _)
    obtain ⟨capped, rest, ran, filled⟩ :=
      fill_ok cap (ordered raw) 0 (Nat.pos_of_ne_zero none)
    rw [sum_ordered, Nat.zero_add] at ran
    have result : (ordered raw).zipIdx.foldl (fun weights e => weights.set e.1.2
        (weightOf cap capped rest (((ordered raw).drop capped).map Prod.fst).sum e)) raw = _ :=
      written_eq
    unfold ordered at ran result
    rw [ran]
    simp only [applies, if_true, forall_const]
    constructor
    · rintro ⟨weights, returned, fair⟩
      cases pure_ok.1 returned
      rw [result] at fair
      by_contra short
      have zero := filled.exhausted.2 (not_le.1 short)
      obtain ⟨e, bottom⟩ : ∃ e, e ∈ (ordered raw).drop capped := by
        have many : capped < (ordered raw).length := by
          have spent := filled.spent
          have left := filled.left
          rw [ordered_perm.length_eq, List.length_zipIdx]
          by_contra all
          have more : raw.length * cap ≤ capped * cap := Nat.mul_le_mul_right _ (not_lt.1 all)
          omega
        have some : (ordered raw).drop capped ≠ [] := by
          rw [Ne, List.drop_eq_nil_iff]
          omega
        exact List.exists_mem_of_ne_nil _ some
      have idle : e.1 = 0 := List.sum_eq_zero_iff.1 zero _ (List.mem_map_of_mem bottom)
      have listed : e ∈ raw.zipIdx := ordered_perm.mem_iff.1 (List.mem_of_mem_drop bottom)
      have weight := fair.idle
      rw [zip_weightAt] at weight
      have nothing := weight _ (List.mem_map_of_mem listed) idle
      have untaken : e ∉ (ordered raw).take capped := fun top =>
        (filled.staked e top).ne' idle
      unfold ordered at zero untaken
      rw [weightAt, ordered, if_neg untaken, idle, zero, mulDiv_zero] at nothing
      norm_num at nothing
    · intro enough
      have left : (((ordered raw).drop capped).map Prod.fst).sum ≠ 0 := fun zero =>
        absurd (filled.exhausted.1 zero) (not_lt.2 enough)
      refine ⟨_, rfl, ?_⟩
      rw [result]
      exact filled.normalized fits left

end

/-! ### One active validator among ten -/

namespace Idle

@[reducible] def keys : ValidatorKeys where
  checkWellFormed _ := .ok ()

attribute [local instance] keys

def validators (status : ValidatorStatus) : List ValidatorInfo :=
  ⟨1, 1, 10, .active⟩ :: (List.range 9).map fun n => ⟨n + 2, n + 2, 10, status⟩

def oneActive : ValidatorSet where
  epoch := 0
  validators := validators .inactive
  nonempty := by decide
  distinct := checkDistinct_ok (by decide)

def allActive : ValidatorSet where
  epoch := 0
  validators := validators .active
  nonempty := by decide
  distinct := checkDistinct_ok (by decide)

theorem weights_oneActive :
    oneActive.normalizedWeights = .ok (1 :: List.replicate 9 (2 ^ 128 - 1)) := by
  decide +kernel

/-- Validators without any power get every bit of the weight set. -/
theorem oneActive_lifted : ¬ oneActive.WeighsFairly := by
  rintro ⟨weights, returned, fair⟩
  rw [weights_oneActive] at returned
  cases returned
  rw [if_pos (by decide)] at fair
  exact absurd (fair.capped (2 ^ 128 - 1) (by simp)) (by decide)

theorem normalized_weights_allActive : allActive.WeighsFairly :=
  (normalized_weights allActive (by decide)).2 fun _ => by decide

end Idle

end Tenzro.ValidatorSet

namespace Tenzro
open Outcome

/-- Seats in proportion to weights: each quota rounded down or up, and no fewer for more weight. -/
structure Apportioned (weights : List ℕ) (budget : ℕ) (seats : List ℕ) : Prop where
  length : seats.length = weights.length
  sum : seats.sum = budget
  quota : ∀ e ∈ weights.zip seats,
    e.1 * budget / weights.sum ≤ e.2 ∧ e.2 ≤ e.1 * budget ⌈/⌉ weights.sum
  monotone : ∀ e ∈ weights.zip seats, ∀ d ∈ weights.zip seats, e.1 < d.1 → e.2 ≤ d.2

theorem apportion_apportioned {weights : List ℕ} {budget : ℕ}
    (fits : ∀ w ∈ weights, w * budget < 2 ^ 128) (weighed : 0 < weights.sum) :
    Apportioned weights budget (apportion weights budget) := by
  have pairs : weights.zip (apportion weights budget) =
      weights.zipIdx.map fun e => (e.1, seatsAt weights.sum budget weights e) := by
    rw [apportion_eq weighed.ne', ValidatorSet.zip_weightAt]
  refine ⟨length_apportion, sum_apportion fits weighed, ?_, ?_⟩
  · rw [pairs]
    intro d mem
    obtain ⟨e, listed, rfl⟩ := List.mem_map.1 mem
    exact seatsAt_quota fits weighed listed
  · rw [pairs]
    intro d mem d' mem' less
    obtain ⟨e, listed, rfl⟩ := List.mem_map.1 mem
    obtain ⟨e', listed', rfl⟩ := List.mem_map.1 mem'
    exact seatsAt_mono fits weighed listed listed' less

section
variable [ValidatorKeys]

def memberOf (e : ValidatorInfo × ℕ) : Member :=
  ⟨e.1.address, e.1.publicKey, e.1.votingPower, e.2⟩

def fromValidatorSet (s : ValidatorSet) (seatBudget : ℕ) : Except String Committee := do
  let weights ← s.normalizedWeights
  let seats := apportion weights (max seatBudget s.validators.length)
  Committee.fromMembers s.epoch
    (((s.validators.zip seats).filter fun e => 0 < e.2).map memberOf)

omit [ValidatorKeys] in
theorem sum_seated (l : List (ValidatorInfo × ℕ)) :
    (((l.filter fun e => 0 < e.2).map memberOf).map Member.seats).sum = (l.map Prod.snd).sum := by
  induction l with
  | nil => rfl
  | cons e l ih =>
    rcases Nat.eq_zero_or_pos e.2 with zero | pos
    · rw [List.filter_cons_of_neg (by simp [zero]), ih, List.map_cons, List.sum_cons, zero,
        Nat.zero_add]
    · rw [List.filter_cons_of_pos (by simpa using pos)]
      simp only [List.map_cons, List.sum_cons, ih, memberOf]

omit [ValidatorKeys] in
theorem Committee.fromMembers_members {epoch : ℕ} {members : List Member} {c : Committee}
    (made : Committee.fromMembers epoch members = .ok c) : c.members = members := by
  unfold Committee.fromMembers at made
  split_ifs at made
  rw [← Except.ok.inj made]

theorem ValidatorSet.length_normalizedWeights {s : ValidatorSet} {weights : List ℕ}
    (weighed : s.normalizedWeights = .ok weights) : weights.length = s.validators.length := by
  unfold ValidatorSet.normalizedWeights at weighed
  simp only at weighed
  split_ifs at weighed
  · rw [← Except.ok.inj weighed, ValidatorSet.powers, List.length_map]
  · rw [← Except.ok.inj weighed, ValidatorSet.powers, List.length_map]
  · obtain ⟨_, -, weighed⟩ := bind_ok.1 weighed
    rw [← pure_ok.1 weighed, ValidatorSet.length_foldl_set, ValidatorSet.powers, List.length_map]

end

open ValidatorSet.Idle

attribute [local instance] keys

end Tenzro
