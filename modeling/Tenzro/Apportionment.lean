import Tenzro.FixedWidth
import Tenzro.Ranking

set_option autoImplicit false

/-!
# Apportioning seats

Largest remainders: every validator gets its quota rounded down, and the seats left over go to
the largest remainders.
-/
namespace Tenzro
open FixedWidth Ranking List

/-- A validator's quota times the total weight. -/
def exactShare (budget w : ℕ) : ℕ := saturatingMul 128 w budget

/-- What rounding down leaves of the quota of a weight at an index. -/
def remainderOf (total budget : ℕ) (e : ℕ × ℕ) : ℕ × ℕ := (exactShare budget e.1 % total, e.2)

def remaindersOf (total budget : ℕ) (weights : List ℕ) : List (ℕ × ℕ) :=
  weights.zipIdx.map (remainderOf total budget)

/-- The seats left once every quota is rounded down. -/
def leftOver (total budget : ℕ) (weights : List ℕ) : ℕ :=
  budget - (weights.map fun w => exactShare budget w / total).sum

def apportion (weights : List ℕ) (budget : ℕ) : List ℕ :=
  let total := weights.sum
  if total = 0 then replicate weights.length 1
  else
    let seats := weights.map fun w => exactShare budget w / total
    let remainders := largestFirst (remaindersOf total budget weights)
    (remainders.take (leftOver total budget weights)).foldl
      (fun seats r => seats.modify r.2 (· + 1)) seats

section
variable {total budget : ℕ} {weights : List ℕ}

theorem length_remaindersOf : (remaindersOf total budget weights).length = weights.length := by
  simp [remaindersOf]

theorem map_snd_remaindersOf :
    (remaindersOf total budget weights).map Prod.snd = range weights.length := by
  rw [remaindersOf, map_map]
  change weights.zipIdx.map (fun e => e.2) = _
  rw [zipIdx_map_snd, range_eq_range']

theorem nodup_remaindersOf : (remaindersOf total budget weights).Nodup := by
  apply Nodup.of_map Prod.snd
  rw [map_snd_remaindersOf]
  exact nodup_range

/-- Whether the validator's remainder is among the largest, one for each seat left over. -/
def RoundedUp (total budget : ℕ) (weights : List ℕ) (e : ℕ × ℕ) : Prop :=
  rank Before (remaindersOf total budget weights) (remainderOf total budget e) <
    leftOver total budget weights

instance (e : ℕ × ℕ) : Decidable (RoundedUp total budget weights e) :=
  inferInstanceAs (Decidable (_ < _))

def seatsAt (total budget : ℕ) (weights : List ℕ) (e : ℕ × ℕ) : ℕ :=
  exactShare budget e.1 / total + if RoundedUp total budget weights e then 1 else 0

theorem getElem?_foldl_modify (l : List (ℕ × ℕ)) (nodup : (l.map Prod.snd).Nodup) (seats : List ℕ)
    (i : ℕ) : (l.foldl (fun seats r => seats.modify r.2 (· + 1)) seats)[i]? =
      seats[i]?.map (· + if i ∈ l.map Prod.snd then 1 else 0) := by
  induction l generalizing seats with
  | nil => simp
  | cons r l ih =>
    obtain ⟨away, nodup⟩ := nodup_cons.1 nodup
    rw [foldl_cons, ih nodup, getElem?_modify, map_cons]
    by_cases own : r.2 = i
    · subst own
      rw [if_neg away, if_pos mem_cons_self]
      cases seats[r.2]? <;> simp
    · have same : i ∈ r.2 :: l.map Prod.snd ↔ i ∈ l.map Prod.snd := by
        rw [mem_cons]
        exact ⟨fun mem => mem.resolve_left fun eq => own eq.symm, .inr⟩
      simp only [own, if_false, Option.map_eq_map, Option.map_id', same]

theorem remainderOf_mem {e : ℕ × ℕ} (mem : e ∈ weights.zipIdx) :
    remainderOf total budget e ∈ remaindersOf total budget weights :=
  mem_map_of_mem mem

theorem mem_taken {e : ℕ × ℕ} (mem : e ∈ weights.zipIdx) :
    e.2 ∈ ((largestFirst (remaindersOf total budget weights)).take (leftOver total budget weights)).map
      Prod.snd ↔ RoundedUp total budget weights e := by
  have sorted : (largestFirst (remaindersOf total budget weights)).Pairwise Before :=
    largestFirst_sorted nodup_remaindersOf
  have taken (r : ℕ × ℕ) := mem_take (x := r) sorted (leftOver total budget weights)
  unfold RoundedUp
  rw [← rank_perm (largestFirst_perm _), mem_map]
  constructor
  · rintro ⟨r, first, same⟩
    obtain ⟨there, below⟩ := (taken r).1 first
    rw [(largestFirst_perm _).mem_iff] at there
    obtain ⟨e', mem', rfl⟩ := mem_map.1 there
    obtain rfl : e' = e := by
      have one := mk_mem_zipIdx_iff_getElem?.1 mem
      have other := mk_mem_zipIdx_iff_getElem?.1 mem'
      change e'.2 = e.2 at same
      rw [same, one] at other
      exact Prod.ext (Option.some.inj other).symm same
    exact below
  · intro below
    exact ⟨_, (taken _).2 ⟨(largestFirst_perm _).mem_iff.2 (remainderOf_mem mem), below⟩, rfl⟩

/-- Every quota rounded down, and one seat more for the largest remainders. -/
theorem apportion_eq (weighed : weights.sum ≠ 0) :
    apportion weights budget = weights.zipIdx.map (seatsAt weights.sum budget weights) := by
  have nodup : (((largestFirst (remaindersOf weights.sum budget weights)).take
      (leftOver weights.sum budget weights)).map Prod.snd).Nodup := by
    have all : ((largestFirst (remaindersOf weights.sum budget weights)).map Prod.snd).Nodup := by
      rw [((largestFirst_perm _).map Prod.snd).nodup_iff, map_snd_remaindersOf]
      exact nodup_range
    exact all.sublist ((take_sublist ..).map _)
  apply ext_getElem?
  intro i
  unfold apportion
  simp only [if_neg weighed]
  rw [getElem?_foldl_modify _ nodup, getElem?_map, getElem?_map, getElem?_zipIdx]
  cases found : weights[i]? with
  | none => rfl
  | some w =>
    have mem : (w, i) ∈ weights.zipIdx := mk_mem_zipIdx_iff_getElem?.2 found
    simp only [Option.map_some, Nat.zero_add, seatsAt, ← mem_taken mem]

theorem length_apportion : (apportion weights budget).length = weights.length := by
  by_cases weighed : weights.sum = 0
  · simp [apportion, weighed]
  · simp [apportion_eq weighed]

theorem sum_seatsAt (l : List (ℕ × ℕ)) : (l.map (seatsAt total budget weights)).sum =
    (l.map fun e => exactShare budget e.1 / total).sum +
      l.countP fun e => RoundedUp total budget weights e := by
  induction l with
  | nil => rfl
  | cons e l ih =>
    rw [map_cons, map_cons, sum_cons, sum_cons, ih, countP_cons, seatsAt]
    by_cases up : RoundedUp total budget weights e <;> simp [up] <;> omega

theorem countP_roundedUp : weights.zipIdx.countP (fun e => RoundedUp total budget weights e) =
    min (leftOver total budget weights) weights.length := by
  have counted := countP_rank (largestFirst_perm (remaindersOf total budget weights))
    (largestFirst_sorted nodup_remaindersOf) (leftOver total budget weights)
  rw [length_remaindersOf, remaindersOf, countP_map] at counted
  exact counted

end

/-! ### Quotas that fit -/

theorem exactShare_eq {budget w : ℕ} (fits : w * budget < 2 ^ 128) :
    exactShare budget w = w * budget := by
  unfold exactShare saturatingMul maxValue
  omega

theorem sum_lt_countP {t : ℕ} (l : List ℕ) (small : ∀ x ∈ l, x < t) :
    l.sum + l.countP (fun x => 0 < x) ≤ l.countP (fun x => 0 < x) * t := by
  induction l with
  | nil => simp
  | cons x l ih =>
    obtain ⟨first, small⟩ := forall_mem_cons.1 small
    have rest := ih small
    rw [sum_cons]
    rcases Nat.eq_zero_or_pos x with rfl | pos
    · rw [countP_cons_of_neg (by simp)]
      omega
    · rw [countP_cons_of_pos (by simpa using pos), Nat.add_mul]
      omega

theorem map_zipIdx_fst {β : Type} (l : List ℕ) (f : ℕ → β) :
    l.zipIdx.map (fun e => f e.1) = l.map f := by
  change l.zipIdx.map (f ∘ Prod.fst) = _
  rw [← map_map, zipIdx_map_fst]

section
variable {budget : ℕ} {weights : List ℕ}

theorem sum_exactShare (fits : ∀ w ∈ weights, w * budget < 2 ^ 128) :
    (weights.map (exactShare budget)).sum = weights.sum * budget := by
  have each : weights.map (exactShare budget) = weights.map (· * budget) :=
    map_congr_left fun w mem => exactShare_eq (fits w mem)
  rw [each, sum_map_mul_right, map_id']

theorem floors_remainders (budget total : ℕ) (l : List ℕ) :
    total * (l.map fun w => exactShare budget w / total).sum +
      (l.map fun w => exactShare budget w % total).sum = (l.map (exactShare budget)).sum := by
  induction l with
  | nil => simp
  | cons w l ih =>
    simp only [map_cons, sum_cons, Nat.mul_add]
    have parts := Nat.div_add_mod (exactShare budget w) total
    omega

variable (fits : ∀ w ∈ weights, w * budget < 2 ^ 128) (weighed : 0 < weights.sum)
include fits weighed

theorem sum_floors_le :
    (weights.map fun w => exactShare budget w / weights.sum).sum ≤ budget := by
  have parts := floors_remainders budget weights.sum weights
  rw [sum_exactShare fits] at parts
  exact Nat.le_of_mul_le_mul_left (by omega) weighed

omit weighed in
theorem sum_remainders : (weights.map fun w => exactShare budget w % weights.sum).sum =
    weights.sum * leftOver weights.sum budget weights := by
  have parts := floors_remainders budget weights.sum weights
  rw [sum_exactShare fits] at parts
  rw [leftOver, Nat.mul_sub]
  omega

theorem leftOver_le : leftOver weights.sum budget weights ≤
    (weights.map fun w => exactShare budget w % weights.sum).countP (fun x => 0 < x) := by
  have bound := sum_lt_countP (weights.map fun w => exactShare budget w % weights.sum)
    (t := weights.sum) fun x mem => by
      obtain ⟨w, -, rfl⟩ := mem_map.1 mem
      exact Nat.mod_lt _ weighed
  rw [sum_remainders fits, Nat.mul_comm] at bound
  exact Nat.le_of_mul_le_mul_right ((Nat.le_add_right _ _).trans bound) weighed

theorem RoundedUp.remainder {e : ℕ × ℕ} (up : RoundedUp weights.sum budget weights e) :
    0 < exactShare budget e.1 % weights.sum := by
  have few := leftOver_le fits weighed
  have firsts : weights.map (fun w => exactShare budget w % weights.sum) =
      (remaindersOf weights.sum budget weights).map Prod.fst := by
    rw [remaindersOf, map_map, ← map_zipIdx_fst]
    rfl
  rw [firsts, countP_map] at few
  exact pos_of_rank_lt few up

theorem sum_apportion : (apportion weights budget).sum = budget := by
  have floors := sum_floors_le fits weighed
  have enough : leftOver weights.sum budget weights ≤ weights.length :=
    (leftOver_le fits weighed).trans (countP_le_length.trans (by simp))
  have firsts := map_zipIdx_fst weights fun w => exactShare budget w / weights.sum
  rw [apportion_eq weighed.ne', sum_seatsAt, countP_roundedUp, Nat.min_eq_left enough, firsts,
    leftOver]
  omega

theorem seatsAt_quota {e : ℕ × ℕ} (mem : e ∈ weights.zipIdx) :
    e.1 * budget / weights.sum ≤ seatsAt weights.sum budget weights e ∧
      seatsAt weights.sum budget weights e ≤ e.1 * budget ⌈/⌉ weights.sum := by
  have exact_eq := exactShare_eq (fits e.1 (fst_mem_of_mem_zipIdx mem))
  unfold seatsAt
  rw [exact_eq]
  refine ⟨Nat.le_add_right _ _, ?_⟩
  have upper : e.1 * budget ≤ (e.1 * budget ⌈/⌉ weights.sum) * weights.sum := by
    rw [Nat.mul_comm _ weights.sum]
    exact le_smul_ceilDiv weighed
  have parts := Nat.div_add_mod (e.1 * budget) weights.sum
  split_ifs with up
  · have rest := up.remainder fits weighed
    rw [exact_eq] at rest
    apply Nat.lt_of_mul_lt_mul_right (a := weights.sum)
    rw [Nat.mul_comm (_ / _)]
    omega
  · apply Nat.le_of_mul_le_mul_right _ weighed
    rw [Nat.add_zero, Nat.mul_comm (_ / _)]
    omega

theorem seatsAt_mono {e e' : ℕ × ℕ} (mem : e ∈ weights.zipIdx) (mem' : e' ∈ weights.zipIdx)
    (larger : e.1 < e'.1) :
    seatsAt weights.sum budget weights e ≤ seatsAt weights.sum budget weights e' := by
  have exact_e := exactShare_eq (fits e.1 (fst_mem_of_mem_zipIdx mem))
  have exact_e' := exactShare_eq (fits e'.1 (fst_mem_of_mem_zipIdx mem'))
  have floors : e.1 * budget / weights.sum ≤ e'.1 * budget / weights.sum :=
    Nat.div_le_div_right (Nat.mul_le_mul_right _ larger.le)
  unfold seatsAt
  rw [exact_e, exact_e']
  by_cases up : RoundedUp weights.sum budget weights e
  · rcases floors.lt_or_eq with less | same
    · split_ifs <;> omega
    · have some := up.remainder fits weighed
      rw [exact_e] at some
      have spent : 0 < budget := by
        rcases Nat.eq_zero_or_pos budget with rfl | pos
        · simp at some
        · exact pos
      have shares : e.1 * budget < e'.1 * budget := Nat.mul_lt_mul_of_pos_right larger spent
      have first : Before (remainderOf weights.sum budget e')
          (remainderOf weights.sum budget e) := by
        left
        change exactShare budget e.1 % weights.sum < exactShare budget e'.1 % weights.sum
        rw [exact_e, exact_e']
        have parts := Nat.div_add_mod (e.1 * budget) weights.sum
        have parts' := Nat.div_add_mod (e'.1 * budget) weights.sum
        rw [← same] at parts'
        omega
      have up' : RoundedUp weights.sum budget weights e' :=
        (rank_lt first (remainderOf_mem mem')).trans up
      rw [if_pos up, if_pos up', same]
  · rw [if_neg up]
    exact floors.trans (Nat.le_add_right _ _)

end

/-! ### Dividing a weight -/

abbrev MarkedWeights := List (ℕ × Bool)

namespace MarkedWeights

def weights (l : MarkedWeights) : List ℕ := l.map Prod.fst

def marked (l : MarkedWeights) : List ℕ := (l.filter fun e => e.2).map Prod.fst

def others (l : MarkedWeights) : List ℕ := (l.filter fun e => !e.2).map Prod.fst

def seats (l : MarkedWeights) (budget : ℕ) : ℕ :=
  (((apportion l.weights budget).zip (l.map Prod.snd)).filter fun e => e.2).map Prod.fst |>.sum

def entries (l : MarkedWeights) : List (ℕ × ℕ) :=
  (l.zipIdx.filter fun e => e.1.2).map fun e => (e.1.1, e.2)

theorem sum_weights (l : MarkedWeights) : l.weights.sum = l.marked.sum + l.others.sum := by
  induction l with
  | nil => rfl
  | cons e l ih =>
    obtain ⟨w, mark⟩ := e
    cases mark <;> simp [weights, marked, others] at ih ⊢ <;> omega

theorem zipIdx_weights (l : MarkedWeights) :
    l.weights.zipIdx = l.zipIdx.map fun e => (e.1.1, e.2) := by
  rw [weights, zipIdx_map]
  rfl

theorem entries_sublist (l : MarkedWeights) : l.entries.Sublist l.weights.zipIdx := by
  rw [zipIdx_weights]
  exact filter_sublist.map _

theorem map_fst_entries (l : MarkedWeights) : l.entries.map Prod.fst = l.marked := by
  have whole : l = l.zipIdx.map Prod.fst := (zipIdx_map_fst 0 l).symm
  conv_rhs => rw [marked, whole, filter_map, map_map]
  rw [entries, map_map]
  rfl

theorem seats_eq (l : MarkedWeights) (budget : ℕ) (weighed : l.weights.sum ≠ 0) :
    l.seats budget = (l.entries.map (seatsAt l.weights.sum budget l.weights)).sum := by
  have marks : l.map Prod.snd = l.zipIdx.map fun e => e.1.2 := by
    conv_lhs => rw [← zipIdx_map_fst 0 l, map_map]
    rfl
  rw [seats, apportion_eq weighed, zipIdx_weights, map_map, marks, zip_map',
    filter_map, map_map, entries, map_map]
  rfl

/-- How many of the marked remainders come before one. -/
def rankMarked (l : MarkedWeights) (budget : ℕ) (e : ℕ × ℕ) : ℕ :=
  rank Before (l.entries.map (remainderOf l.weights.sum budget))
    (remainderOf l.weights.sum budget e)

def floors (l : MarkedWeights) (budget : ℕ) : ℕ :=
  (l.marked.map fun w => exactShare budget w / l.weights.sum).sum

/-- Few of the marked are rounded up exactly when the marked remainder with as many marked ones
before it is not. -/
theorem countP_roundedUp_le (l : MarkedWeights) (budget k : ℕ) :
    l.entries.countP (fun e => RoundedUp l.weights.sum budget l.weights e) ≤ k ↔
      ∀ e ∈ l.entries, l.rankMarked budget e = k → ¬ RoundedUp l.weights.sum budget l.weights e := by
  set own := l.entries.map (remainderOf l.weights.sum budget)
  set all := remaindersOf l.weights.sum budget l.weights
  have part : own.Sublist all := l.entries_sublist.map _
  obtain ⟨s, perm, sorted⟩ : ∃ s : List (ℕ × ℕ), s.Perm own ∧ s.Pairwise Before := by
    refine ⟨(largestFirst (remaindersOf l.weights.sum budget l.weights)).filter (· ∈ own), ?_,
      (largestFirst_sorted nodup_remaindersOf).sublist filter_sublist⟩
    refine ((largestFirst_perm _).filter _).trans ?_
    rw [perm_ext_iff_of_nodup (nodup_remaindersOf.filter _) (nodup_remaindersOf.sublist part)]
    intro r
    simp only [mem_filter, decide_eq_true_eq]
    exact ⟨And.right, fun mem => ⟨part.mem mem, mem⟩⟩
  have counted := countP_le perm sorted
    (fun r => rank Before all r < leftOver l.weights.sum budget l.weights)
    (fun x mx y _ first below => (rank_lt first (part.mem mx)).trans below) k
  rw [countP_map] at counted
  refine counted.trans ?_
  simp only [own, forall_mem_map]
  rfl

end MarkedWeights

/-- One validator's weight divided into positive parts, wherever those stand. -/
structure Division where
  /-- The weights, the divided one marked. -/
  whole : MarkedWeights
  /-- The weights after it is divided, the parts marked. -/
  split : MarkedWeights
  one : whole.marked.length = 1
  several : 2 ≤ split.marked.length
  positive : ∀ w ∈ split.marked, 0 < w
  sum : split.marked.sum = whole.marked.sum
  others : split.others = whole.others

namespace Division

theorem total (d : Division) : d.split.weights.sum = d.whole.weights.sum := by
  rw [d.split.sum_weights, d.whole.sum_weights, d.sum, d.others]

theorem weighed (d : Division) : d.whole.weights.sum ≠ 0 := by
  rw [← d.total, d.split.sum_weights]
  have several := d.several
  have positive := d.positive
  cases parts : d.split.marked with
  | nil => simp [parts] at several
  | cons w l =>
    have first := positive w (by simp [parts])
    rw [sum_cons]
    omega

def WholeUp (d : Division) (budget : ℕ) : Prop :=
  ∃ e ∈ d.whole.entries, RoundedUp d.whole.weights.sum budget d.whole.weights e

instance (d : Division) (budget : ℕ) : Decidable (d.WholeUp budget) :=
  inferInstanceAs (Decidable (∃ e ∈ _, _))

/-- With `k` the seats of the undivided quota and one, less those of the parts' quotas rounded
down: the part with `k` parts of larger remainders has at least as many larger remainders before
it as seats are left over. -/
def RoundsEvenly (d : Division) (budget : ℕ) : Prop :=
  let room := d.whole.floors budget + 1 + if d.WholeUp budget then 1 else 0
  d.split.floors budget ≤ room ∧
    ∀ e ∈ d.split.entries, d.split.rankMarked budget e + d.split.floors budget = room →
      leftOver d.split.weights.sum budget d.split.weights ≤
        rank Before (remaindersOf d.split.weights.sum budget d.split.weights)
          (remainderOf d.split.weights.sum budget e)

theorem seats_whole (d : Division) (budget : ℕ) : d.whole.seats budget =
    d.whole.floors budget + if d.WholeUp budget then 1 else 0 := by
  have single := d.one
  rw [← d.whole.map_fst_entries, length_map, length_eq_one_iff] at single
  obtain ⟨e, entry⟩ := single
  rw [d.whole.seats_eq budget d.weighed, MarkedWeights.floors, ← d.whole.map_fst_entries]
  simp [WholeUp, entry, seatsAt]

theorem seats_split (d : Division) (budget : ℕ) : d.split.seats budget =
    d.split.floors budget + d.split.entries.countP
      fun e => RoundedUp d.split.weights.sum budget d.split.weights e := by
  rw [d.split.seats_eq budget (d.total ▸ d.weighed), sum_seatsAt, MarkedWeights.floors,
    ← d.split.map_fst_entries, map_map]
  rfl

def thirds : Division where
  whole := (12, true) :: replicate 8 (3, false)
  split := replicate 3 (4, true) ++ replicate 8 (3, false)
  one := rfl
  several := by decide
  positive := by decide
  sum := rfl
  others := rfl

end Division

end Tenzro
