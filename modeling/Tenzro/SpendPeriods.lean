import Mathlib

set_option autoImplicit false

/-!
# Spending periods

A period opens with a payment and takes in every later one until its length has passed; the next
payment opens the next period. Spans no longer than a period meet at most two of them.
-/

namespace SpendPeriods
open List

/-- A payment: when, how much, and what its source held just before it. -/
structure Spend where
  time : ℤ
  amount : ℕ
  held : ℕ
deriving DecidableEq, Repr

/-- A period's first payment, and the later ones, newest first. -/
abbrev Period := Spend × List Spend

def Period.spends (p : Period) : List Spend := p.2 ++ [p.1]

def total (l : List Spend) : ℕ := (l.map Spend.amount).sum

def Period.total (p : Period) : ℕ := SpendPeriods.total p.spends

variable (length : ℤ)

def count : List Period → Spend → List Period
  | [], o => [(o, [])]
  | (first, later) :: rest, o =>
    if o.time < first.time + length then (first, o :: later) :: rest
    else (o, []) :: (first, later) :: rest

def periods (l : List Spend) : List Period := l.foldl (count length) []

section
variable {length} {l : List Spend} {o : Spend}

theorem count_cons {first : Spend} {later : List Spend} {rest : List Period} :
    count length ((first, later) :: rest) o =
      if o.time < first.time + length then (first, o :: later) :: rest
      else (o, []) :: (first, later) :: rest := rfl

theorem periods_append : periods length (l ++ [o]) = count length (periods length l) o :=
  foldl_append ..

/-- A period opens with its first payment, ends after its length, and the next opens later. -/
structure Laid (length : ℤ) (ps : List Period) : Prop where
  inside : ∀ p ∈ ps, ∀ x ∈ p.spends, p.1.time ≤ x.time ∧ x.time < p.1.time + length
  spaced : ps.Pairwise fun p q => q.1.time + length ≤ p.1.time

theorem Laid.count {ps : List Period} (laid : Laid length ps) (positive : 0 < length)
    (later : ∀ p ∈ ps, ∀ x ∈ p.spends, x.time ≤ o.time) :
    Laid length (SpendPeriods.count length ps o) := by
  cases ps with
  | nil =>
    refine ⟨fun p mem => ?_, pairwise_singleton _ _⟩
    obtain rfl := mem_singleton.1 mem
    intro x last
    obtain rfl := mem_singleton.1 last
    exact ⟨le_rfl, lt_add_of_pos_right _ positive⟩
  | cons p rest =>
    obtain ⟨first, after⟩ := p
    rw [count_cons]
    have opened : first.time ≤ o.time :=
      later _ mem_cons_self first (mem_append_right _ (mem_singleton_self _))
    obtain ⟨head, tail⟩ := pairwise_cons.1 laid.spaced
    split_ifs with open_still
    · refine ⟨fun q mem => ?_, pairwise_cons.2 ⟨head, tail⟩⟩
      rcases mem_cons.1 mem with rfl | mem
      · intro x inside
        rcases mem_cons.1 inside with rfl | inside
        · exact ⟨opened, open_still⟩
        · exact laid.inside (first, after) mem_cons_self x inside
      · exact laid.inside q (mem_cons_of_mem _ mem)
    · refine ⟨fun q mem => ?_, pairwise_cons.2 ⟨fun q mem => ?_, laid.spaced⟩⟩
      · rcases mem_cons.1 mem with rfl | mem
        · intro x last
          obtain rfl := mem_singleton.1 last
          simp only
          omega
        · exact laid.inside q mem
      · rcases mem_cons.1 mem with rfl | mem
        · simp only
          omega
        · have before := head q mem
          simp only at before ⊢
          omega

theorem total_count (keep : Spend → Bool) (ps : List Period) :
    ((count length ps o).map fun p => total (p.spends.filter keep)).sum =
      (ps.map fun p => total (p.spends.filter keep)).sum + total ([o].filter keep) := by
  cases ps with
  | nil => simp [count, Period.spends]
  | cons p rest =>
    obtain ⟨first, after⟩ := p
    rw [count_cons]
    split_ifs
    · have added : total ((Period.spends (first, o :: after)).filter keep) =
          total ([o].filter keep) + total ((Period.spends (first, after)).filter keep) := by
        change total (([o] ++ (after ++ [first])).filter keep) = _
        unfold total
        rw [filter_append, map_append, sum_append]
        rfl
      simp only [map_cons, sum_cons, added]
      omega
    · simp only [map_cons, sum_cons]
      change total ([o].filter keep) + _ = _
      omega

theorem total_periods (keep : Spend → Bool) :
    ((periods length l).map fun p => total (p.spends.filter keep)).sum = total (l.filter keep) := by
  induction l using reverseRecOn with
  | nil => rfl
  | append_singleton l o ih =>
    rw [periods_append, total_count, ih, filter_append]
    simp [total]

theorem mem_periods {p : Period} {x : Spend} (mem : p ∈ periods length l) (inside : x ∈ p.spends) :
    x ∈ l := by
  induction l using reverseRecOn generalizing p with
  | nil => cases mem
  | append_singleton l o ih =>
    rw [periods_append] at mem
    cases built : periods length l with
    | nil =>
      rw [built] at mem
      obtain rfl := mem_singleton.1 mem
      obtain rfl := mem_singleton.1 inside
      exact mem_append_right _ (mem_singleton_self _)
    | cons q rest =>
      obtain ⟨first, after⟩ := q
      rw [built] at mem ih
      rw [count_cons] at mem
      split_ifs at mem
      · rcases mem_cons.1 mem with rfl | mem
        · rcases mem_cons.1 inside with rfl | inside
          · exact mem_append_right _ (mem_singleton_self _)
          · exact mem_append_left _ (ih mem_cons_self inside)
        · exact mem_append_left _ (ih (mem_cons_of_mem _ mem) inside)
      · rcases mem_cons.1 mem with rfl | mem
        · obtain rfl := mem_singleton.1 inside
          exact mem_append_right _ (mem_singleton_self _)
        · exact mem_append_left _ (ih mem inside)

theorem laid_periods (positive : 0 < length) (ordered : l.Pairwise fun x y => x.time ≤ y.time) :
    Laid length (periods length l) := by
  induction l using reverseRecOn with
  | nil => exact ⟨fun _ mem => (not_mem_nil mem).elim, List.Pairwise.nil⟩
  | append_singleton l o ih =>
    obtain ⟨front, -, cross⟩ := pairwise_append.1 ordered
    rw [periods_append]
    refine (ih front).count positive fun p mem x inside => ?_
    exact cross x (mem_periods mem inside) o (mem_singleton_self _)

theorem total_filter_le (keep : Spend → Bool) (l : List Spend) : total (l.filter keep) ≤ total l := by
  unfold total
  exact (filter_sublist.map _).sum_le_sum fun _ _ => Nat.zero_le _

theorem Laid.meets_two {ps : List Period} (laid : Laid length ps) {start finish : ℤ}
    (short : finish - start < length)
    (meets : ∀ p ∈ ps, ∃ x ∈ p.spends, start ≤ x.time ∧ x.time ≤ finish) : ps.length ≤ 2 := by
  match ps, laid, meets with
  | [], _, _ => exact Nat.zero_le _
  | [_], _, _ => exact Nat.le_succ _
  | [_, _], _, _ => exact le_rfl
  | p :: q :: r :: rest, laid, meets =>
    exfalso
    obtain ⟨after, tail⟩ := pairwise_cons.1 laid.spaced
    have first := after q (by simp)
    have second := (pairwise_cons.1 tail).1 r (by simp)
    obtain ⟨x, in_p, -, before_finish⟩ := meets p (by simp)
    obtain ⟨z, in_r, after_start, -⟩ := meets r (by simp)
    have x_inside := laid.inside p (by simp) x in_p
    have z_inside := laid.inside r (by simp) z in_r
    omega

theorem span_le (positive : 0 < length) (ordered : l.Pairwise fun x y => x.time ≤ y.time)
    {start finish : ℤ} (short : finish - start < length) {m : ℕ}
    (most : ∀ p ∈ periods length l, (∃ x ∈ p.spends, start ≤ x.time ∧ x.time ≤ finish) →
      p.total ≤ m) :
    total (l.filter fun x => start ≤ x.time ∧ x.time ≤ finish) ≤ 2 * m := by
  set keep : Spend → Bool := fun x => start ≤ x.time ∧ x.time ≤ finish with keep_def
  have laid := laid_periods positive ordered
  let meeting := (periods length l).filter fun p => p.spends.any keep
  have member : ∀ p ∈ meeting, p ∈ periods length l ∧
      ∃ x ∈ p.spends, start ≤ x.time ∧ x.time ≤ finish := by
    intro p mem
    obtain ⟨here, some_kept⟩ := mem_filter.1 mem
    obtain ⟨x, inside, kept⟩ := any_eq_true.1 some_kept
    exact ⟨here, x, inside, of_decide_eq_true kept⟩
  have two : meeting.length ≤ 2 := by
    have still : Laid length meeting :=
      ⟨fun p mem => laid.inside p (member p mem).1, laid.spaced.filter _⟩
    exact still.meets_two short fun p mem => (member p mem).2
  have rest : ∀ ps : List Period, ((ps.map fun p => total (p.spends.filter keep)).sum) =
      ((ps.filter fun p => p.spends.any keep).map fun p => total (p.spends.filter keep)).sum := by
    intro ps
    induction ps with
    | nil => rfl
    | cons p ps ih =>
      rw [map_cons, sum_cons, ih, filter_cons]
      split_ifs with met
      · rw [map_cons, sum_cons]
      · have nothing : p.spends.filter keep = [] := by
          rw [filter_eq_nil_iff]
          intro x inside kept
          exact met (any_eq_true.2 ⟨x, inside, kept⟩)
        rw [nothing]
        exact Nat.zero_add _
  have each : (meeting.map fun p => total (p.spends.filter keep)).sum ≤ meeting.length * m := by
    have bound := sum_le_card_nsmul (meeting.map fun p => total (p.spends.filter keep)) m
      fun n mem => by
        obtain ⟨p, here, rfl⟩ := mem_map.1 mem
        exact (total_filter_le keep _).trans (most p (member p here).1 (member p here).2)
    rwa [length_map] at bound
  have divided : ((periods length l).map fun p => total (p.spends.filter keep)).sum = _ :=
    total_periods keep
  rw [← divided, rest]
  exact each.trans (Nat.mul_le_mul_right m two)

end

end SpendPeriods
