import Mathlib

set_option autoImplicit false

/-!
# Joining a list level by level

A list is paired up until one value is left; a last value without a neighbour
goes up as it is. Over an injective pairing the fold along a path determines
every value it was made from.
-/
namespace PairFold
open List

variable {α : Type} (f : α → α → α)

def pairUp : List α → List α
  | a :: b :: l => f a b :: pairUp l
  | _ => []

def reduce : ℕ → List α → List α
  | 0, l => l
  | k + 1, l => reduce k (pairUp f l)

def siblings (d : α) : ℕ → List α → ℕ → List α
  | 0, _, _ => []
  | k + 1, l, i => l.getD (if i % 2 = 0 then i + 1 else i - 1) d ::
      siblings d k (pairUp f l) (i / 2)

def rootFromPath : List α → ℕ → α → α
  | [], _, acc => acc
  | s :: ss, i, acc => rootFromPath ss (i / 2) (if i % 2 = 0 then f acc s else f s acc)

theorem length_pairUp (l : List α) : (pairUp f l).length = l.length / 2 := by
  fun_induction pairUp f l with
  | case1 a b l ih =>
    simp only [length_cons, ih]
    omega
  | case2 l short =>
    match l, short with
    | [], _ => simp
    | [a], _ => simp
    | a :: b :: l, short => exact absurd rfl (short a b l)

theorem getElem?_pairUp (l : List α) (i : ℕ) :
    (pairUp f l)[i]? = (l[2 * i]?).bind (fun a => (l[2 * i + 1]?).map (f a)) := by
  induction i generalizing l with
  | zero =>
    match l with
    | [] => rfl
    | [a] => rfl
    | a :: b :: l => rfl
  | succ i ih =>
    match l with
    | [] => simp [pairUp]
    | [a] => simp [pairUp]
    | a :: b :: l =>
      have := ih l
      simpa [pairUp, Nat.mul_add] using this

theorem pairUp_append {l r : List α} (even : l.length % 2 = 0) :
    pairUp f (l ++ r) = pairUp f l ++ pairUp f r := by
  fun_induction pairUp f l with
  | case1 a b l ih =>
    simp only [cons_append, pairUp]
    rw [ih (by simp only [length_cons] at even; omega)]
  | case2 l short =>
    match l, short with
    | [], _ => rfl
    | [a], _ => simp at even
    | a :: b :: l, short => exact absurd rfl (short a b l)

theorem length_reduce {k : ℕ} {l : List α} (full : l.length = 2 ^ k) :
    (reduce f k l).length = 1 := by
  induction k generalizing l with
  | zero => simpa [reduce] using full
  | succ k ih =>
    refine ih ?_
    rw [length_pairUp, full, pow_succ]
    omega

theorem reduce_append {k : ℕ} {l r : List α} (hl : l.length = 2 ^ k) (hr : r.length = 2 ^ k) :
    reduce f (k + 1) (l ++ r) = pairUp f (reduce f k l ++ reduce f k r) := by
  induction k generalizing l r with
  | zero => rfl
  | succ k ih =>
    have half {x : List α} (hx : x.length = 2 ^ (k + 1)) : (pairUp f x).length = 2 ^ k := by
      rw [length_pairUp, hx, pow_succ]
      omega
    change reduce f (k + 1) (pairUp f (l ++ r)) = _
    rw [pairUp_append f (by rw [hl, pow_succ]; omega), ih (half hl) (half hr)]
    rfl

theorem rootFromPath_siblings (d : α) {k : ℕ} {l : List α} (full : l.length = 2 ^ k) {i : ℕ}
    (hi : i < 2 ^ k) {x : α} (here : l[i]? = some x) :
    (reduce f k l)[0]? = some (rootFromPath f (siblings f d k l i) i x) := by
  induction k generalizing l i x with
  | zero =>
    have : i = 0 := by simpa using hi
    subst this
    exact here
  | succ k ih =>
    have size : (pairUp f l).length = 2 ^ k := by
      rw [length_pairUp, full, pow_succ]
      omega
    have below : i / 2 < 2 ^ k := by
      rw [pow_succ] at hi
      omega
    refine ih size below ?_
    rw [getElem?_pairUp]
    by_cases even : i % 2 = 0
    · have place : 2 * (i / 2) = i := by omega
      obtain ⟨y, hy⟩ : ∃ y, l[i + 1]? = some y :=
        ⟨_, getElem?_eq_getElem (by rw [full, pow_succ] at *; omega)⟩
      simp [place, here, hy, even]
    · have place : 2 * (i / 2) + 1 = i := by omega
      have place' : 2 * (i / 2) = i - 1 := by omega
      obtain ⟨y, hy⟩ : ∃ y, l[i - 1]? = some y :=
        ⟨_, getElem?_eq_getElem (by rw [full]; omega)⟩
      have next : i - 1 + 1 = i := by omega
      simp [place', next, here, hy, even]

variable {f}

theorem eq_of_rootFromPath (inj : Function.Injective2 f) {ss : List α} {l : List α}
    (full : l.length = 2 ^ ss.length) {i : ℕ} (hi : i < 2 ^ ss.length) {x : α}
    (h : (reduce f ss.length l)[0]? = some (rootFromPath f ss i x)) : l[i]? = some x := by
  induction ss generalizing l i x with
  | nil =>
    have : i = 0 := by simpa using hi
    subst this
    exact h
  | cons s ss ih =>
    rw [length_cons] at full hi h
    have size : (pairUp f l).length = 2 ^ ss.length := by
      rw [length_pairUp, full, pow_succ]
      omega
    have below : i / 2 < 2 ^ ss.length := by
      rw [pow_succ] at hi
      omega
    have up := ih size below h
    rw [getElem?_pairUp] at up
    obtain ⟨a, ha, b, hb, made⟩ : ∃ a, l[2 * (i / 2)]? = some a ∧
        ∃ b, l[2 * (i / 2) + 1]? = some b ∧ f a b = if i % 2 = 0 then f x s else f s x := by
      cases ha : l[2 * (i / 2)]? with
      | none => simp [ha] at up
      | some a =>
        cases hb : l[2 * (i / 2) + 1]? with
        | none => simp [ha, hb] at up
        | some b => exact ⟨a, rfl, b, rfl, by simpa [ha, hb] using up⟩
    by_cases even : i % 2 = 0
    · rw [if_pos even] at made
      have place : 2 * (i / 2) = i := by omega
      rw [← place, ha, (inj made).1]
    · rw [if_neg even] at made
      have place : 2 * (i / 2) + 1 = i := by omega
      rw [← place, hb, (inj made).2]

theorem reduce_injective (inj : Function.Injective2 f) {k : ℕ} {l r : List α}
    (hl : l.length = 2 ^ k) (hr : r.length = 2 ^ k) (h : reduce f k l = reduce f k r) : l = r := by
  induction k generalizing l r with
  | zero => exact h
  | succ k ih =>
    have half {x : List α} (hx : x.length = 2 ^ (k + 1)) : (pairUp f x).length = 2 ^ k := by
      rw [length_pairUp, hx, pow_succ]
      omega
    have level := ih (half hl) (half hr) h
    refine ext_getElem? ?_
    intro i
    by_cases hi : i < 2 ^ (k + 1)
    · have pair : ∀ (x : List α), x.length = 2 ^ (k + 1) → ∃ a b, x[2 * (i / 2)]? = some a ∧
          x[2 * (i / 2) + 1]? = some b := by
        intro x hx
        rw [pow_succ] at hx hi
        exact ⟨_, _, getElem?_eq_getElem (by omega), getElem?_eq_getElem (by omega)⟩
      obtain ⟨a, b, ha, hb⟩ := pair l hl
      obtain ⟨a', b', ha', hb'⟩ := pair r hr
      have same := congrArg (fun x => x[i / 2]?) level
      simp only [getElem?_pairUp, ha, hb, ha', hb', Option.bind_some, Option.map_some,
        Option.some.injEq] at same
      obtain ⟨rfl, rfl⟩ := inj same
      by_cases even : i % 2 = 0
      · have place : i = 2 * (i / 2) := by omega
        rw [place, ha, ha']
      · have place : i = 2 * (i / 2) + 1 := by omega
        rw [place, hb, hb']
    · rw [getElem?_eq_none (by omega), getElem?_eq_none (by omega)]

end PairFold

namespace PromotedLevels
open List

variable {α β : Type} (join : α → α → α)

def next : List α → List α
  | a :: b :: l => join a b :: next l
  | l => l

theorem length_next (l : List α) : (next join l).length = (l.length + 1) / 2 := by
  fun_induction next join l with
  | case1 a b l ih =>
    simp only [length_cons, ih]
    omega
  | case2 l short =>
    match l, short with
    | [], _ => simp
    | [a], _ => simp
    | a :: b :: l, short => exact absurd rfl (short a b l)

theorem length_next_lt {l : List α} (many : 1 < l.length) : (next join l).length < l.length := by
  rw [length_next]
  omega

def top (l : List α) : Option α := if 1 < l.length then top (next join l) else l.head?
termination_by l.length
decreasing_by exact length_next_lt join ‹_›

abbrev Step (α : Type) := α × Bool

def stepAt (l : List α) (i : ℕ) : List (Step α) :=
  if i % 2 = 1 then (l[i - 1]?).toList.map (·, true) else (l[i + 1]?).toList.map (·, false)

def path (l : List α) (i : ℕ) : List (Step α) :=
  if 1 < l.length then stepAt l i ++ path (next join l) (i / 2) else []
termination_by l.length
decreasing_by exact length_next_lt join ‹_›

def climb (a : α) (steps : List (Step α)) : α :=
  steps.foldl (fun acc s => if s.2 then join s.1 acc else join acc s.1) a

variable {join} {l : List α} {i : ℕ} {a : α}

theorem getElem?_next (l : List α) (i : ℕ) :
    (next join l)[i]? = (l[2 * i]?).map fun a => (l[2 * i + 1]?).elim a (join a) := by
  induction i generalizing l with
  | zero =>
    match l with
    | [] => rfl
    | [a] => rfl
    | a :: b :: l => rfl
  | succ i ih =>
    match l with
    | [] => rfl
    | [a] => simp [next]
    | a :: b :: l => simpa [next, Nat.mul_add] using ih l

theorem climb_stepAt (here : l[i]? = some a) :
    (next join l)[i / 2]? = some (climb join a (stepAt l i)) := by
  rw [getElem?_next]
  unfold stepAt climb
  rcases Nat.even_or_odd' i with ⟨j, rfl | rfl⟩
  · have half : 2 * j / 2 = j := by omega
    rw [half, here, if_neg (by omega)]
    cases l[2 * j + 1]? <;> rfl
  · have half : (2 * j + 1) / 2 = j := by omega
    obtain ⟨b, before⟩ : ∃ b, l[2 * j]? = some b :=
      ⟨_, getElem?_eq_getElem (by have := (List.getElem?_eq_some_iff.1 here).1; omega)⟩
    rw [half, here, before, if_pos (by omega), Nat.add_sub_cancel, before]
    rfl

theorem climb_path (here : l[i]? = some a) : top join l = some (climb join a (path join l i)) := by
  induction l using top.induct join generalizing i a with
  | case1 l many ih =>
    rw [top, if_pos many, path, if_pos many, ih (climb_stepAt here)]
    exact congrArg some (foldl_append ..).symm
  | case2 l few =>
    rw [top, if_neg few, path, if_neg few]
    obtain rfl : i = 0 := by
      have inside := (List.getElem?_eq_some_iff.1 here).1
      omega
    rwa [head?_eq_getElem?]

/-! ### Maps that respect the joins -/

section
variable {join' : β → β → β} {f : α → β} (hom : ∀ a b, f (join a b) = join' (f a) (f b))
include hom

theorem next_map (l : List α) : next join' (l.map f) = (next join l).map f := by
  fun_induction next join l with
  | case1 a b l ih => simp only [map_cons, next, ih, hom]
  | case2 l short =>
    match l, short with
    | [], _ => rfl
    | [a], _ => rfl
    | a :: b :: l, short => exact absurd rfl (short a b l)

theorem top_map (l : List α) : top join' (l.map f) = (top join l).map f := by
  induction l using top.induct join with
  | case1 l many ih =>
    rw [top, length_map, if_pos many, next_map hom, ih, top.eq_1 join l, if_pos many]
  | case2 l few => rw [top, length_map, if_neg few, top, if_neg few, head?_map]

theorem path_map (l : List α) (i : ℕ) :
    path join' (l.map f) i = (path join l i).map fun s => (f s.1, s.2) := by
  have step (l : List α) (i : ℕ) :
      stepAt (l.map f) i = (stepAt l i).map fun s => (f s.1, s.2) := by
    unfold stepAt
    rw [getElem?_map, getElem?_map]
    split_ifs
    · cases l[i - 1]? <;> rfl
    · cases l[i + 1]? <;> rfl
  induction l using top.induct join generalizing i with
  | case1 l many ih =>
    rw [path, length_map, if_pos many, next_map hom, ih, step, path.eq_1 join l, if_pos many,
      map_append]
  | case2 l few => rw [path, length_map, if_neg few, path, if_neg few, map_nil]

end

theorem top_isSome (some_value : l ≠ []) : (top join l).isSome = true := by
  obtain ⟨a, here⟩ := getElem?_of_mem (head_mem some_value)
  rw [climb_path here]
  rfl

theorem flatMap_top {γ : Type} {g : α → List γ} (own : ∀ a b, g (join a b) = g a ++ g b)
    (reached : top join l = some a) : g a = l.flatMap g := by
  have kept (l : List α) : (next join l).flatMap g = l.flatMap g := by
    fun_induction next join l with
    | case1 a b l ih => simp only [flatMap_cons, ih, own, append_assoc]
    | case2 l short => rfl
  induction l using top.induct join with
  | case1 l many ih =>
    rw [top, if_pos many] at reached
    rw [ih reached, kept]
  | case2 l few =>
    rw [top, if_neg few] at reached
    obtain ⟨rest, rfl⟩ := head?_eq_some_iff.1 reached
    obtain rfl := eq_nil_of_length_eq_zero (l := rest) (by
      rw [length_cons] at few
      omega)
    exact (append_nil _).symm

end PromotedLevels
