import Mathlib

set_option autoImplicit false

/-!
# Bisection

The first index of a range at which a predicate holds, of one that keeps holding once it does.
-/
namespace Bisection
open List

/-- Halves the range until one index is left. -/
def firstTrue (p : ℕ → Bool) (lo hi : ℕ) : ℕ :=
  if lo < hi then
    let mid := lo + (hi - lo) / 2
    if p mid then firstTrue p lo mid else firstTrue p (mid + 1) hi
  else lo
termination_by hi - lo

/-- Nothing below `n` meets the predicate, everything of the range from `n` on does. -/
structure Splits (p : ℕ → Bool) (lo hi n : ℕ) : Prop where
  low : lo ≤ n
  high : n ≤ hi
  before : ∀ i, lo ≤ i → i < n → p i = false
  after : ∀ i, n ≤ i → i < hi → p i = true

variable {p : ℕ → Bool} {lo hi : ℕ}

theorem firstTrue_splits (le : lo ≤ hi)
    (mono : ∀ i j, lo ≤ i → i ≤ j → j < hi → p i = true → p j = true) :
    Splits p lo hi (firstTrue p lo hi) := by
  induction lo, hi using firstTrue.induct p with
  | case1 lo hi less mid holds ih =>
    have below : mid < hi := by omega
    have left := ih (by omega) fun i j start le' less' => mono i j start le' (less'.trans below)
    rw [firstTrue, if_pos less, if_pos holds]
    refine ⟨left.low, left.high.trans below.le, left.before, fun i above inHi => ?_⟩
    by_cases inside : i < mid
    · exact left.after i above inside
    · exact mono mid i (by omega) (by omega) inHi holds
  | case2 lo hi less mid fails ih =>
    have right := ih (by omega) fun i j start => mono i j (by omega)
    rw [firstTrue, if_pos less, if_neg fails]
    refine ⟨(by omega : lo ≤ mid + 1).trans right.low, right.high, fun i above inHi => ?_,
      right.after⟩
    by_cases inside : i ≤ mid
    · by_contra holds
      rw [Bool.not_eq_false] at holds
      exact fails (mono i mid above inside (by omega) holds)
    · exact right.before i (by omega) inHi
  | case3 lo hi done =>
    rw [firstTrue, if_neg done]
    exact ⟨le_rfl, le, fun i above less => by omega, fun i above less => by omega⟩

/-- Over a list whose elements keep meeting a predicate once one does, bisection finds the first. -/
theorem getElem?_firstTrue {α : Type} {l : List α} {q : α → Bool}
    (mono : l.Pairwise fun a b => q a = true → q b = true) :
    l[firstTrue (fun i => (l[i]?).any q) 0 l.length]? = l.find? q := by
  have split : Splits (fun i => (l[i]?).any q) 0 l.length _ :=
    firstTrue_splits (Nat.zero_le _) fun i j _ le inside holds => by
      rw [getElem?_eq_getElem (by omega)] at holds
      rw [getElem?_eq_getElem inside]
      rcases Nat.lt_or_eq_of_le le with less | rfl
      · exact pairwise_iff_getElem.1 mono i j (by omega) inside less holds
      · exact holds
  generalize firstTrue (fun i => (l[i]?).any q) 0 l.length = n at split
  symm
  rcases Nat.lt_or_eq_of_le split.high with inside | rfl
  · rw [getElem?_eq_getElem inside, find?_eq_some_iff_getElem]
    have here := split.after n le_rfl inside
    rw [getElem?_eq_getElem inside] at here
    refine ⟨here, n, inside, rfl, fun j less => ?_⟩
    have before := split.before j (Nat.zero_le _) less
    rw [getElem?_eq_getElem (less.trans inside)] at before
    rwa [Bool.not_eq_true']
  · rw [getElem?_eq_none le_rfl, find?_eq_none]
    intro a mem
    obtain ⟨i, less, rfl⟩ := getElem_of_mem mem
    have before := split.before i (Nat.zero_le _) less
    rw [getElem?_eq_getElem less] at before
    exact Bool.eq_false_iff.1 before

end Bisection
