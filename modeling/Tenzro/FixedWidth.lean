import Mathlib

set_option autoImplicit false

/-!
# Fixed-width integers

Values are natural numbers and integers; the width is an argument of the operations
that saturate, wrap or fail.
-/

namespace FixedWidth

def maxValue (w : ℕ) : ℕ := 2 ^ w - 1

def saturatingAdd (w a b : ℕ) : ℕ := min (a + b) (maxValue w)

def saturatingMul (w a b : ℕ) : ℕ := min (a * b) (maxValue w)

def wrappingAdd (w a b : ℕ) : ℕ := (a + b) % 2 ^ w

/-- A value of the signed type of the width, whatever integer the computation gave. -/
def wrapSigned (w : ℕ) (x : ℤ) : ℤ := Int.bmod x (2 ^ w)

theorem le_of_saturatingAdd_le {w a b c : ℕ} (fits : c < maxValue w)
    (h : saturatingAdd w a b ≤ c) : a + b ≤ c := by
  unfold saturatingAdd at h
  omega

theorem saturatingAdd_eq {w a b c : ℕ} (fits : c < maxValue w)
    (h : saturatingAdd w a b ≤ c) : saturatingAdd w a b = a + b := by
  unfold saturatingAdd at h ⊢
  omega

theorem foldl_saturatingAdd {α : Type} (f : α → ℕ) (l : List α) {w t : ℕ} (fits : t ≤ maxValue w) :
    l.foldl (fun t x => saturatingAdd w t (f x)) t = min (t + (l.map f).sum) (maxValue w) := by
  induction l generalizing t with
  | nil => exact (min_eq_left fits).symm
  | cons x l ih =>
    have within : saturatingAdd w t (f x) ≤ maxValue w := min_le_right _ _
    rw [List.foldl_cons, ih within, List.map_cons, List.sum_cons]
    unfold saturatingAdd
    omega

theorem wrapSigned_64 {x : ℤ} (low : -2 ^ 63 ≤ x) (high : x < 2 ^ 63) : wrapSigned 64 x = x := by
  unfold wrapSigned
  refine Int.bmod_eq_of_le ?_ ?_ <;> norm_num at * <;> omega

end FixedWidth

/-! Arithmetic that stops where the result does not fit. -/

namespace Checked

variable {ε : Type} (e : ε) (w : ℕ)

def within (n : ℕ) : Except ε ℕ := if n < 2 ^ w then .ok n else .error e

def add (a b : ℕ) : Except ε ℕ := within e w (a + b)

def mul (a b : ℕ) : Except ε ℕ := within e w (a * b)

def sub (a b : ℕ) : Except ε ℕ := if b ≤ a then .ok (a - b) else .error e

def sum (l : List ℕ) : Except ε ℕ := l.foldlM (add e w) 0

variable {e w} {a b n : ℕ}

theorem add_ok (fits : a + b < 2 ^ w) : add e w a b = .ok (a + b) := if_pos fits

theorem mul_ok (fits : a * b < 2 ^ w) : mul e w a b = .ok (a * b) := if_pos fits

theorem sub_ok (covered : b ≤ a) : sub e a b = .ok (a - b) := if_pos covered

theorem foldlM_add (l : List ℕ) (fits : n + l.sum < 2 ^ w) :
    l.foldlM (add e w) n = .ok (n + l.sum) := by
  induction l generalizing n with
  | nil => rfl
  | cons a l ih =>
    rw [List.sum_cons] at fits
    rw [List.foldlM_cons, add_ok (by omega), List.sum_cons, ← Nat.add_assoc]
    exact ih (by omega)

theorem sum_ok {l : List ℕ} (fits : l.sum < 2 ^ w) : sum e w l = .ok l.sum := by
  have total := foldlM_add (e := e) (w := w) (n := 0) l (by omega)
  rwa [Nat.zero_add] at total

theorem foldlM_add_fits {m : ℕ} (l : List ℕ) (start : n < 2 ^ w)
    (ran : l.foldlM (add e w) n = .ok m) : n + l.sum < 2 ^ w := by
  induction l generalizing n with
  | nil => exact start
  | cons a l ih =>
    rw [List.foldlM_cons, add, within] at ran
    split_ifs at ran with fits
    · rw [List.sum_cons, ← Nat.add_assoc]
      exact ih fits ran
    · cases ran

theorem sum_fits {l : List ℕ} (ran : sum e w l = .ok n) : l.sum < 2 ^ w := by
  have fits := foldlM_add_fits l (Nat.two_pow_pos w) ran
  rwa [Nat.zero_add] at fits

end Checked
