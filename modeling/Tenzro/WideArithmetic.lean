import Mathlib

set_option autoImplicit false
set_option linter.dupNamespace false

/-!
# Products of 128-bit numbers

The 256-bit product in two halves, and its long division.
-/
namespace WideArithmetic
open Nat

def wideMul (a b : ℕ) : ℕ × ℕ :=
  let a1 := a / 2 ^ 64
  let a0 := a % 2 ^ 64
  let b1 := b / 2 ^ 64
  let b0 := b % 2 ^ 64
  let mid := (a0 * b1 + a1 * b0) % 2 ^ 128
  let midCarry := (a0 * b1 + a1 * b0) / 2 ^ 128
  let shifted := mid * 2 ^ 64 % 2 ^ 128
  (a1 * b1 + mid / 2 ^ 64 + midCarry * 2 ^ 64 + (a0 * b0 + shifted) / 2 ^ 128,
    (a0 * b0 + shifted) % 2 ^ 128)

def divideStep (c : ℕ) (s : ℕ × ℕ) (bit : ℕ) : ℕ × ℕ :=
  let carry := s.1 / 2 ^ 127
  let rem := s.1 * 2 % 2 ^ 128 + bit
  let q := s.2 * 2 % 2 ^ 128
  if carry = 1 ∨ c ≤ rem then ((rem + 2 ^ 128 - c) % 2 ^ 128, q + 1) else (rem, q)

def bitOf (high low i : ℕ) : ℕ :=
  if 128 ≤ i then high / 2 ^ (i - 128) % 2 else low / 2 ^ i % 2

def longDivide (c : ℕ) (bit : ℕ → ℕ) : ℕ → ℕ × ℕ → ℕ × ℕ
  | 0, s => s
  | n + 1, s => longDivide c bit n (divideStep c s (bit n))

def mulDiv (a b c : ℕ) : ℕ :=
  (longDivide c (bitOf (wideMul a b).1 (wideMul a b).2) 256 (0, 0)).2

theorem wideMul_eq (a b : ℕ) :
    (wideMul a b).1 * 2 ^ 128 + (wideMul a b).2 = a * b ∧ (wideMul a b).2 < 2 ^ 128 := by
  refine ⟨?_, mod_lt _ (by decide)⟩
  have split_a := div_add_mod a (2 ^ 64)
  have split_b := div_add_mod b (2 ^ 64)
  unfold wideMul
  simp only
  generalize a / 2 ^ 64 = a1 at *
  generalize a % 2 ^ 64 = a0 at *
  generalize b / 2 ^ 64 = b1 at *
  generalize b % 2 ^ 64 = b0 at *
  have product : a * b = a1 * b1 * 2 ^ 128 + (a0 * b1 + a1 * b0) * 2 ^ 64 + a0 * b0 := by
    rw [← split_a, ← split_b]
    ring
  rw [product]
  generalize a1 * b1 = hi
  generalize a0 * b1 + a1 * b0 = mid
  generalize a0 * b0 = lo
  omega

theorem wideMul_lt {a b c d : ℕ} :
    Prod.Lex (· < ·) (· < ·) (wideMul a b) (wideMul c d) ↔ a * b < c * d := by
  obtain ⟨first, first_low⟩ := wideMul_eq a b
  obtain ⟨second, second_low⟩ := wideMul_eq c d
  rw [Prod.lex_def]
  omega

theorem bitOf_eq {high low : ℕ} (fits : low < 2 ^ 128) (i : ℕ) :
    bitOf high low i = (high * 2 ^ 128 + low) / 2 ^ i % 2 := by
  unfold bitOf
  split_ifs with upper
  · obtain ⟨k, rfl⟩ := Nat.exists_eq_add_of_le upper
    have whole : (high * 2 ^ 128 + low) / 2 ^ 128 = high := by omega
    rw [Nat.pow_add, ← Nat.div_div_eq_div_mul, whole, Nat.add_sub_cancel_left]
  · obtain ⟨k, k_eq⟩ := Nat.exists_eq_add_of_lt (not_le.1 upper)
    have even : high * 2 ^ 128 = 2 ^ i * (2 * (high * 2 ^ k)) := by
      rw [k_eq]
      ring
    rw [even, mul_add_div (Nat.two_pow_pos i)]
    omega

theorem divideStep_eq {c : ℕ} (pos : 0 < c) (fits : c < 2 ^ 128) (m : ℕ) {bit : ℕ} (bit_le : bit ≤ 1) :
    divideStep c (m % c, m / c % 2 ^ 128) bit =
      ((m * 2 + bit) % c, (m * 2 + bit) / c % 2 ^ 128) := by
  have small := mod_lt m pos
  have parts := div_add_mod m c
  generalize m / c = k at *
  generalize m % c = r at *
  have next : m * 2 + bit = c * (k * 2) + (r * 2 + bit) := by
    rw [← parts]
    ring
  rw [next, mul_add_mod, mul_add_div pos]
  unfold divideStep
  simp only
  by_cases reached : c ≤ r * 2 + bit
  · have rem : (r * 2 + bit) % c = r * 2 + bit - c := by
      rw [mod_eq_sub_mod reached, mod_eq_of_lt (by omega)]
    have quotient : (r * 2 + bit) / c = 1 := by
      apply Nat.div_eq_of_lt_le <;> omega
    rw [if_pos (by omega), rem, quotient]
    ext <;> simp only <;> omega
  · rw [if_neg (by omega), mod_eq_of_lt (not_le.1 reached), div_eq_of_lt (not_le.1 reached)]
    ext <;> simp only <;> omega

theorem longDivide_eq {c : ℕ} (pos : 0 < c) (fits : c < 2 ^ 128) (n k : ℕ) :
    longDivide c (fun i => n / 2 ^ i % 2) k (n / 2 ^ k % c, n / 2 ^ k / c % 2 ^ 128) =
      (n % c, n / c % 2 ^ 128) := by
  induction k with
  | zero => simp [longDivide]
  | succ k ih =>
    have halves : n / 2 ^ (k + 1) * 2 + n / 2 ^ k % 2 = n / 2 ^ k := by
      rw [Nat.pow_succ, ← Nat.div_div_eq_div_mul]
      omega
    rw [longDivide, divideStep_eq pos fits _ (by omega), halves, ih]

theorem mulDiv_eq {a b c : ℕ} (pos : 0 < c) (fits : c < 2 ^ 128) (small : a * b < 2 ^ 256)
    (quotient : a * b / c < 2 ^ 128) : mulDiv a b c = a * b / c := by
  obtain ⟨halves, low⟩ := wideMul_eq a b
  have bits : bitOf (wideMul a b).1 (wideMul a b).2 = fun i => a * b / 2 ^ i % 2 := by
    funext i
    rw [bitOf_eq low, halves]
  have start : (0, 0) = (a * b / 2 ^ 256 % c, a * b / 2 ^ 256 / c % 2 ^ 128) := by
    rw [div_eq_of_lt small]
    simp
  rw [mulDiv, bits, start, longDivide_eq pos fits, mod_eq_of_lt quotient]

theorem longDivide_zero (k : ℕ) {q : ℕ} (fits : q < 2 ^ 128) :
    ∃ q', longDivide 0 (fun _ => 0) k (0, q) = (0, q') ∧ q' < 2 ^ 128 ∧
      q' + 1 ≡ (q + 1) * 2 ^ k [MOD 2 ^ 128] := by
  induction k generalizing q with
  | zero => exact ⟨q, rfl, fits, by simp [ModEq]⟩
  | succ k ih =>
    have step : divideStep 0 (0, q) 0 = (0, q * 2 % 2 ^ 128 + 1) := by
      simp [divideStep]
    obtain ⟨q', ran, small, same⟩ := ih (q := q * 2 % 2 ^ 128 + 1) (by omega)
    refine ⟨q', ?_, small, same.trans ?_⟩
    · rw [longDivide, step, ran]
    · have doubled : q * 2 % 2 ^ 128 + 1 + 1 ≡ (q + 1) * 2 [MOD 2 ^ 128] := by
        unfold ModEq
        omega
      have shifted : (q + 1) * 2 ^ (k + 1) = (q + 1) * 2 * 2 ^ k := by ring
      rw [shifted]
      exact doubled.mul_right _

theorem mulDiv_zero (b : ℕ) : mulDiv 0 b 0 = 2 ^ 128 - 1 := by
  have none : wideMul 0 b = (0, 0) := by simp [wideMul]
  have bits : bitOf 0 0 = fun _ => 0 := by
    funext i
    simp [bitOf]
  obtain ⟨q, ran, small, same⟩ := longDivide_zero 256 (Nat.two_pow_pos 128)
  have wraps : (0 + 1) * 2 ^ 256 ≡ 0 [MOD 2 ^ 128] := by
    rw [modEq_zero_iff_dvd]
    exact ⟨2 ^ 128, by norm_num⟩
  have upper := le_of_dvd (succ_pos q) (modEq_zero_iff_dvd.1 (same.trans wraps))
  rw [mulDiv, none, bits, ran]
  omega

end WideArithmetic
