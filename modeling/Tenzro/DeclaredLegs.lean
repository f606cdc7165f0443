import Mathlib

set_option autoImplicit false

/-!
# Declared legs

What margin and commission legs carve out of a signed amount, and the amount quoted so that the
rest covers the price.
-/
namespace Tenzro.DeclaredLegs
open List

def checked (n : ℕ) : Option ℕ := if n < 2 ^ 128 then some n else none

def declaredLeg (amount marginBps : ℕ) : Option ℕ :=
  (checked (amount * marginBps)).map (· / (10000 + marginBps))

def amountWithLeg (price marginBps : ℕ) : Option ℕ :=
  (checked (price * (10000 + marginBps))).map (· ⌈/⌉ 10000)

def declaredLegs (amount : ℕ) (bps : List ℕ) : Option (List ℕ) := do
  let total ← bps.foldlM (fun a b => checked (a + b)) 0
  let den ← checked (10000 + total)
  bps.mapM fun b => (checked (amount * b)).map (· / den)

/-! ### Several legs -/

section
variable {amount den m n : ℕ} {bps parts : List ℕ}

theorem checked_some (fits : checked m = some n) : n = m := by
  unfold checked at fits
  split_ifs at fits
  exact (Option.some.inj fits).symm

theorem total_eq (ran : bps.foldlM (fun a b => checked (a + b)) m = some n) : n = m + bps.sum := by
  induction bps generalizing m with
  | nil => exact (Option.some.inj ran).symm
  | cons b bps ih =>
    rw [foldlM_cons] at ran
    obtain ⟨next, added, rest⟩ := Option.bind_eq_some_iff.1 ran
    rw [ih rest, checked_some added, sum_cons, Nat.add_assoc]

theorem carved_le (ran : bps.mapM (fun b => (checked (amount * b)).map (· / den)) = some parts) :
    parts.sum * den ≤ amount * bps.sum := by
  induction bps generalizing parts with
  | nil =>
    cases ran
    simp
  | cons b bps ih =>
    simp only [mapM_cons, Option.bind_eq_bind, Option.bind_eq_some_iff, Option.map_eq_some_iff,
      Option.pure_def, Option.some.injEq] at ran
    obtain ⟨_, ⟨p, taken, rfl⟩, rest, own, rfl⟩ := ran
    obtain rfl := checked_some taken
    have first : amount * b / den * den ≤ amount * b := Nat.div_mul_le_self ..
    rw [sum_cons, sum_cons, Nat.add_mul, Nat.mul_add]
    exact Nat.add_le_add first (ih own)

theorem declaredLegs_le (ran : declaredLegs amount bps = some parts) :
    parts.sum * (10000 + bps.sum) ≤ amount * bps.sum := by
  obtain ⟨total, summed, ran⟩ := Option.bind_eq_some_iff.1 ran
  obtain ⟨den, added, ran⟩ := Option.bind_eq_some_iff.1 ran
  have all := total_eq summed
  rw [Nat.zero_add] at all
  rw [← all, ← checked_some added, all]
  exact carved_le ran

end

/-! ### The quote -/

variable {price rate amount quote leg : ℕ} {bps : List ℕ}

theorem quote_covers (quoted : amountWithLeg price rate = some quote) :
    price * (10000 + rate) ≤ 10000 * quote := by
  obtain ⟨total, fits, rfl⟩ := Option.map_eq_some_iff.1 quoted
  rw [← checked_some fits]
  exact le_smul_ceilDiv (by norm_num : 0 < 10000)

theorem quote_lt (quoted : amountWithLeg price rate = some quote) (below : amount < quote) :
    10000 * amount < price * (10000 + rate) := by
  obtain ⟨total, fits, rfl⟩ := Option.map_eq_some_iff.1 quoted
  rw [← checked_some fits]
  exact lt_of_not_ge fun within => not_le.2 below ((ceilDiv_le_iff_le_mul (by norm_num)).2 within)

def Covers (price rate amount : ℕ) : Prop := ∃ leg ∈ declaredLeg amount rate, price ≤ amount - leg

/-- What quoting and carving promise each other: legs within the amount, a lone leg the declared
one, the quoted amount the least that covers the price, several legs leaving the price. -/
structure Inverts (price rate quote amount : ℕ) (bps : List ℕ) : Prop where
  within : ∀ parts ∈ declaredLegs amount bps, parts.sum ≤ amount
  lone : ∀ b ∈ bps, ∀ parts ∈ declaredLegs amount [b], parts = (declaredLeg amount b).toList
  least : IsLeast {a | Covers price rate a} quote
  paid : bps.sum = rate → ∀ parts ∈ declaredLegs quote bps, price ≤ quote - parts.sum

theorem lone_eq {b : ℕ} {parts : List ℕ} (ran : declaredLegs amount [b] = some parts) :
    parts = (declaredLeg amount b).toList := by
  obtain ⟨total, summed, ran⟩ := Option.bind_eq_some_iff.1 ran
  obtain ⟨den, added, ran⟩ := Option.bind_eq_some_iff.1 ran
  obtain rfl := checked_some added
  have all := total_eq summed
  rw [Nat.zero_add, sum_singleton] at all
  subst all
  simp only [mapM_cons, mapM_nil, Option.bind_eq_bind, Option.bind_eq_some_iff,
    Option.pure_def, Option.some.injEq, exists_eq_left'] at ran
  obtain ⟨part, taken, rfl⟩ := ran
  rw [declaredLeg, taken]
  rfl

section
variable (quoted : amountWithLeg price rate = some quote)
  (carved : declaredLeg quote rate = some leg)
include carved

theorem leg_of_le (le : amount ≤ quote) :
    declaredLeg amount rate = some (amount * rate / (10000 + rate)) := by
  obtain ⟨_, fits, -⟩ := Option.map_eq_some_iff.1 carved
  unfold checked at fits
  split_ifs at fits with small
  rw [declaredLeg, checked, if_pos ((Nat.mul_le_mul_right rate le).trans_lt small)]
  rfl

include quoted

theorem covers_quote : Covers price rate quote := by
  refine ⟨_, leg_of_le carved le_rfl, Nat.le_sub_of_add_le ?_⟩
  have covers := quote_covers quoted
  have taken := Nat.div_mul_le_self (quote * rate) (10000 + rate)
  refine Nat.le_of_mul_le_mul_right (c := 10000 + rate) ?_ (by omega)
  rw [Nat.add_mul, Nat.mul_add quote]
  omega

theorem covers_pred (priced : 0 < price) (takes : 0 < rate) :
    0 < quote ∧ Covers price rate (quote - 1) := by
  have covers := quote_covers quoted
  have margin : 0 < price * rate := Nat.mul_pos priced takes
  obtain ⟨rest, rfl⟩ : ∃ rest, quote = price + 1 + rest := ⟨quote - (price + 1), by
    rw [Nat.mul_add] at covers
    omega⟩
  refine ⟨by omega, _, leg_of_le carved (by omega), Nat.le_sub_of_add_le' ?_⟩
  have share : (price + rest) * rate / (10000 + rate) < rest + 1 := by
    rw [Nat.div_lt_iff_lt_mul (by omega)]
    nlinarith
  have shown : price + 1 + rest - 1 = price + rest := by omega
  rw [shown]
  omega

end

end Tenzro.DeclaredLegs
