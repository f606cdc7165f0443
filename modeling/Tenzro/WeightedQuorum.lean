import Mathlib

set_option autoImplicit false

/-!
# Weighted quorums

A heavy set has a correct party, two sets that share no correct party are light
together, and two heavy sets share a correct party.
-/
namespace WeightedQuorum

variable {ι : Type} (w : ι → ℕ)

def weight (A : Finset ι) : ℕ := ∑ i ∈ A, w i

variable {w}

theorem weight_mono {A B : Finset ι} (h : A ⊆ B) : weight w A ≤ weight w B :=
  Finset.sum_le_sum_of_subset h

theorem weight_le_weight {v : ι → ℕ} {A : Finset ι} (h : ∀ i ∈ A, v i ≤ w i) :
    weight v A ≤ weight w A := Finset.sum_le_sum h

variable [DecidableEq ι]

theorem weight_union_inter (A B : Finset ι) :
    weight w (A ∪ B) + weight w (A ∩ B) = weight w A + weight w B :=
  Finset.sum_union_inter

theorem weight_insert {A : Finset ι} {i : ι} (h : i ∉ A) :
    weight w (insert i A) = w i + weight w A := Finset.sum_insert h

theorem exists_correct {B E : Finset ι} (h : weight w B < weight w E) : ∃ i ∈ E, i ∉ B := by
  by_contra none
  push Not at none
  exact absurd (weight_mono (fun i hi => none i hi)) (not_le.2 h)

theorem weight_add_le {U B E F : Finset ι} (hE : E ⊆ U) (hF : F ⊆ U)
    (h : ∀ i ∈ E, i ∈ F → i ∈ B) : weight w E + weight w F ≤ weight w U + weight w B := by
  have inter : E ∩ F ⊆ B := by
    intro i hi
    exact h i (Finset.mem_inter.1 hi).1 (Finset.mem_inter.1 hi).2
  have hu := weight_mono (w := w) (Finset.union_subset hE hF)
  have hi := weight_mono (w := w) inter
  have split := weight_union_inter (w := w) E F
  omega

theorem exists_common {U B E F : Finset ι} (hE : E ⊆ U) (hF : F ⊆ U)
    (h : weight w U + weight w B < weight w E + weight w F) : ∃ i ∈ E, i ∈ F ∧ i ∉ B := by
  by_contra none
  push Not at none
  exact absurd (weight_add_le hE hF none) (not_le.2 h)

theorem weight_sdiff {U B : Finset ι} (h : B ⊆ U) :
    weight w (U \ B) + weight w B = weight w U := Finset.sum_sdiff h

end WeightedQuorum
