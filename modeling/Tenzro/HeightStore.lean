import Mathlib

set_option autoImplicit false

/-!
# Chains kept by height

A chain is a list whose newest element comes first. A store keeps something about every
part of the chain at the height of that part's newest element, so that another branch is
written over the heights it shares with the old one.
-/
namespace HeightStore
open List Function

section
variable {α : Type} {root : α → Prop} {accepts : List α → α → Prop}

/-- The chains that start with a root and in which every later element was accepted on top
of those before it. -/
inductive Grown (root : α → Prop) (accepts : List α → α → Prop) : List α → Prop where
  | root {a : α} (start : root a) : Grown root accepts [a]
  | grow {a : α} {l : List α} (chain : Grown root accepts l) (next : accepts l a) :
      Grown root accepts (a :: l)

theorem Grown.ne_nil {l : List α} (h : Grown root accepts l) : l ≠ [] := by
  cases h <;> simp

theorem Grown.suffix {l t : List α} (h : Grown root accepts l) (part : t <:+ l) (some : t ≠ []) :
    Grown root accepts t := by
  induction h with
  | @root a start =>
    rcases suffix_cons_iff.1 part with rfl | part
    · exact .root start
    · exact absurd (suffix_nil.1 part) some
  | @grow a l chain next ih =>
    rcases suffix_cons_iff.1 part with rfl | part
    · exact .grow chain next
    · exact ih part

end

/-! ### Heights -/

section
variable {α β : Type} {get : ℕ → β} {value : List α → β} {base : ℕ} {l t : List α}

def height (base : ℕ) (l : List α) : ℕ := base + (l.length - 1)

def Placed (get : ℕ → β) (value : List α → β) (base : ℕ) (l : List α) : Prop :=
  ∀ t, t <:+ l → t ≠ [] → get (height base t) = value t

theorem height_cons {a : α} : height base (a :: l) = base + l.length := by
  simp [height]

theorem height_lt (some : t ≠ []) (part : t <:+ l) : height base t < base + l.length := by
  have size := part.length_le
  have positive := length_pos_iff.2 some
  unfold height
  omega

theorem Placed.newest (h : Placed get value base l) (some : l ≠ []) :
    get (height base l) = value l :=
  h l suffix_rfl some

theorem Placed.suffix (h : Placed get value base l) (part : t <:+ l) : Placed get value base t :=
  fun u inner some => h u (inner.trans part) some

theorem Placed.cons (h : Placed get value base l) (a : α) :
    Placed (update get (base + l.length) (value (a :: l))) value base (a :: l) := by
  intro t part some
  rcases suffix_cons_iff.1 part with rfl | part
  · rw [height_cons, update_self]
  · rw [update_of_ne (height_lt some part).ne]
    exact h t part some

theorem exists_part {n : ℕ} (low : base ≤ n) (high : n < base + l.length) :
    ∃ t, t <:+ l ∧ t ≠ [] ∧ height base t = n := by
  refine ⟨l.drop (base + l.length - 1 - n), drop_suffix .., ?_, ?_⟩
  · rw [← length_pos_iff, length_drop]
    omega
  · simp only [height, length_drop]
    omega

theorem height_drop (base : ℕ) {k : ℕ} (small : k < l.length) :
    height base (l.drop k) + k = height base l := by
  simp only [height, length_drop]
  omega

end
end HeightStore
