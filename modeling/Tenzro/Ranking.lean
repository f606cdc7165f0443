import Mathlib

set_option autoImplicit false

/-!
# Ranks in a list

The rank of an entry is how many entries come before it, whatever order the list is in.
-/
namespace Ranking
open List

variable {α : Type} (r : α → α → Prop) [DecidableRel r]

def rank (l : List α) (x : α) : ℕ := l.countP fun y => r y x

variable {r} {l l' : List α} {a x y : α}

theorem rank_perm (perm : l.Perm l') : rank r l x = rank r l' x :=
  perm.countP_eq _

theorem rank_cons_of (before : r a x) : rank r (a :: l) x = rank r l x + 1 :=
  countP_cons_of_pos (by simpa using before)

section
variable [IsStrictOrder α r]

theorem rank_lt (before : r x y) (mem : x ∈ l) : rank r l x < rank r l y := by
  unfold rank
  induction l with
  | nil => cases mem
  | cons b l ih =>
    have later : l.countP (fun z => r z x) ≤ l.countP (fun z => r z y) :=
      countP_mono_left fun z _ first => by
        simp only [decide_eq_true_eq] at first ⊢
        exact Trans.trans first before
    rcases mem_cons.1 mem with rfl | mem
    · rw [countP_cons_of_neg (by simpa using irrefl x),
        countP_cons_of_pos (by simpa using before)]
      omega
    · have more := ih mem
      by_cases first : r b x
      · have second : r b y := Trans.trans first before
        rw [countP_cons_of_pos (by simpa using first),
          countP_cons_of_pos (by simpa using second)]
        omega
      · rw [countP_cons_of_neg (by simpa using first), countP_cons]
        omega

theorem rank_head (first : ∀ b ∈ l, r a b) : rank r (a :: l) a = 0 := by
  unfold rank
  rw [countP_eq_zero]
  intro b mem
  simp only [decide_eq_true_eq]
  rcases mem_cons.1 mem with rfl | mem
  · exact irrefl b
  · exact asymm (first b mem)

theorem mem_take (sorted : l.Pairwise r) (k : ℕ) : x ∈ l.take k ↔ x ∈ l ∧ rank r l x < k := by
  induction l generalizing k with
  | nil => simp
  | cons a l ih =>
    obtain ⟨first, sorted⟩ := pairwise_cons.1 sorted
    cases k with
    | zero => simp
    | succ k =>
      rw [take_succ_cons, mem_cons, ih sorted, mem_cons]
      by_cases own : x = a
      · rw [own, rank_head first]
        simp
      · have beyond : x ∈ l → rank r (a :: l) x = rank r l x + 1 := fun mem =>
          rank_cons_of (first x mem)
        constructor
        · rintro (same | ⟨mem, below⟩)
          · exact absurd same own
          · rw [beyond mem]
            exact ⟨.inr mem, by omega⟩
        · rintro ⟨same | mem, below⟩
          · exact absurd same own
          · rw [beyond mem] at below
            exact .inr ⟨mem, by omega⟩

/-- Of a predicate that holds first where it holds at all, at most `k` entries of a sorted list
have it exactly when the entry ranked `k` has not. -/
theorem countP_le_sorted (sorted : l.Pairwise r) (p : α → Prop) [DecidablePred p]
    (down : ∀ x ∈ l, ∀ y ∈ l, r x y → p y → p x) (k : ℕ) :
    l.countP (fun x => p x) ≤ k ↔ ∀ x ∈ l, rank r l x = k → ¬ p x := by
  induction l generalizing k with
  | nil => simp
  | cons a l ih =>
    obtain ⟨first, sorted⟩ := pairwise_cons.1 sorted
    have rest := ih sorted fun x mx y my =>
      down x (mem_cons_of_mem _ mx) y (mem_cons_of_mem _ my)
    have beyond : ∀ x ∈ l, rank r (a :: l) x = rank r l x + 1 := fun x mem =>
      rank_cons_of (first x mem)
    by_cases held : p a
    · rw [countP_cons_of_pos (by simpa using held)]
      cases k with
      | zero =>
        constructor
        · intro none
          omega
        · intro none
          exact absurd held (none a mem_cons_self (rank_head first))
      | succ k =>
        rw [Nat.add_le_add_iff_right, rest]
        constructor
        · intro tail x mem at_k
          rcases mem_cons.1 mem with rfl | mem
          · rw [rank_head first] at at_k
            omega
          · refine tail x mem ?_
            have := beyond x mem
            omega
        · intro whole x mem at_k
          refine whole x (mem_cons_of_mem _ mem) ?_
          rw [beyond x mem, at_k]
    · have none : ∀ x ∈ a :: l, ¬ p x := by
        intro x mem holds
        rcases mem_cons.1 mem with rfl | tail
        · exact held holds
        · exact held (down a mem_cons_self x mem (first x tail) holds)
      have zero : (a :: l).countP (fun x => p x) = 0 :=
        countP_eq_zero.2 fun x mem => by simpa using none x mem
      rw [zero]
      exact ⟨fun _ x mem _ => none x mem, fun _ => Nat.zero_le _⟩

theorem countP_le {s : List α} (perm : s.Perm l) (sorted : s.Pairwise r) (p : α → Prop)
    [DecidablePred p] (down : ∀ x ∈ l, ∀ y ∈ l, r x y → p y → p x) (k : ℕ) :
    l.countP (fun x => p x) ≤ k ↔ ∀ x ∈ l, rank r l x = k → ¬ p x := by
  rw [← perm.countP_eq, countP_le_sorted sorted p fun x mx y my =>
    down x (perm.mem_iff.1 mx) y (perm.mem_iff.1 my)]
  simp only [perm.mem_iff, rank_perm perm]

theorem countP_rank {s : List α} (perm : s.Perm l) (sorted : s.Pairwise r) (k : ℕ) :
    l.countP (fun x => rank r l x < k) = min k l.length := by
  rw [← perm.countP_eq, ← perm.length_eq]
  simp only [← rank_perm perm]
  clear perm
  induction s generalizing k with
  | nil => simp
  | cons a s ih =>
    obtain ⟨first, sorted⟩ := pairwise_cons.1 sorted
    cases k with
    | zero => simp
    | succ k =>
      have head : rank r (a :: s) a < k + 1 := by
        rw [rank_head first]
        omega
      have tail : s.countP (fun x => rank r (a :: s) x < k + 1) =
          s.countP (fun x => rank r s x < k) :=
        countP_congr fun x mem => by
          rw [rank_cons_of (first x mem)]
          simp
      rw [countP_cons_of_pos (by simpa using head), tail, ih sorted, length_cons]
      omega

end

/-! ### Indexed numbers, larger first -/

/-- The larger number first, equal ones by their indices. -/
def Before (a b : ℕ × ℕ) : Prop := b.1 < a.1 ∨ a.1 = b.1 ∧ a.2 < b.2

instance : DecidableRel Before := fun a b => inferInstanceAs (Decidable (b.1 < a.1 ∨ _))

instance : IsStrictOrder (ℕ × ℕ) Before where
  irrefl a := by
    unfold Before
    omega
  trans a b c := by
    unfold Before
    omega

def largestFirst (l : List (ℕ × ℕ)) : List (ℕ × ℕ) := l.insertionSort fun a b => ¬ Before b a

theorem largestFirst_perm (l : List (ℕ × ℕ)) : (largestFirst l).Perm l :=
  perm_insertionSort ..

theorem largestFirst_sorted {l : List (ℕ × ℕ)} (nodup : l.Nodup) :
    (largestFirst l).Pairwise Before := by
  have either : Std.Total fun a b : ℕ × ℕ => ¬ Before b a := ⟨fun a b => by
    unfold Before
    omega⟩
  have chained : IsTrans (ℕ × ℕ) fun a b => ¬ Before b a := ⟨fun a b c => by
    unfold Before
    omega⟩
  have apart : (largestFirst l).Nodup := (largestFirst_perm l).nodup_iff.2 nodup
  have sorted : (largestFirst l).Pairwise fun a b => ¬ Before b a :=
    pairwise_insertionSort _ l
  refine (sorted.and apart).imp fun {a b} both => ?_
  obtain ⟨order, ne⟩ := both
  unfold Before at order ⊢
  have differ : a.1 ≠ b.1 ∨ a.2 ≠ b.2 := by
    by_contra same
    push Not at same
    exact ne (Prod.ext same.1 same.2)
  omega

/-- Fewer entries than there are positive numbers, the largest first, all have a positive one. -/
theorem pos_of_rank_lt {l : List (ℕ × ℕ)} {k : ℕ} (few : k ≤ l.countP fun x => 0 < x.1)
    {x : ℕ × ℕ} (below : rank Before l x < k) : 0 < x.1 := by
  by_contra whole
  have ahead : l.countP (fun x => 0 < x.1) ≤ rank Before l x := by
    apply countP_mono_left
    intro y _ pos
    simp only [decide_eq_true_eq] at pos ⊢
    left
    omega
  omega

theorem pos_of_mem_take {l : List (ℕ × ℕ)} (nodup : l.Nodup) {k : ℕ}
    (few : k ≤ l.countP fun x => 0 < x.1) {x : ℕ × ℕ} (first : x ∈ (largestFirst l).take k) :
    0 < x.1 := by
  have below := ((mem_take (largestFirst_sorted nodup) k).1 first).2
  rw [rank_perm (largestFirst_perm l)] at below
  exact pos_of_rank_lt few below

end Ranking
