import Mathlib

set_option autoImplicit false

/-!
# Keys none of which starts another

Entries under such keys split into what they share and one part for each next digit. Both
splits keep the property, and membership goes along with them.
-/

namespace PrefixKeys
open List
variable {α β : Type}

theorem le_length_takeWhile {q : α → Bool} {l : List α} {n : ℕ} :
    n ≤ (l.takeWhile q).length ↔ ∀ i < n, ∃ x, l[i]? = some x ∧ q x = true := by
  induction l generalizing n with
  | nil =>
    refine ⟨fun zero i below => ?_, fun each => ?_⟩
    · simp only [takeWhile_nil, length_nil] at zero
      omega
    · by_contra more
      obtain ⟨x, at_zero, -⟩ := each 0 (by omega)
      simp at at_zero
  | cons a l ih =>
    cases n with
    | zero => simp
    | succ n =>
      by_cases first : q a = true
      · rw [takeWhile_cons_of_pos first, length_cons, Nat.succ_le_succ_iff, ih]
        refine ⟨fun each i below => ?_, fun each i below => ?_⟩
        · cases i with
          | zero => exact ⟨a, rfl, first⟩
          | succ i => exact each i (Nat.lt_of_succ_lt_succ below)
        · exact each (i + 1) (Nat.succ_lt_succ below)
      · rw [takeWhile_cons_of_neg first]
        refine ⟨fun none => absurd none (Nat.not_succ_le_zero n), fun each => ?_⟩
        obtain ⟨x, at_zero, holds⟩ := each 0 (Nat.zero_lt_succ n)
        rw [getElem?_cons_zero, Option.some.injEq] at at_zero
        exact absurd (at_zero ▸ holds) first

def shorten (n : ℕ) (entries : List (List α × β)) : List (List α × β) :=
  entries.map fun e => (e.1.drop n, e.2)

section
variable [DecidableEq α]

/-- How many leading digits all keys share. -/
def commonLength : List (List α × β) → ℕ
  | [] => 0
  | first :: rest => ((range first.1.length).takeWhile fun i =>
      (first :: rest).all fun e => e.1[i]? = first.1[i]?).length

def shared (entries : List (List α × β)) : List α :=
  ((entries.head?.map Prod.fst).getD []).take (commonLength entries)

def under (a : α) (entries : List (List α × β)) : List (List α × β) :=
  (entries.filter fun e => e.1.head? = some a).map fun e => (e.1.tail, e.2)

end

def PrefixFree (entries : List (List α × β)) : Prop :=
  entries.Pairwise fun x y => ¬ x.1 <+: y.1 ∧ ¬ y.1 <+: x.1

section
variable {entries other : List (List α × β)} {k : List α} {v w : β} {a : α} {n : ℕ}

theorem PrefixFree.eq_of_prefix (free : PrefixFree entries) {x y : List α × β}
    (hx : x ∈ entries) (hy : y ∈ entries) (starts : x.1 <+: y.1) : x = y := by
  have apart : entries.Pairwise fun x y => ¬ x.1 <+: y.1 ∧ ¬ y.1 <+: x.1 := free
  have symmetric : Std.Symm fun x y : List α × β => ¬ x.1 <+: y.1 ∧ ¬ y.1 <+: x.1 :=
    ⟨fun _ _ h => h.symm⟩
  by_contra distinct
  exact (apart.forall hx hy distinct).1 starts

theorem PrefixFree.value_unique (free : PrefixFree entries) (hv : (k, v) ∈ entries)
    (hw : (k, w) ∈ entries) : v = w :=
  congrArg Prod.snd (free.eq_of_prefix hv hw prefix_rfl)

theorem PrefixFree.ne_nil (free : PrefixFree entries) (several : 2 ≤ entries.length)
    (mem : (k, v) ∈ entries) : k ≠ [] := by
  intro empty
  subst empty
  match entries, several with
  | x :: y :: rest, _ =>
    have at_x : ([], v) = x := free.eq_of_prefix mem mem_cons_self nil_prefix
    have apart := (pairwise_cons.1 free).1 y mem_cons_self
    subst at_x
    exact apart.1 nil_prefix

theorem PrefixFree.under [DecidableEq α] (free : PrefixFree entries) :
    PrefixFree (under a entries) := by
  unfold PrefixFree PrefixKeys.under
  refine pairwise_map.2 (List.Pairwise.imp_of_mem ?_ (List.Pairwise.filter _ free))
  intro x y hx hy apart
  have head_x : x.1.head? = some a := by simpa using (mem_filter.1 hx).2
  have head_y : y.1.head? = some a := by simpa using (mem_filter.1 hy).2
  obtain ⟨tail_x, eq_x⟩ := head?_eq_some_iff.1 head_x
  obtain ⟨tail_y, eq_y⟩ := head?_eq_some_iff.1 head_y
  rw [eq_x, eq_y] at apart
  rw [eq_x, eq_y]
  simpa using apart

theorem mem_under [DecidableEq α] : (k, v) ∈ under a entries ↔ (a :: k, v) ∈ entries := by
  unfold under
  constructor
  · intro mem
    obtain ⟨x, hx, eq⟩ := mem_map.1 mem
    obtain ⟨mem_x, head⟩ := mem_filter.1 hx
    have head_x : x.1.head? = some a := by simpa using head
    obtain ⟨tail, eq_x⟩ := head?_eq_some_iff.1 head_x
    obtain ⟨key, value⟩ := x
    simp only at eq_x
    subst eq_x
    simp only [tail_cons, Prod.mk.injEq] at eq
    obtain ⟨rfl, rfl⟩ := eq
    exact mem_x
  · intro mem
    exact mem_map.2 ⟨(a :: k, v), mem_filter.2 ⟨mem, by simp⟩, rfl⟩

theorem mem_shorten_of_mem (mem : (k, v) ∈ entries) :
    (k.drop n, v) ∈ shorten n entries := mem_map.2 ⟨(k, v), mem, rfl⟩

theorem shorten_perm (same : entries.Perm other) : (shorten n entries).Perm (shorten n other) :=
  same.map _

/-! ### The shared part -/

variable [DecidableEq α]

theorem le_commonLength (some_entry : entries ≠ []) :
    n ≤ commonLength entries ↔ ∃ p : List α, p.length = n ∧ ∀ x ∈ entries, p <+: x.1 := by
  match entries, some_entry with
  | first :: rest, _ =>
    unfold commonLength
    rw [le_length_takeWhile]
    constructor
    · intro each
      have agree (i : ℕ) (below : i < n) : i < first.1.length ∧
          ∀ x ∈ first :: rest, x.1[i]? = first.1[i]? := by
        obtain ⟨j, at_i, all⟩ := each i below
        obtain ⟨in_range, rfl⟩ := List.getElem?_eq_some_iff.1 at_i
        simp only [length_range] at in_range
        simp only [getElem_range, all_eq_true, decide_eq_true_eq] at all
        exact ⟨in_range, all⟩
      have long : n ≤ first.1.length := by
        by_contra short
        exact absurd (agree first.1.length (by omega)).1 (lt_irrefl _)
      refine ⟨first.1.take n, by simp [long], fun x mem => ?_⟩
      refine prefix_iff_getElem?.2 fun i below => ?_
      have within : i < n := by
        simp only [length_take] at below
        omega
      rw [(agree i within).2 x mem, getElem_take]
      exact getElem?_eq_getElem (by omega)
    · rintro ⟨p, rfl, starts⟩ i below
      have at_first := prefix_iff_getElem?.1 (starts first mem_cons_self) i below
      have long := (starts first mem_cons_self).length_le
      refine ⟨i, getElem?_range (by omega), ?_⟩
      simp only [all_eq_true, decide_eq_true_eq]
      intro x mem
      rw [at_first, prefix_iff_getElem?.1 (starts x mem) i below]

theorem commonLength_perm (same : entries.Perm other) :
    commonLength entries = commonLength other := by
  by_cases none : entries = []
  · subst none
    rw [same.nil_eq]
  · have none' : other ≠ [] := fun h => none (h ▸ same).eq_nil
    refine eq_of_forall_le_iff fun n => ?_
    rw [le_commonLength none, le_commonLength none']
    simp only [same.mem_iff]

theorem shared_front (mem : (k, v) ∈ entries) : shared entries <+: k := by
  have some_entry : entries ≠ [] := ne_nil_of_mem mem
  obtain ⟨p, length, starts⟩ := (le_commonLength some_entry).1 le_rfl
  match entries, some_entry with
  | first :: rest, _ =>
    have head : shared (first :: rest) = p := by
      change first.1.take _ = p
      rw [← length]
      exact (prefix_iff_eq_take.1 (starts first mem_cons_self)).symm
    rw [head]
    exact starts (k, v) mem

theorem length_shared (some_entry : entries ≠ []) :
    (shared entries).length = commonLength entries := by
  obtain ⟨p, length, starts⟩ := (le_commonLength some_entry).1 le_rfl
  match entries, some_entry with
  | first :: rest, _ =>
    have long := (starts first mem_cons_self).length_le
    change (first.1.take _).length = _
    rw [length_take]
    omega

theorem shared_append (mem : (k, v) ∈ entries) :
    shared entries ++ k.drop (commonLength entries) = k := by
  obtain ⟨rest, rfl⟩ := shared_front mem
  rw [← length_shared (ne_nil_of_mem mem), drop_left]

theorem shared_perm (same : entries.Perm other) : shared entries = shared other := by
  by_cases none : entries = []
  · subst none
    rw [same.nil_eq]
  · have none' : other ≠ [] := fun h => none (h ▸ same).eq_nil
    have length : (shared entries).length = (shared other).length := by
      rw [length_shared none, length_shared none', commonLength_perm same]
    obtain ⟨x, mem⟩ := exists_mem_of_ne_nil entries none
    have here : shared entries <+: x.1 := shared_front mem
    have there : shared other <+: x.1 := shared_front (same.mem_iff.1 mem)
    exact (prefix_of_prefix_length_le here there length.le).eq_of_length length

theorem mem_shorten :
    (k, v) ∈ shorten (commonLength entries) entries ↔ (shared entries ++ k, v) ∈ entries := by
  constructor
  · intro mem
    obtain ⟨⟨key, value⟩, mem_x, eq⟩ := mem_map.1 mem
    simp only [Prod.mk.injEq] at eq
    obtain ⟨rfl, rfl⟩ := eq
    rwa [shared_append mem_x]
  · intro mem
    have dropped := mem_shorten_of_mem (n := (shared entries).length) mem
    rwa [drop_left, length_shared (ne_nil_of_mem mem)] at dropped

theorem PrefixFree.shorten (free : PrefixFree entries) :
    PrefixFree (shorten (commonLength entries) entries) := by
  unfold PrefixFree PrefixKeys.shorten
  refine pairwise_map.2 (List.Pairwise.imp_of_mem ?_ free)
  intro x y hx hy apart
  rw [← shared_append (k := x.1) (v := x.2) hx, ← shared_append (k := y.1) (v := y.2) hy] at apart
  simpa using apart

theorem under_perm (same : entries.Perm other) : (under a entries).Perm (under a other) :=
  (same.filter _).map _

end
end PrefixKeys
