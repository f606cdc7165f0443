import Mathlib

set_option autoImplicit false

/-!
# Finite maps kept in key order

Association lists with strictly increasing keys. The representation is
canonical, so two maps with the same lookups are equal, and every operation
computes by structural recursion on the list.
-/

structure SortedMap (κ υ : Type) [LinearOrder κ] where
  entries : List (κ × υ)
  sorted : entries.Pairwise (fun a b => a.1 < b.1)

namespace SortedMap
open List Option

variable {κ υ : Type} [LinearOrder κ]

def find : List (κ × υ) → κ → Option υ
  | [], _ => none
  | (a, x) :: l, k => if k = a then some x else find l k

def place (k : κ) (x : υ) : List (κ × υ) → List (κ × υ)
  | [] => [(k, x)]
  | (a, y) :: l =>
    if k < a then (k, x) :: (a, y) :: l
    else if k = a then (k, x) :: l
    else (a, y) :: place k x l

theorem mem_place {k : κ} {x : υ} {l : List (κ × υ)} {e : κ × υ} (h : e ∈ place k x l) :
    e = (k, x) ∨ e ∈ l := by
  induction l with
  | nil => simpa [place] using h
  | cons a l ih =>
    simp only [place] at h
    split_ifs at h <;> grind

theorem place_sorted (k : κ) (x : υ) {l : List (κ × υ)}
    (h : l.Pairwise (fun a b => a.1 < b.1)) :
    (place k x l).Pairwise (fun a b => a.1 < b.1) := by
  induction l with
  | nil => simp [place]
  | cons a l ih =>
    obtain ⟨head, tail⟩ := pairwise_cons.1 h
    simp only [place]
    split_ifs with below same
    · refine pairwise_cons.2 ⟨?_, h⟩
      intro b hb
      rcases mem_cons.1 hb with rfl | hb
      · exact below
      · exact below.trans (head b hb)
    · exact pairwise_cons.2 ⟨fun b hb => same ▸ head b hb, tail⟩
    · refine pairwise_cons.2 ⟨?_, ih tail⟩
      intro b hb
      rcases mem_place hb with rfl | hb
      · exact lt_of_le_of_ne (not_lt.1 below) (Ne.symm same)
      · exact head b hb

theorem find_place (k : κ) (x : υ) (l : List (κ × υ)) (j : κ) :
    find (place k x l) j = if j = k then some x else find l j := by
  induction l with
  | nil => simp [place, find]
  | cons a l ih => simp only [place]; split_ifs <;> simp_all [find]

theorem find_eq_none {l : List (κ × υ)} {k : κ} : find l k = none ↔ ∀ e ∈ l, e.1 ≠ k := by
  induction l with
  | nil => simp [find]
  | cons a l ih =>
    by_cases h : k = a.1
    · simp [find, h]
    · simp [find, h, ih, Ne.symm h]

theorem mem_of_find {l : List (κ × υ)} {k : κ} {x : υ} (h : find l k = some x) : (k, x) ∈ l := by
  induction l with
  | nil => simp [find] at h
  | cons a l ih =>
    by_cases same : k = a.1
    · subst same
      simp only [find, if_true, Option.some.injEq] at h
      simp [← h]
    · simp only [find, same, if_false] at h
      exact mem_cons_of_mem _ (ih h)

theorem find_of_mem {l : List (κ × υ)} (sorted : l.Pairwise (fun a b => a.1 < b.1))
    {k : κ} {x : υ} (h : (k, x) ∈ l) : find l k = some x := by
  induction l with
  | nil => simp at h
  | cons a l ih =>
    obtain ⟨head, tail⟩ := pairwise_cons.1 sorted
    rcases mem_cons.1 h with rfl | h
    · simp [find]
    · have apart : k ≠ a.1 := (head _ h).ne'
      simpa [find, apart] using ih tail h

def empty : SortedMap κ υ := ⟨[], List.Pairwise.nil⟩

instance : Inhabited (SortedMap κ υ) := ⟨empty⟩

def get? (m : SortedMap κ υ) (k : κ) : Option υ := find m.entries k

def getD (m : SortedMap κ υ) (k : κ) (d : υ) : υ := (m.get? k).getD d

def contains (m : SortedMap κ υ) (k : κ) : Bool := (m.get? k).isSome

def insert (m : SortedMap κ υ) (k : κ) (x : υ) : SortedMap κ υ :=
  ⟨place k x m.entries, place_sorted k x m.sorted⟩

def filter (m : SortedMap κ υ) (p : κ → υ → Bool) : SortedMap κ υ :=
  ⟨m.entries.filter (fun e => p e.1 e.2), m.sorted.filter _⟩

def erase (m : SortedMap κ υ) (k : κ) : SortedMap κ υ := m.filter (fun j _ => j ≠ k)

def keys (m : SortedMap κ υ) : List κ := m.entries.map Prod.fst

def values (m : SortedMap κ υ) : List υ := m.entries.map Prod.snd

def size (m : SortedMap κ υ) : ℕ := m.entries.length

def isEmpty (m : SortedMap κ υ) : Bool := m.entries.isEmpty

def first? (m : SortedMap κ υ) : Option (κ × υ) := m.entries.head?

def last? (m : SortedMap κ υ) : Option (κ × υ) := m.entries.getLast?

def ofList (l : List (κ × υ)) : SortedMap κ υ :=
  l.foldl (fun m e => m.insert e.1 e.2) empty

/-- The same keys with changed values. -/
def map {ω : Type} (m : SortedMap κ υ) (f : υ → ω) : SortedMap κ ω :=
  ⟨m.entries.map (fun e => (e.1, f e.2)), pairwise_map.2 m.sorted⟩

theorem mem_entries {m : SortedMap κ υ} {k : κ} {x : υ} :
    (k, x) ∈ m.entries ↔ m.get? k = some x :=
  ⟨find_of_mem m.sorted, mem_of_find⟩

@[simp] theorem get?_empty (k : κ) : (empty : SortedMap κ υ).get? k = none := rfl

theorem get?_insert (m : SortedMap κ υ) (k : κ) (x : υ) (j : κ) :
    (m.insert k x).get? j = if j = k then some x else m.get? j :=
  find_place k x m.entries j

@[simp] theorem get?_insert_self (m : SortedMap κ υ) (k : κ) (x : υ) :
    (m.insert k x).get? k = some x := by simp [get?_insert]

theorem get?_insert_of_ne (m : SortedMap κ υ) {k j : κ} (x : υ) (h : j ≠ k) :
    (m.insert k x).get? j = m.get? j := by simp [get?_insert, h]

theorem get?_filter (m : SortedMap κ υ) (p : κ → υ → Bool) (k : κ) :
    (m.filter p).get? k = (m.get? k).filter (p k) := by
  cases h : m.get? k with
  | none =>
    have absent := find_eq_none.1 h
    refine find_eq_none.2 (fun e he => absent e (mem_of_mem_filter he))
  | some x =>
    have hm : (k, x) ∈ m.entries := mem_entries.2 h
    by_cases hp : p k x
    · have : (k, x) ∈ (m.filter p).entries := mem_filter.2 ⟨hm, hp⟩
      simp [mem_entries.1 this, Option.filter, hp]
    · have : (m.filter p).get? k = none := by
        refine find_eq_none.2 ?_
        rintro ⟨j, y⟩ he rfl
        obtain ⟨hy, hq⟩ := mem_filter.1 he
        have : y = x := by simpa [h] using (mem_entries.1 hy).symm
        subst this
        exact hp hq
      simp [this, Option.filter, hp]

theorem get?_filter_eq_some {m : SortedMap κ υ} {p : κ → υ → Bool} {k : κ} {x : υ} :
    (m.filter p).get? k = some x ↔ m.get? k = some x ∧ p k x = true := by
  rw [get?_filter, filter_eq_some_iff]

theorem get?_erase (m : SortedMap κ υ) (k j : κ) :
    (m.erase k).get? j = if j = k then none else m.get? j := by
  rw [erase, get?_filter]
  by_cases h : j = k
  · cases hj : m.get? j <;> simp [h]
  · cases hj : m.get? j <;> simp [h]

theorem contains_eq_true {m : SortedMap κ υ} {k : κ} :
    m.contains k = true ↔ ∃ x, m.get? k = some x := isSome_iff_exists

theorem contains_eq_false {m : SortedMap κ υ} {k : κ} :
    m.contains k = false ↔ m.get? k = none := by simp [contains]

theorem getD_insert (m : SortedMap κ υ) (k : κ) (x : υ) (j : κ) (d : υ) :
    (m.insert k x).getD j d = if j = k then x else m.getD j d := by
  unfold getD
  rw [get?_insert]
  split_ifs <;> rfl

theorem contains_insert (m : SortedMap κ υ) (k : κ) (x : υ) (j : κ) :
    (m.insert k x).contains j = (decide (j = k) || m.contains j) := by
  unfold contains
  rw [get?_insert]
  by_cases h : j = k <;> simp [h]

theorem mem_keys {m : SortedMap κ υ} {k : κ} : k ∈ m.keys ↔ ∃ x, m.get? k = some x := by
  constructor
  · intro h
    obtain ⟨e, he, rfl⟩ := mem_map.1 h
    exact ⟨e.2, mem_entries.1 he⟩
  · rintro ⟨x, hx⟩
    exact mem_map.2 ⟨(k, x), mem_entries.2 hx, rfl⟩

theorem mem_values {m : SortedMap κ υ} {x : υ} : x ∈ m.values ↔ ∃ k, m.get? k = some x := by
  constructor
  · intro h
    obtain ⟨e, he, rfl⟩ := mem_map.1 h
    exact ⟨e.1, mem_entries.1 he⟩
  · rintro ⟨k, hk⟩
    exact mem_map.2 ⟨(k, x), mem_entries.2 hk, rfl⟩

theorem keys_sorted (m : SortedMap κ υ) : m.keys.Pairwise (· < ·) :=
  pairwise_map.2 m.sorted

theorem keys_nodup (m : SortedMap κ υ) : m.keys.Nodup :=
  m.keys_sorted.imp (fun h => h.ne)

theorem mem_of_get?_ofList {l : List (κ × υ)} {k : κ} {x : υ} (h : (ofList l).get? k = some x) :
    (k, x) ∈ l := by
  have fold : ∀ (l : List (κ × υ)) (m : SortedMap κ υ),
      (l.foldl (fun m e => m.insert e.1 e.2) m).get? k = some x →
        (k, x) ∈ l ∨ m.get? k = some x := by
    intro l
    induction l with
    | nil => exact fun _ h => .inr h
    | cons a l ih =>
      intro m h
      cases ih _ h with
      | inl later => exact .inl (mem_cons_of_mem a later)
      | inr here =>
        rw [get?_insert] at here
        split_ifs at here with same
        · cases here
          exact .inl (by rw [same]; exact mem_cons_self)
        · exact .inr here
  cases fold l empty h with
  | inl found => exact found
  | inr none => cases none

theorem contains_ofList {l : List (κ × υ)} {k : κ} (h : k ∈ l.map Prod.fst) :
    (ofList l).contains k = true := by
  have fold : ∀ (l : List (κ × υ)) (m : SortedMap κ υ),
      k ∈ l.map Prod.fst ∨ m.contains k = true →
        (l.foldl (fun m e => m.insert e.1 e.2) m).contains k = true := by
    intro l
    induction l with
    | nil =>
      intro m h
      cases h with
      | inl no => cases no
      | inr here => exact here
    | cons a l ih =>
      intro m h
      refine ih _ ?_
      rw [contains_insert]
      cases h with
      | inl some =>
        cases mem_cons.1 some with
        | inl here => exact .inr (by rw [here]; simp)
        | inr later => exact .inl later
      | inr here => exact .inr (by rw [here, Bool.or_true])
  exact fold l empty (.inl h)

@[simp] theorem get?_map {ω : Type} (m : SortedMap κ υ) (f : υ → ω) (k : κ) :
    (m.map f).get? k = (m.get? k).map f := by
  have pairs (l : List (κ × υ)) : find (l.map (fun e => (e.1, f e.2))) k = (find l k).map f := by
    induction l with
    | nil => rfl
    | cons e l ih =>
      simp only [map_cons, find]
      split_ifs
      · rfl
      · exact ih
  exact pairs m.entries

theorem isEmpty_iff {m : SortedMap κ υ} : m.isEmpty = true ↔ ∀ k, m.get? k = none := by
  unfold isEmpty get?
  cases m.entries with
  | nil => simp [find]
  | cons e l =>
    simp only [isEmpty_cons, Bool.false_eq_true, false_iff, not_forall]
    exact ⟨e.1, by simp [find]⟩

theorem entries_ext {l r : List (κ × υ)} (hl : l.Pairwise (fun a b => a.1 < b.1))
    (hr : r.Pairwise (fun a b => a.1 < b.1)) (h : ∀ k, find l k = find r k) : l = r := by
  refine Perm.eq_of_pairwise ?_ hl hr ?_
  · intro a b _ _ hab hba
    exact absurd (lt_trans hab hba) (lt_irrefl _)
  · have nodup : ∀ {l : List (κ × υ)}, l.Pairwise (fun a b => a.1 < b.1) → l.Nodup :=
      fun h => h.imp (fun hab hne => by subst hne; exact lt_irrefl _ hab)
    refine (perm_ext_iff_of_nodup (nodup hl) (nodup hr)).2 ?_
    rintro ⟨k, x⟩
    exact ⟨fun hm => mem_of_find ((h k) ▸ find_of_mem hl hm),
      fun hm => mem_of_find ((h k).symm ▸ find_of_mem hr hm)⟩

@[ext] theorem ext_get? {m n : SortedMap κ υ} (h : ∀ k, m.get? k = n.get? k) : m = n := by
  obtain ⟨l, hl⟩ := m
  obtain ⟨r, hr⟩ := n
  congr 1
  exact entries_ext hl hr h

theorem sum_place (f : κ → υ → ℕ) (k : κ) (x : υ) {l : List (κ × υ)}
    (sorted : l.Pairwise (fun a b => a.1 < b.1)) :
    ((place k x l).map fun e => f e.1 e.2).sum + (find l k).elim 0 (f k) =
      (l.map fun e => f e.1 e.2).sum + f k x := by
  induction l with
  | nil => simp [place, find]
  | cons a l ih =>
    obtain ⟨head, tail⟩ := pairwise_cons.1 sorted
    simp only [place]
    split_ifs with below same
    · have absent : find (a :: l) k = none := find_eq_none.2 fun e mem => by
        rcases mem_cons.1 mem with rfl | mem
        · exact below.ne'
        · exact (below.trans (head e mem)).ne'
      rw [absent, map_cons, sum_cons, Option.elim_none, Nat.add_zero, Nat.add_comm]
    · subst same
      simp only [find, if_true, map_cons, sum_cons, Option.elim_some]
      omega
    · have rest := ih tail
      simp only [find, if_neg same, map_cons, sum_cons]
      omega

theorem sum_insert (m : SortedMap κ υ) (f : κ → υ → ℕ) (k : κ) (x : υ) {d : υ} (flat : f k d = 0) :
    ((m.insert k x).entries.map fun e => f e.1 e.2).sum + f k (m.getD k d) =
      (m.entries.map fun e => f e.1 e.2).sum + f k x := by
  have placed := sum_place f k x m.sorted
  rw [← placed, getD, get?]
  cases find m.entries k with
  | none => simp [insert, flat]
  | some y => rfl

theorem filter_flatMap {β : Type} (m : SortedMap κ υ) {g : κ → υ → List β} {key : β → κ}
    (own : ∀ k x, ∀ b ∈ g k x, key b = k) (k : κ) :
    (m.entries.flatMap fun e => g e.1 e.2).filter (fun b => key b = k) =
      (m.get? k).elim [] (g k) := by
  obtain ⟨l, sorted⟩ := m
  change (l.flatMap _).filter _ = (find l k).elim [] (g k)
  induction l with
  | nil => rfl
  | cons a l ih =>
    obtain ⟨head, tail⟩ := pairwise_cons.1 sorted
    rw [flatMap_cons, filter_append, ih tail]
    by_cases same : k = a.1
    · subst same
      have absent : find l a.1 = none := find_eq_none.2 fun e mem => (head e mem).ne'
      have all : (g a.1 a.2).filter (fun b => key b = a.1) = g a.1 a.2 :=
        filter_eq_self.2 fun b mem => decide_eq_true (own _ _ b mem)
      rw [absent, all, find, if_pos rfl]
      exact append_nil _
    · have other : (g a.1 a.2).filter (fun b => key b = k) = [] :=
        filter_eq_nil_iff.2 fun b mem => by
          rw [own _ _ b mem, decide_eq_true_iff]
          exact fun eq => same eq.symm
      rw [other, find, if_neg same]
      rfl

theorem sum_single (m : SortedMap κ υ) (f : υ → ℕ) (k : κ) {d : υ} (flat : f d = 0) :
    (m.entries.map fun e => if e.1 = k then f e.2 else 0).sum = f (m.getD k d) := by
  obtain ⟨l, sorted⟩ := m
  change (l.map _).sum = f ((find l k).getD d)
  induction l with
  | nil => exact flat.symm
  | cons a l ih =>
    obtain ⟨head, tail⟩ := pairwise_cons.1 sorted
    rw [map_cons, sum_cons, ih tail]
    by_cases same : k = a.1
    · subst same
      have absent : find l a.1 = none := find_eq_none.2 fun e mem => (head e mem).ne'
      rw [absent, find, if_pos rfl, if_pos rfl]
      change f a.2 + f d = f a.2
      rw [flat, Nat.add_zero]
    · rw [find, if_neg same, if_neg fun eq => same eq.symm, Nat.zero_add]

theorem ext_getD_empty {ι : Type} [LinearOrder ι] {m n : SortedMap κ (SortedMap ι υ)}
    (hm : ∀ k x, m.get? k = some x → x.isEmpty = false)
    (hn : ∀ k x, n.get? k = some x → x.isEmpty = false)
    (h : ∀ k, m.getD k empty = n.getD k empty) : m = n := by
  refine ext_get? (fun k => ?_)
  have here := h k
  unfold getD at here
  cases left : m.get? k with
  | none =>
    cases right : n.get? k with
    | none => rfl
    | some y =>
      have filled := hn k y right
      rw [left, right, getD_none, getD_some] at here
      rw [← here] at filled
      cases filled
  | some x =>
    have filled := hm k x left
    cases right : n.get? k with
    | none =>
      rw [left, right, getD_none, getD_some] at here
      rw [here] at filled
      cases filled
    | some y =>
      rw [left, right, getD_some, getD_some] at here
      rw [here]

end SortedMap
