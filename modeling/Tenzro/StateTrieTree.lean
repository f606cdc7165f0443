import Tenzro.StateTrieHash

set_option autoImplicit false
set_option linter.dupNamespace false

/-!
# The trie as a tree

A binary tree with stems at its leaves. A stem sits at the shallowest place
where it is alone, so the tree is determined by its entries, and `put` keeps it
so.
-/
namespace Tenzro.StateTrie
open Option SortedMap

structure Entry where
  ns : String
  key : List ℕ
  value : List ℕ
deriving DecidableEq, Repr

abbrev Slots := SortedMap ℕ (Entry × ℕ)

abbrev StemUpdate := SortedMap ℕ (Option Entry)

inductive Tree where
  | nil
  | stem (version stem : ℕ) (slots : Slots)
  | node (version : ℕ) (left right : Tree)

def writeSlot (v : ℕ) (slots : Slots) (e : ℕ × Option Entry) : Slots :=
  match e.2 with
  | none => slots.erase e.1
  | some x => (slots.erase e.1).insert e.1 (x, v)

def writeSlots (v : ℕ) (slots : Slots) (update : StemUpdate) : Slots :=
  update.entries.foldl (writeSlot v) slots

namespace Tree

def leaf (v s : ℕ) (slots : Slots) : Tree := if slots.isEmpty then nil else stem v s slots

/-- Two different stems under a fresh subtree. -/
def split (v : ℕ) (a b : ℕ × Slots) : ℕ → ℕ → Tree
  | 0, _ => nil
  | n + 1, d =>
    if stemBit a.1 d = stemBit b.1 d then
      if stemBit a.1 d = 0 then node v (split v a b n (d + 1)) nil
      else node v nil (split v a b n (d + 1))
    else if stemBit a.1 d = 0 then node v (stem v a.1 a.2) (stem v b.1 b.2)
    else node v (stem v b.1 b.2) (stem v a.1 a.2)

/-- A node over two children; a stem that is alone is lifted in its place. -/
def join (v : ℕ) : Tree → Tree → Tree
  | nil, nil => nil
  | stem _ s slots, nil => stem v s slots
  | nil, stem _ s slots => stem v s slots
  | l, r => node v l r

def put (v s : ℕ) (update : StemUpdate) : ℕ → Tree → Tree
  | _, nil => leaf v s (writeSlots v .empty update)
  | d, stem u s' slots =>
    if s' = s then leaf v s (writeSlots v slots update)
    else if update.values.all isNone then stem u s' slots
    else split v (s', slots) (s, writeSlots v .empty update) (stemBits - d) d
  | d, node _ l r =>
    if stemBit s d = 0 then join v (put v s update (d + 1) l) r
    else join v l (put v s update (d + 1) r)

def slotsAt (s : ℕ) : ℕ → Tree → Slots
  | _, nil => .empty
  | _, stem _ s' slots => if s' = s then slots else .empty
  | d, node _ l r => if stemBit s d = 0 then slotsAt s (d + 1) l else slotsAt s (d + 1) r

def stems : Tree → List (ℕ × Slots)
  | nil => []
  | stem _ s slots => [(s, slots)]
  | node _ l r => l.stems ++ r.stems

def Thick : Tree → Tree → Prop
  | nil, nil => False
  | stem .., nil => False
  | nil, stem .. => False
  | _, _ => True

end Tree

variable [TrieHash]

def Entry.path (e : Entry) : ℕ × ℕ := pathOf e.ns e.key

def SlotsOf (s : ℕ) (slots : Slots) : Prop :=
  ∀ i e, slots.get? i = some e → e.1.path = (s, i)

def UpdateOf (s : ℕ) (update : StemUpdate) : Prop :=
  ∀ i o, update.get? i = some o → i < slotCount ∧ ∀ e, o = some e → e.path = (s, i)

namespace Tree

def Placed : ℕ → ℕ → Tree → Prop
  | _, _, nil => True
  | d, p, stem _ s slots =>
    s < 2 ^ stemBits ∧ stemPrefix s d = p ∧ slots.isEmpty = false ∧ SlotsOf s slots
  | d, p, node _ l r => d < stemBits ∧ Placed (d + 1) (2 * p) l ∧ Placed (d + 1) (2 * p + 1) r ∧
      Thick l r

end Tree

section Slots
omit [TrieHash]

theorem writeSlot_get? (v : ℕ) (slots : Slots) (e : ℕ × Option Entry) (i : ℕ) :
    (writeSlot v slots e).get? i = if i = e.1 then e.2.map (·, v) else slots.get? i := by
  unfold writeSlot
  split
  · rename_i h
    rw [get?_erase]
    split_ifs <;> simp [h]
  · rename_i x h
    rw [get?_insert, get?_erase]
    split_ifs <;> simp [h]

theorem writeSlots_get? (v : ℕ) (slots : Slots) (update : StemUpdate) (i : ℕ) :
    (writeSlots v slots update).get? i = (update.get? i).elim (slots.get? i) (Option.map (·, v)) := by
  have fold (l : List (ℕ × Option Entry)) (sorted : l.Pairwise (fun a b => a.1 < b.1))
      (slots : Slots) : (l.foldl (writeSlot v) slots).get? i =
        (SortedMap.find l i).elim (slots.get? i) (Option.map (·, v)) := by
    induction l generalizing slots with
    | nil => rfl
    | cons e l ih =>
      obtain ⟨above, sorted⟩ := List.pairwise_cons.1 sorted
      rw [List.foldl_cons, ih sorted, writeSlot_get?, SortedMap.find]
      by_cases here : i = e.1
      · have later : SortedMap.find l i = none := by
          refine find_eq_none.2 ?_
          intro x hx same
          have := above x hx
          omega
        rw [later, if_pos here, if_pos here]
        rfl
      · simp [here]
  exact fold update.entries update.sorted slots

theorem all_isNone_iff {update : StemUpdate} :
    update.values.all isNone = true ↔ ∀ i o, update.get? i = some o → o = none := by
  rw [List.all_eq_true]
  constructor
  · intro h i o ho
    exact isNone_iff_eq_none.1 (h o (mem_values.2 ⟨i, ho⟩))
  · intro h o ho
    obtain ⟨i, hi⟩ := mem_values.1 ho
    exact isNone_iff_eq_none.2 (h i o hi)

theorem writeSlots_empty_isEmpty (v : ℕ) (update : StemUpdate) :
    (writeSlots v .empty update).isEmpty = update.values.all isNone := by
  refine Bool.eq_iff_iff.2 ?_
  rw [SortedMap.isEmpty_iff, all_isNone_iff]
  constructor
  · intro none i o ho
    have here := none i
    rw [writeSlots_get?, ho] at here
    simpa using here
  · intro none i
    rw [writeSlots_get?]
    cases ho : update.get? i with
    | none => rfl
    | some o => simp [none i o ho]

end Slots

theorem SlotsOf.write {s v : ℕ} {slots : Slots} {update : StemUpdate} (h : SlotsOf s slots)
    (hu : UpdateOf s update) : SlotsOf s (writeSlots v slots update) := by
  intro i e he
  rw [writeSlots_get?] at he
  cases ho : update.get? i with
  | none =>
    rw [ho] at he
    exact h i e he
  | some o =>
    rw [ho] at he
    cases o with
    | none => simp at he
    | some x =>
      simp only [elim_some, map_some, Option.some.injEq] at he
      subst he
      exact (hu i _ ho).2 x rfl

theorem slotsOf_empty (s : ℕ) : SlotsOf s .empty := by
  intro i e he
  simp at he

namespace Tree
variable {v s d p : ℕ} {update : StemUpdate}

theorem placed_leaf {slots : Slots} (hs : s < 2 ^ stemBits) (hp : stemPrefix s d = p)
    (h : SlotsOf s slots) : (leaf v s slots).Placed d p := by
  unfold leaf
  split_ifs with empty
  · trivial
  · exact ⟨hs, hp, by simpa using empty, h⟩

theorem placed_split {a b : ℕ × Slots} {n : ℕ} (room : stemBits ≤ d + n) (differ : a.1 ≠ b.1)
    (ha : (stem v a.1 a.2).Placed d p) (hb : (stem v b.1 b.2).Placed d p) :
    (split v a b n d).Placed d p ∧ (∃ l r, split v a b n d = node v l r) := by
  have apart : d < stemBits := by
    by_contra deep
    have full (x : ℕ) : stemPrefix x d = x := by
      have : stemBits - d = 0 := by omega
      simp [stemPrefix, this]
    exact differ (by rw [← full a.1, ← full b.1, ha.2.1, hb.2.1])
  induction n generalizing d p with
  | zero => omega
  | succ n ih =>
    have below (x : ℕ × Slots) (hx : (stem v x.1 x.2).Placed d p) :
        (stem v x.1 x.2).Placed (d + 1) (2 * p + stemBit x.1 d) := by
      refine ⟨hx.1, ?_, hx.2.2⟩
      rw [stemPrefix_succ _ apart, hx.2.1]
    unfold split
    by_cases same : stemBit a.1 d = stemBit b.1 d
    · have deeper : d + 1 < stemBits := by
        by_contra deep
        have full (x : ℕ) : stemPrefix x (d + 1) = x := by
          have : stemBits - (d + 1) = 0 := by omega
          simp [stemPrefix, this]
        refine differ ?_
        rw [← full a.1, ← full b.1, (below a ha).2.1, (below b hb).2.1, same]
      obtain ⟨placed, l, r, shape⟩ := ih (p := 2 * p + stemBit a.1 d) (by omega) (below a ha)
        (same ▸ below b hb) deeper
      simp only [same, if_true]
      split_ifs with zero
      · rw [same, zero] at placed
        exact ⟨⟨apart, placed, trivial, by rw [shape]; trivial⟩, _, _, rfl⟩
      · rw [same, stemBit_eq_one zero] at placed
        exact ⟨⟨apart, trivial, placed, by rw [shape]; trivial⟩, _, _, rfl⟩
    · simp only [same, if_false]
      have la := below a ha
      have lb := below b hb
      split_ifs with zero
      · rw [zero] at la same
        rw [stemBit_eq_one (Ne.symm same)] at lb
        exact ⟨⟨apart, la, lb, trivial⟩, _, _, rfl⟩
      · have one := stemBit_eq_one zero
        have other : stemBit b.1 d = 0 := by
          have := stemBit_lt b.1 d
          omega
        rw [one] at la
        rw [other] at lb
        exact ⟨⟨apart, lb, la, trivial⟩, _, _, rfl⟩

theorem placed_join {l r : Tree} (hd : d < stemBits) (hl : l.Placed (d + 1) (2 * p))
    (hr : r.Placed (d + 1) (2 * p + 1)) : (join v l r).Placed d p := by
  have up {s q b : ℕ} {slots : Slots} (h : (stem q s slots).Placed (d + 1) (2 * p + b))
      (hb : b < 2) : (stem v s slots).Placed d p := by
    refine ⟨h.1, ?_, h.2.2⟩
    have here := h.2.1
    rw [stemPrefix_succ _ hd] at here
    have := stemBit_lt s d
    omega
  cases l with
  | nil =>
    cases r with
    | nil => trivial
    | stem q s slots => exact up (b := 1) hr (by omega)
    | node q a b => exact ⟨hd, hl, hr, trivial⟩
  | stem q s slots =>
    cases r with
    | nil => exact up (b := 0) hl (by omega)
    | stem q' s' slots' => exact ⟨hd, hl, hr, trivial⟩
    | node q' a b => exact ⟨hd, hl, hr, trivial⟩
  | node q a b => cases r <;> exact ⟨hd, hl, hr, trivial⟩

theorem placed_put {t : Tree} (h : t.Placed d p) (hs : s < 2 ^ stemBits) (hp : stemPrefix s d = p)
    (hu : UpdateOf s update) : (put v s update d t).Placed d p := by
  induction t generalizing d p with
  | nil => exact placed_leaf hs hp ((slotsOf_empty s).write hu)
  | stem u s' slots =>
    unfold put
    split_ifs with same clear
    · exact placed_leaf hs hp ((same ▸ h.2.2.2).write hu)
    · exact h
    · refine (placed_split (by omega) same ⟨h.1, h.2.1, h.2.2⟩ ⟨hs, hp, ?_,
        (slotsOf_empty s).write hu⟩).1
      rw [writeSlots_empty_isEmpty]
      simpa using clear
  | node u l r ihl ihr =>
    obtain ⟨hd, hl, hr, -⟩ := h
    have next := stemPrefix_succ s hd
    unfold put
    split_ifs with zero
    · exact placed_join hd (ihl hl (by omega)) hr
    · have one := stemBit_eq_one zero
      exact placed_join hd hl (ihr hr (by omega))

omit [TrieHash] in
theorem slotsAt_leaf (v s d s' : ℕ) (slots : Slots) :
    slotsAt s' d (leaf v s slots) = if s = s' then slots else .empty := by
  unfold leaf
  by_cases empty : slots.isEmpty = true
  · have blank : slots = .empty := ext_get? (SortedMap.isEmpty_iff.1 empty)
    rw [if_pos empty, blank, ite_self]
    rfl
  · rw [if_neg empty]
    rfl

omit [TrieHash] in
theorem slotsAt_split {a b : ℕ × Slots} {n : ℕ} (v s' : ℕ)
    (apart : ∃ e, d ≤ e ∧ e < d + n ∧ stemBit a.1 e ≠ stemBit b.1 e) :
    slotsAt s' d (split v a b n d) =
      if a.1 = s' then a.2 else if b.1 = s' then b.2 else .empty := by
  induction n generalizing d with
  | zero =>
    obtain ⟨e, low, high, -⟩ := apart
    omega
  | succ n ih =>
    unfold split
    by_cases same : stemBit a.1 d = stemBit b.1 d
    · have deeper : ∃ e, d + 1 ≤ e ∧ e < d + 1 + n ∧ stemBit a.1 e ≠ stemBit b.1 e := by
        obtain ⟨e, low, high, bits⟩ := apart
        have : e ≠ d := fun here => bits (here ▸ same)
        exact ⟨e, by omega, by omega, bits⟩
      have next := ih deeper
      by_cases zero : stemBit a.1 d = 0
      · simp only [same, if_true]
        rw [same] at zero
        rw [if_pos zero, slotsAt, next]
        grind [slotsAt]
      · simp only [same, if_true]
        rw [same] at zero
        rw [if_neg zero, slotsAt, next]
        grind [slotsAt]
    · simp only [same, if_false]
      have := stemBit_lt a.1 d
      have := stemBit_lt b.1 d
      split_ifs <;> simp only [slotsAt] <;> grind

theorem slotsAt_join {l r : Tree} (v s' : ℕ) (hd : d < stemBits) (hl : l.Placed (d + 1) (2 * p))
    (hr : r.Placed (d + 1) (2 * p + 1)) :
    slotsAt s' d (join v l r) =
      if stemBit s' d = 0 then slotsAt s' (d + 1) l else slotsAt s' (d + 1) r := by
  have bit {s q b : ℕ} {slots : Slots} (h : (stem q s slots).Placed (d + 1) (2 * p + b))
      (hb : b < 2) : stemBit s d = b := by
    have here := h.2.1
    rw [stemPrefix_succ _ hd] at here
    have := stemBit_lt s d
    omega
  cases l with
  | nil =>
    cases r with
    | nil => simp [join, slotsAt]
    | stem q s slots =>
      have one := bit (b := 1) hr (by omega)
      simp only [join, slotsAt]
      grind
    | node q a b => rfl
  | stem q s slots =>
    cases r with
    | nil =>
      have zero := bit (b := 0) hl (by omega)
      simp only [join, slotsAt]
      grind
    | stem q' s' slots' => rfl
    | node q' a b => rfl
  | node q a b => cases r <;> rfl

omit [TrieHash] in
theorem differ_below {a b : ℕ} (ha : stemPrefix a d = p) (hb : stemPrefix b d = p) (differ : a ≠ b)
    (hd : d ≤ stemBits) : ∃ e, d ≤ e ∧ e < d + (stemBits - d) ∧ stemBit a e ≠ stemBit b e := by
  by_contra no
  push Not at no
  have same (n : ℕ) (hn : d + n ≤ stemBits) : stemPrefix a (d + n) = stemPrefix b (d + n) := by
    induction n with
    | zero => exact ha.trans hb.symm
    | succ n ih =>
      rw [← Nat.add_assoc, stemPrefix_succ a (by omega), stemPrefix_succ b (by omega),
        ih (by omega), no (d + n) (by omega) (by omega)]
  have full := same (stemBits - d) (by omega)
  rw [Nat.add_sub_cancel' hd, stemPrefix_full, stemPrefix_full] at full
  exact differ full

theorem slotsAt_put {t : Tree} (s' : ℕ) (h : t.Placed d p) (hd : d ≤ stemBits)
    (hs : s < 2 ^ stemBits) (hp : stemPrefix s d = p) (hu : UpdateOf s update) :
    slotsAt s' d (put v s update d t) =
      if s = s' then writeSlots v (slotsAt s d t) update else slotsAt s' d t := by
  induction t generalizing d p with
  | nil =>
    rw [put, slotsAt_leaf]
    rfl
  | stem u s₀ slots =>
    unfold put
    by_cases same : s₀ = s
    · rw [if_pos same, slotsAt_leaf]
      simp only [slotsAt, same, if_true]
      grind
    · rw [if_neg same]
      have absent : slotsAt s d (stem u s₀ slots) = .empty := by simp [slotsAt, same]
      rw [absent]
      by_cases clear : update.values.all isNone = true
      · rw [if_pos clear]
        have still : writeSlots v .empty update = .empty := by
          refine ext_get? (fun k => ?_)
          rw [SortedMap.isEmpty_iff.1 ((writeSlots_empty_isEmpty v update).trans clear)]
          rfl
        rw [still]
        simp only [slotsAt]
        grind
      · rw [if_neg clear, slotsAt_split v s' (differ_below h.2.1 hp same hd)]
        simp only [slotsAt]
        grind
  | node u l r ihl ihr =>
    obtain ⟨deep, hl, hr, -⟩ := h
    have next := stemPrefix_succ s deep
    unfold put
    by_cases zero : stemBit s d = 0
    · have hl' := placed_put (v := v) hl hs (by omega) hu
      rw [if_pos zero, slotsAt_join v s' deep hl' hr, ihl hl deep (by omega)]
      simp only [slotsAt, zero, if_true]
      grind
    · have one := stemBit_eq_one zero
      have hr' := placed_put (v := v) hr hs (by omega) hu
      rw [if_neg zero, slotsAt_join v s' deep hl hr', ihr hr deep (by omega)]
      simp only [slotsAt, zero, if_false]
      grind

end Tree

end Tenzro.StateTrie
