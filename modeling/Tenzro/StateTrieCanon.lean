import Tenzro.StateTrieTree

set_option autoImplicit false
set_option linter.dupNamespace false

/-!
# The root as a function of the entries

The trie's hashes bottom-up, and the root computed from scratch out of a list of entries.
A tree whose stems are placed right hashes to the root of the entries it holds, and entries
with one root are the same.
-/
namespace Tenzro.StateTrie
open List SortedMap

/-- A reference to a child node. -/
structure NodeRef where
  version : ℕ
  hash : Digest
  isStem : Bool
deriving DecidableEq, Repr

variable [TrieHash]

def leafSlots (scheme : HashScheme) (slots : Slots) : SortedMap ℕ Digest :=
  slots.map (fun e => leafHash scheme e.1.value)

namespace Tree

def subtree (scheme : HashScheme) : Tree → Subtree
  | nil => .empty
  | stem _ s slots => .single (stemHash scheme s (slotsRoot scheme (leafSlots scheme slots)))
  | node _ l r => .multi (internalHash scheme (l.subtree scheme).hash (r.subtree scheme).hash)

def hash (scheme : HashScheme) (t : Tree) : Digest := (t.subtree scheme).hash

def ref (scheme : HashScheme) : Tree → Option NodeRef
  | nil => none
  | stem v s slots => some ⟨v, (stem v s slots).hash scheme, true⟩
  | node v l r => some ⟨v, (node v l r).hash scheme, false⟩

/-- The stems with their slots roots. -/
def summary (scheme : HashScheme) (t : Tree) : List (ℕ × Digest) :=
  t.stems.map (fun e => (e.1, slotsRoot scheme (leafSlots scheme e.2)))

end Tree

def enterSlot (scheme : HashScheme) (stems : SortedMap ℕ (SortedMap ℕ Digest)) (e : Entry) :
    SortedMap ℕ (SortedMap ℕ Digest) :=
  stems.insert e.path.1 ((stems.getD e.path.1 .empty).insert e.path.2 (leafHash scheme e.value))

def slotsByStem (scheme : HashScheme) (entries : List Entry) : SortedMap ℕ (SortedMap ℕ Digest) :=
  entries.foldl (enterSlot scheme) .empty

def stemsOf (scheme : HashScheme) (entries : List Entry) : List (ℕ × Digest) :=
  (slotsByStem scheme entries).entries.map (fun e => (e.1, slotsRoot scheme e.2))

def rootOfEntries (scheme : HashScheme) (entries : List Entry) : Digest :=
  (buildSubtree scheme stemBits 0 (stemsOf scheme entries)).hash

section Build
variable {scheme : HashScheme} {d p : ℕ}

/-- Stems in order, all under the path `p` of `d` bits. -/
structure Under (d p : ℕ) (stems : List ℕ) : Prop where
  sorted : stems.Pairwise (· < ·)
  prefixed : ∀ s ∈ stems, s < 2 ^ stemBits ∧ stemPrefix s d = p

omit [TrieHash] in
theorem Under.sublist {a b : List ℕ} (h : Under d p b) (sub : a.Sublist b) : Under d p a :=
  ⟨h.sorted.sublist sub, fun s hs => h.prefixed s (sub.subset hs)⟩

omit [TrieHash] in
theorem Under.append {a b : List ℕ} (hd : d < stemBits) (ha : Under (d + 1) (2 * p) a)
    (hb : Under (d + 1) (2 * p + 1) b) : Under d p (a ++ b) := by
  have up {s q : ℕ} (h : stemPrefix s (d + 1) = 2 * p + q) (hq : q < 2) : stemPrefix s d = p := by
    rw [stemPrefix_succ _ hd] at h
    have := stemBit_lt s d
    omega
  constructor
  · refine pairwise_append.2 ⟨ha.sorted, hb.sorted, ?_⟩
    intro x hx y hy
    refine @lt_of_stemPrefix_lt _ _ (d + 1) ?_
    rw [(ha.prefixed x hx).2, (hb.prefixed y hy).2]
    omega
  · intro s hs
    cases mem_append.1 hs with
    | inl h => exact ⟨(ha.prefixed s h).1, up (q := 0) (ha.prefixed s h).2 (by omega)⟩
    | inr h => exact ⟨(hb.prefixed s h).1, up (hb.prefixed s h).2 (by omega)⟩

omit [TrieHash] in
theorem Under.bit {stems : List ℕ} {b : ℕ} (hd : d < stemBits) (hb : b < 2)
    (h : Under (d + 1) (2 * p + b) stems) : ∀ s ∈ stems, stemBit s d = b := by
  intro s hs
  have here := (h.prefixed s hs).2
  rw [stemPrefix_succ _ hd] at here
  have := stemBit_lt s d
  omega

omit [TrieHash] in
theorem Under.halves {α : Type} {stems : List (ℕ × α)} (hd : d < stemBits)
    (h : Under d p (stems.map Prod.fst)) : ∃ a b, stems = a ++ b ∧
      Under (d + 1) (2 * p) (a.map Prod.fst) ∧ Under (d + 1) (2 * p + 1) (b.map Prod.fst) := by
  induction stems with
  | nil => exact ⟨[], [], rfl, ⟨List.Pairwise.nil, by simp⟩, ⟨List.Pairwise.nil, by simp⟩⟩
  | cons x stems ih =>
    have first := h.prefixed x.1 (by simp)
    have next := stemPrefix_succ x.1 hd
    have tail : Under d p (stems.map Prod.fst) := h.sublist (sublist_cons_self _ _)
    have after := (pairwise_cons.1 h.sorted).1
    by_cases zero : stemBit x.1 d = 0
    · obtain ⟨a, b, rfl, ha, hb⟩ := ih tail
      refine ⟨x :: a, b, rfl, ⟨?_, ?_⟩, hb⟩
      · refine pairwise_cons.2 ⟨?_, ha.sorted⟩
        intro y hy
        refine after y ?_
        simp only [map_append, mem_append]
        exact .inl hy
      · intro s hs
        cases mem_cons.1 hs with
        | inl here =>
          subst here
          exact ⟨first.1, by omega⟩
        | inr later => exact ha.prefixed s later
    · have one := stemBit_eq_one zero
      refine ⟨[], x :: stems, rfl, ⟨List.Pairwise.nil, by simp⟩, h.sorted, ?_⟩
      intro s hs
      have here := h.prefixed s hs
      refine ⟨here.1, ?_⟩
      have below : x.1 ≤ s := by
        cases mem_cons.1 hs with
        | inl same => exact same.ge
        | inr later => exact (after s later).le
      have mono := stemPrefix_mono below (d + 1)
      have step := stemPrefix_succ s hd
      have := stemBit_lt s d
      omega

omit [TrieHash] in
theorem Under.length_le {stems : List ℕ} (hd : stemBits ≤ d) (h : Under d p stems) :
    stems.length ≤ 1 := by
  match stems, h with
  | [], _ => simp
  | [_], _ => simp
  | a :: b :: rest, h =>
    have full (x : ℕ) : stemPrefix x d = x := by
      have : stemBits - d = 0 := by omega
      simp [stemPrefix, this]
    have ha := (h.prefixed a (by simp)).2
    have hb := (h.prefixed b (by simp)).2
    have := (pairwise_cons.1 h.sorted).1 b (by simp)
    rw [full] at ha hb
    omega

@[simp] theorem buildSubtree_nil (n d : ℕ) : buildSubtree scheme n d [] = .empty := by
  cases n <;> rfl

@[simp] theorem buildSubtree_singleton (n d : ℕ) (x : ℕ × Digest) :
    buildSubtree scheme n d [x] = .single (stemHash scheme x.1 x.2) := by
  cases n <;> rfl

theorem buildSubtree_append {n : ℕ} {a b : List (ℕ × Digest)} (hd : d < stemBits)
    (ha : Under (d + 1) (2 * p) (a.map Prod.fst))
    (hb : Under (d + 1) (2 * p + 1) (b.map Prod.fst)) :
    buildSubtree scheme (n + 1) d (a ++ b) =
      combine scheme (buildSubtree scheme n (d + 1) a) (buildSubtree scheme n (d + 1) b) := by
  have zeros : ∀ x ∈ a, decide (stemBit x.1 d = 0) = true := by
    intro x hx
    exact decide_eq_true (ha.bit (b := 0) hd (by omega) x.1 (mem_map_of_mem hx))
  have ones : b.takeWhile (fun x => decide (stemBit x.1 d = 0)) = [] := by
    cases b with
    | nil => rfl
    | cons y b =>
      have := hb.bit hd (by omega) y.1 (by simp)
      simp [this]
  have left : (a ++ b).takeWhile (fun x => decide (stemBit x.1 d = 0)) = a := by
    rw [takeWhile_append_of_pos zeros, ones, append_nil]
  have right : (a ++ b).dropWhile (fun x => decide (stemBit x.1 d = 0)) = b := by
    have both := takeWhile_append_dropWhile (p := fun x => decide (stemBit x.1 d = 0))
      (l := a ++ b)
    rw [left] at both
    exact append_cancel_left both
  match hl : a ++ b with
  | [] =>
    obtain ⟨rfl, rfl⟩ := append_eq_nil_iff.1 hl
    simp only [buildSubtree_nil]
    rfl
  | [x] =>
    rcases append_eq_singleton_iff.1 hl with ⟨rfl, rfl⟩ | ⟨rfl, rfl⟩
    · simp only [buildSubtree_nil, buildSubtree_singleton]
      rfl
    · simp only [buildSubtree_nil, buildSubtree_singleton]
      rfl
  | x :: y :: rest =>
    have unfolded : buildSubtree scheme (n + 1) d (x :: y :: rest) =
        combine scheme
          (buildSubtree scheme n (d + 1)
            ((x :: y :: rest).takeWhile (fun s => decide (stemBit s.1 d = 0))))
          (buildSubtree scheme n (d + 1)
            ((x :: y :: rest).dropWhile (fun s => decide (stemBit s.1 d = 0)))) := rfl
    rw [unfolded, ← hl, left, right]

theorem buildSubtree_many {n : ℕ} {stems : List (ℕ × Digest)} (room : stemBits ≤ d + n)
    (h : Under d p (stems.map Prod.fst)) (many : 2 ≤ stems.length) :
    ∃ m a b, n = m + 1 ∧ d < stemBits ∧ stems = a ++ b ∧
      Under (d + 1) (2 * p) (a.map Prod.fst) ∧ Under (d + 1) (2 * p + 1) (b.map Prod.fst) ∧
      buildSubtree scheme n d stems = .multi (internalHash scheme
        (buildSubtree scheme m (d + 1) a).hash (buildSubtree scheme m (d + 1) b).hash) := by
  induction n generalizing d p stems with
  | zero =>
    have few := h.length_le (by omega)
    rw [length_map] at few
    omega
  | succ n ih =>
    have hd : d < stemBits := by
      by_contra deep
      have few := h.length_le (by omega)
      rw [length_map] at few
      omega
    obtain ⟨a, b, rfl, ha, hb⟩ := h.halves hd
    refine ⟨n, a, b, rfl, hd, rfl, ha, hb, ?_⟩
    rw [buildSubtree_append hd ha hb]
    rw [length_append] at many
    match a, b with
    | [], [] => simp at many
    | [], [_] => simp at many
    | [_], [] => simp at many
    | [_], [_] => simp [combine]
    | [], x :: y :: rest =>
      obtain ⟨m, a', b', -, -, -, -, -, shape⟩ := ih (by omega) hb (by simp)
      rw [shape, buildSubtree_nil]
      rfl
    | x :: y :: rest, [] =>
      obtain ⟨m, a', b', -, -, -, -, -, shape⟩ := ih (by omega) ha (by simp)
      rw [shape, buildSubtree_nil]
      rfl
    | [z], x :: y :: rest =>
      obtain ⟨m, a', b', -, -, -, -, -, shape⟩ := ih (by omega) hb (by simp)
      rw [shape, buildSubtree_singleton]
      rfl
    | x :: y :: rest, z :: rest' =>
      obtain ⟨m, a', b', -, -, -, -, -, shape⟩ := ih (by omega) ha (by simp)
      rw [shape]
      rfl

theorem Ideal.short_eq (ideal : Ideal scheme) {n : ℕ} {a b : List (ℕ × Digest)}
    (room : stemBits ≤ d + n) (hb : Under d p (b.map Prod.fst)) (short : a.length < 2)
    (h : (buildSubtree scheme n d a).hash = (buildSubtree scheme n d b).hash) : a = b := by
  match a, b with
  | [], [] => rfl
  | [], [x] =>
    rw [buildSubtree_nil, buildSubtree_singleton] at h
    exact absurd h.symm (ideal.nonempty _)
  | [x], [] =>
    rw [buildSubtree_nil, buildSubtree_singleton] at h
    exact absurd h (ideal.nonempty _)
  | [x], [y] =>
    simp only [buildSubtree_singleton] at h
    have same := ideal.injective h
    simp only [Preimage.stem.injEq] at same
    rw [Prod.ext same.1 same.2]
  | [], y :: z :: rest =>
    obtain ⟨m, a', b', -, -, -, -, -, shape⟩ := @buildSubtree_many _ scheme _ _ _ _ room hb (by simp)
    rw [shape, buildSubtree_nil] at h
    exact absurd h.symm (ideal.nonempty _)
  | [x], y :: z :: rest =>
    obtain ⟨m, a', b', -, -, -, -, -, shape⟩ := @buildSubtree_many _ scheme _ _ _ _ room hb (by simp)
    rw [shape, buildSubtree_singleton] at h
    have same := ideal.injective h
    simp at same
  | _ :: _ :: _, _ =>
    simp only [length_cons] at short
    omega

theorem Ideal.buildSubtree_injective (ideal : Ideal scheme) {n : ℕ} {a b : List (ℕ × Digest)}
    (room : stemBits ≤ d + n) (ha : Under d p (a.map Prod.fst)) (hb : Under d p (b.map Prod.fst))
    (h : (buildSubtree scheme n d a).hash = (buildSubtree scheme n d b).hash) : a = b := by
  induction n generalizing d p a b with
  | zero =>
    have few := ha.length_le (by omega)
    rw [length_map] at few
    exact ideal.short_eq room hb (by omega) h
  | succ n ih =>
    by_cases shorta : a.length < 2
    · exact ideal.short_eq room hb shorta h
    by_cases shortb : b.length < 2
    · exact (ideal.short_eq room ha shortb h.symm).symm
    obtain ⟨m, a₀, a₁, hm, -, rfl, ha₀, ha₁, shape⟩ :=
      @buildSubtree_many _ scheme _ _ _ _ room ha (not_lt.1 shorta)
    obtain ⟨m', b₀, b₁, hm', -, rfl, hb₀, hb₁, shape'⟩ :=
      @buildSubtree_many _ scheme _ _ _ _ room hb (not_lt.1 shortb)
    obtain rfl : n = m := by omega
    obtain rfl : n = m' := by omega
    rw [shape, shape'] at h
    have same := ideal.injective h
    simp only [Preimage.internal.injEq] at same
    rw [ih (by omega) ha₀ hb₀ same.1, ih (by omega) ha₁ hb₁ same.2]

end Build

namespace Tree
variable {scheme : HashScheme} {d p : ℕ}

theorem under_stems {t : Tree} (h : t.Placed d p) : Under d p (t.stems.map Prod.fst) := by
  induction t generalizing d p with
  | nil => exact ⟨List.Pairwise.nil, by simp [stems]⟩
  | stem v s slots =>
    refine ⟨pairwise_singleton _ _, ?_⟩
    intro x hx
    obtain rfl : x = s := by simpa [stems] using hx
    exact ⟨h.1, h.2.1⟩
  | node v l r ihl ihr =>
    obtain ⟨hd, hl, hr, -⟩ := h
    rw [stems, map_append]
    exact (ihl hl).append hd (ihr hr)

theorem buildSubtree_summary {t : Tree} {n : ℕ} (room : stemBits ≤ d + n) (h : t.Placed d p) :
    buildSubtree scheme n d (t.summary scheme) = t.subtree scheme := by
  induction t generalizing d p n with
  | nil => exact buildSubtree_nil n d
  | stem v s slots => exact buildSubtree_singleton n d _
  | node v l r ihl ihr =>
    obtain ⟨hd, hl, hr, thick⟩ := h
    obtain ⟨m, rfl⟩ : ∃ m, n = m + 1 := ⟨n - 1, by omega⟩
    have fsts (t : Tree) : (t.summary scheme).map Prod.fst = t.stems.map Prod.fst := by
      simp [summary]
    have both : (node v l r).summary scheme = l.summary scheme ++ r.summary scheme := by
      simp [summary, stems]
    rw [both, buildSubtree_append hd (by rw [fsts]; exact under_stems hl)
      (by rw [fsts]; exact under_stems hr), ihl (by omega) hl, ihr (by omega) hr]
    match l, r, thick with
    | nil, node .., _ => rfl
    | node .., nil, _ => rfl
    | stem .., stem .., _ => rfl
    | stem .., node .., _ => rfl
    | node .., stem .., _ => rfl
    | node .., node .., _ => rfl

theorem find_stems {t : Tree} (s : ℕ) (h : t.Placed d p) :
    (SortedMap.find t.stems s).getD .empty = slotsAt s d t ∧
      (∀ slots, SortedMap.find t.stems s = some slots → slots.isEmpty = false) := by
  induction t generalizing d p with
  | nil => exact ⟨rfl, by simp [stems, SortedMap.find]⟩
  | stem v s' slots =>
    simp only [stems, SortedMap.find, slotsAt]
    have filled := h.2.2.1
    by_cases same : s' = s
    · simp [same, filled]
    · simp [same, Ne.symm same]
  | node v l r ihl ihr =>
    obtain ⟨hd, hl, hr, -⟩ := h
    obtain ⟨lookl, filledl⟩ := ihl hl
    obtain ⟨lookr, filledr⟩ := ihr hr
    have appended : SortedMap.find (l.stems ++ r.stems) s =
        (SortedMap.find l.stems s).or (SortedMap.find r.stems s) := by
      generalize l.stems = a
      induction a with
      | nil => rfl
      | cons x a ih =>
        simp only [cons_append, SortedMap.find, ih]
        split_ifs <;> simp
    have absent {t : Tree} {b : ℕ} (ht : t.Placed (d + 1) (2 * p + b)) (hb : b < 2)
        (other : stemBit s d ≠ b) : SortedMap.find t.stems s = none := by
      refine find_eq_none.2 ?_
      intro e he same
      have := (under_stems ht).bit hd hb e.1 (mem_map_of_mem he)
      rw [same] at this
      exact other this
    rw [stems, appended, slotsAt]
    by_cases zero : stemBit s d = 0
    · rw [absent hr (by omega) (by omega), Option.or_none, if_pos zero]
      exact ⟨lookl, filledl⟩
    · rw [absent (b := 0) hl (by omega) zero, Option.none_or, if_neg zero]
      exact ⟨lookr, filledr⟩

end Tree

section Entries
variable {scheme : HashScheme}

theorem slotsByStem_get? {entries : List Entry} (nodup : (entries.map Entry.path).Nodup)
    (s i : ℕ) (h : Digest) : ((slotsByStem scheme entries).getD s .empty).get? i = some h ↔
      ∃ e ∈ entries, e.path = (s, i) ∧ leafHash scheme e.value = h := by
  have enter (m : SortedMap ℕ (SortedMap ℕ Digest)) (e : Entry) :
      ((enterSlot scheme m e).getD s .empty).get? i =
        if e.path = (s, i) then some (leafHash scheme e.value) else (m.getD s .empty).get? i := by
    unfold enterSlot
    rw [getD_insert]
    by_cases stem : s = e.path.1
    · rw [if_pos stem, get?_insert, ← stem]
      by_cases slot : i = e.path.2
      · simp [slot, stem]
      · have : e.path ≠ (s, i) := fun same => slot (by rw [same])
        simp [slot, this]
    · have : e.path ≠ (s, i) := fun same => stem (by rw [same])
      rw [if_neg stem, if_neg this]
  have fold (l : List Entry) (m : SortedMap ℕ (SortedMap ℕ Digest)) (nodup : (l.map Entry.path).Nodup) :
      ((l.foldl (enterSlot scheme) m).getD s .empty).get? i = some h ↔
        (∃ e ∈ l, e.path = (s, i) ∧ leafHash scheme e.value = h) ∨
          ((∀ e ∈ l, e.path ≠ (s, i)) ∧ (m.getD s .empty).get? i = some h) := by
    induction l generalizing m with
    | nil => simp
    | cons e l ih =>
      rw [map_cons, nodup_cons] at nodup
      rw [foldl_cons, ih _ nodup.2, enter]
      by_cases here : e.path = (s, i)
      · have later : ∀ e' ∈ l, e'.path ≠ (s, i) := by
          intro e' he' same
          exact nodup.1 (mem_map.2 ⟨e', he', by rw [same, here]⟩)
        have none : ¬ ∃ e' ∈ l, e'.path = (s, i) ∧ leafHash scheme e'.value = h := by
          rintro ⟨e', he', same, -⟩
          exact later e' he' same
        simp only [here, if_true, none, false_or, mem_cons, Option.some.injEq]
        grind
      · simp only [here, if_false, mem_cons]
        grind
  have run := fold entries .empty nodup
  simpa [slotsByStem, SortedMap.getD] using run

theorem slotsByStem_filled (entries : List Entry) (s : ℕ) {slots : SortedMap ℕ Digest}
    (h : (slotsByStem scheme entries).get? s = some slots) : slots.isEmpty = false := by
  have fold (l : List Entry) (m : SortedMap ℕ (SortedMap ℕ Digest))
      (hm : ∀ s slots, m.get? s = some slots → slots.isEmpty = false) :
      ∀ s slots, (l.foldl (enterSlot scheme) m).get? s = some slots → slots.isEmpty = false := by
    induction l generalizing m with
    | nil => exact hm
    | cons e l ih =>
      refine ih _ ?_
      intro s slots hs
      unfold enterSlot at hs
      rw [get?_insert] at hs
      split_ifs at hs with here
      · cases hs
        refine Bool.eq_false_iff.2 (fun empty => ?_)
        have := SortedMap.isEmpty_iff.1 empty e.path.2
        simp at this
      · exact hm s slots hs
  exact fold entries .empty (by simp) s slots h

theorem mem_slotsByStem_keys {entries : List Entry} {s : ℕ} {slots : SortedMap ℕ Digest}
    (nodup : (entries.map Entry.path).Nodup) (h : (slotsByStem scheme entries).get? s = some slots) :
    ∃ e ∈ entries, e.path.1 = s := by
  have filled := slotsByStem_filled entries s h
  by_contra no
  refine absurd (SortedMap.isEmpty_iff.2 ?_) (Bool.eq_false_iff.1 filled)
  intro i
  refine Option.eq_none_iff_forall_ne_some.2 ?_
  intro x hx
  have here : ((slotsByStem scheme entries).getD s .empty).get? i = some x := by
    rw [SortedMap.getD, h]
    exact hx
  obtain ⟨e, he, path, -⟩ := (slotsByStem_get? nodup s i x).1 here
  exact no ⟨e, he, by rw [path]⟩

theorem under_stemsOf {entries : List Entry} (nodup : (entries.map Entry.path).Nodup) :
    Under 0 0 ((stemsOf scheme entries).map Prod.fst) := by
  have fsts : (stemsOf scheme entries).map Prod.fst = (slotsByStem scheme entries).keys := by
    simp [stemsOf, SortedMap.keys]
  rw [fsts]
  refine ⟨keys_sorted _, ?_⟩
  intro s hs
  obtain ⟨slots, found⟩ := mem_keys.1 hs
  obtain ⟨e, -, rfl⟩ := mem_slotsByStem_keys nodup found
  have bound := (pathOf_lt e.ns e.key).1
  exact ⟨bound, stemPrefix_zero bound⟩

theorem slotsByStem_congr {a b : List Entry} (ha : (a.map Entry.path).Nodup)
    (hb : (b.map Entry.path).Nodup) (same : ∀ e, e ∈ a ↔ e ∈ b) :
    slotsByStem scheme a = slotsByStem scheme b := by
  refine ext_getD_empty (fun s _ => slotsByStem_filled a s)
    (fun s _ => slotsByStem_filled b s) ?_
  intro s
  refine ext_get? (fun i => Option.ext (fun x => ?_))
  rw [slotsByStem_get? ha, slotsByStem_get? hb]
  simp only [same]

theorem stemsOf_congr {a b : List Entry} (ha : (a.map Entry.path).Nodup)
    (hb : (b.map Entry.path).Nodup) (same : ∀ e, e ∈ a ↔ e ∈ b) :
    stemsOf scheme a = stemsOf scheme b := by
  unfold stemsOf
  rw [slotsByStem_congr ha hb same]

theorem stemsOf_filter {entries : List Entry} (nodup : (entries.map Entry.path).Nodup)
    (q : ℕ → Bool) : stemsOf scheme (entries.filter (fun e => q e.path.1)) =
      (stemsOf scheme entries).filter (fun s => q s.1) := by
  have part : ((entries.filter (fun e => q e.path.1)).map Entry.path).Nodup :=
    nodup.sublist (filter_sublist.map _)
  have maps : slotsByStem scheme (entries.filter (fun e => q e.path.1)) =
      (slotsByStem scheme entries).filter (fun s _ => q s) := by
    refine ext_getD_empty (fun s _ => slotsByStem_filled _ s) ?_ ?_
    · intro s slots found
      exact slotsByStem_filled entries s (get?_filter_eq_some.1 found).1
    · intro s
      refine ext_get? (fun i => Option.ext (fun x => ?_))
      rw [slotsByStem_get? part, SortedMap.getD, get?_filter]
      by_cases hs : q s = true
      · have all := @slotsByStem_get? _ scheme _ nodup s i x
        have whole : ((slotsByStem scheme entries).get? s).filter (fun _ => q s) =
            (slotsByStem scheme entries).get? s := by
          cases (slotsByStem scheme entries).get? s <;> simp [hs]
        rw [whole]
        refine Iff.trans ?_ all.symm
        constructor
        · rintro ⟨e, he, path, value⟩
          exact ⟨e, (mem_filter.1 he).1, path, value⟩
        · rintro ⟨e, he, path, value⟩
          exact ⟨e, mem_filter.2 ⟨he, by rw [path]; exact hs⟩, path, value⟩
      · have none : ((slotsByStem scheme entries).get? s).filter (fun _ => q s) = none := by
          simp [hs]
        rw [none]
        constructor
        · rintro ⟨e, he, path, -⟩
          have := (mem_filter.1 he).2
          rw [path] at this
          exact absurd this hs
        · intro no
          simp at no
  unfold stemsOf
  rw [maps, SortedMap.filter, filter_map]
  rfl

theorem Ideal.slotsRoot_injective (ideal : Ideal scheme) {a b : SortedMap ℕ Digest}
    (h : slotsRoot scheme a = slotsRoot scheme b) {i : ℕ} (hi : i < slotCount) :
    a.getD i emptyHash = b.getD i emptyHash := by
  have same : slotLevel a = slotLevel b := by
    refine PairFold.reduce_injective ideal.slotPair_injective (length_slotLevel _)
      (length_slotLevel _) ?_
    rw [reduce_slotLevel, reduce_slotLevel, h]
  have here := congrArg (fun l => l[i]?) same
  simpa only [getElem?_slotLevel _ hi, Option.some.injEq] using here

theorem Ideal.same_slots (ideal : Ideal scheme) {a b : List Entry}
    (ha : (a.map Entry.path).Nodup) (hb : (b.map Entry.path).Nodup)
    (h : stemsOf scheme a = stemsOf scheme b) {e : Entry} (he : e ∈ a) :
    ∃ e' ∈ b, e'.path = e.path ∧ e'.value = e.value := by
  rcases hpath : e.path with ⟨stem, slot⟩
  have bound : slot < slotCount := by
    have := (pathOf_lt e.ns e.key).2
    change e.path.2 < slotCount at this
    rwa [hpath] at this
  have here := (@slotsByStem_get? _ scheme _ ha stem slot _).2 ⟨e, he, hpath, rfl⟩
  cases found : (slotsByStem scheme a).get? stem with
  | none =>
    rw [SortedMap.getD, found] at here
    simp at here
  | some slots =>
    rw [SortedMap.getD, found, Option.getD_some] at here
    have listed : (stem, slotsRoot scheme slots) ∈ stemsOf scheme b := by
      rw [← h]
      exact mem_map.2 ⟨(stem, slots), mem_entries.2 found, rfl⟩
    obtain ⟨⟨stem', slots'⟩, there, same⟩ := mem_map.1 listed
    simp only [Prod.mk.injEq] at same
    obtain ⟨rfl, roots⟩ := same
    have agree := ideal.slotsRoot_injective roots bound
    have there := mem_entries.1 there
    rw [SortedMap.getD, SortedMap.getD, here, Option.getD_some] at agree
    cases slot' : slots'.get? slot with
    | none =>
      rw [slot'] at agree
      exact absurd agree.symm (ideal.nonempty _)
    | some x =>
      rw [slot', Option.getD_some] at agree
      have other : ((slotsByStem scheme b).getD stem' .empty).get? slot = some x := by
        rw [SortedMap.getD, there]
        exact slot'
      obtain ⟨e', he', path, value⟩ := (slotsByStem_get? hb stem' slot x).1 other
      refine ⟨e', he', path, ?_⟩
      have same := ideal.injective (value.trans agree)
      simpa using same

end Entries

namespace Tree
variable {scheme : HashScheme} {t : Tree}

def Holds (t : Tree) (e : Entry) : Prop :=
  ∃ w, (slotsAt e.path.1 0 t).get? e.path.2 = some (e, w)

theorem slotsOf_slotsAt {d p : ℕ} {t : Tree} (s : ℕ) (h : t.Placed d p) : SlotsOf s (slotsAt s d t) := by
  induction t generalizing d p with
  | nil => exact slotsOf_empty s
  | stem v s' slots =>
    rw [slotsAt]
    split_ifs with same
    · exact same ▸ h.2.2.2
    · exact slotsOf_empty s
  | node v l r ihl ihr =>
    rw [slotsAt]
    split_ifs
    · exact ihl h.2.1
    · exact ihr h.2.2.1

theorem Holds.unique {a b : Entry} (ha : t.Holds a) (hb : t.Holds b) (same : a.path = b.path) :
    a = b := by
  obtain ⟨w, hw⟩ := ha
  obtain ⟨w', hw'⟩ := hb
  rw [same, hw'] at hw
  simpa using (congrArg (Option.map Prod.fst) hw).symm

theorem nodup_paths {entries : List Entry} (nodup : entries.Nodup)
    (held : ∀ e ∈ entries, t.Holds e) : (entries.map Entry.path).Nodup := by
  refine Nodup.map_on ?_ nodup
  intro a ha b hb same
  exact (held a ha).unique (held b hb) same

theorem summary_eq_stemsOf {entries : List Entry} (h : t.Placed 0 0) (nodup : entries.Nodup)
    (held : ∀ e, e ∈ entries ↔ t.Holds e) : t.summary scheme = stemsOf scheme entries := by
  have paths := nodup_paths nodup (fun e he => (held e).1 he)
  have sorted : (t.stems.map (fun e => (e.1, leafSlots scheme e.2))).Pairwise
      (fun a b => a.1 < b.1) := by
    have sorted := (under_stems h).sorted
    rw [pairwise_map] at sorted ⊢
    exact sorted
  have found (s : ℕ) : (mk _ sorted).get? s =
      (SortedMap.find t.stems s).map (leafSlots scheme) := by
    change SortedMap.find (t.stems.map (fun e => (e.1, leafSlots scheme e.2))) s = _
    generalize t.stems = l
    induction l with
    | nil => rfl
    | cons x l ih =>
      simp only [map_cons, SortedMap.find, ih]
      split_ifs <;> rfl
  have same : mk _ sorted = slotsByStem scheme entries := by
    refine ext_getD_empty ?_ (fun s _ => slotsByStem_filled entries s) ?_
    · intro s m hm
      rw [found] at hm
      obtain ⟨slots, hslots, rfl⟩ := Option.map_eq_some_iff.1 hm
      have filled := (find_stems s h).2 slots hslots
      refine Bool.eq_false_iff.2 (fun empty => Bool.eq_false_iff.1 filled ?_)
      refine SortedMap.isEmpty_iff.2 (fun i => ?_)
      have := SortedMap.isEmpty_iff.1 empty i
      simpa [leafSlots] using this
    · intro s
      have look : (mk _ sorted).getD s .empty = leafSlots scheme (slotsAt s 0 t) := by
        rw [SortedMap.getD, found, ← (find_stems s h).1]
        cases SortedMap.find t.stems s <;> rfl
      rw [look]
      refine ext_get? (fun i => Option.ext (fun x => ?_))
      rw [slotsByStem_get? paths, leafSlots, get?_map]
      constructor
      · intro hx
        obtain ⟨⟨e, w⟩, at', rfl⟩ := Option.map_eq_some_iff.1 hx
        have path := slotsOf_slotsAt s h i _ at'
        refine ⟨e, (held e).2 ⟨w, ?_⟩, path, rfl⟩
        simp only [path]
        exact at'
      · rintro ⟨e, he, path, rfl⟩
        obtain ⟨w, hw⟩ := (held e).1 he
        rw [path] at hw
        simp [hw]
  rw [stemsOf, ← same, summary, map_map]
  rfl

theorem hash_eq_rootOfEntries {entries : List Entry} (h : t.Placed 0 0) (nodup : entries.Nodup)
    (held : ∀ e, e ∈ entries ↔ t.Holds e) : t.hash scheme = rootOfEntries scheme entries := by
  rw [rootOfEntries, ← summary_eq_stemsOf h nodup held, buildSubtree_summary (by omega) h]
  rfl

end Tree

end Tenzro.StateTrie
