import Tenzro.StateTrieStore

set_option autoImplicit false
set_option linter.dupNamespace false

/-!
# Putting a stem moves the live records of the tree

The recursion over the store follows the one over the tree: from a batch that holds the
tree's records it succeeds, returns the reference of the new tree, and leaves a batch that
holds the new tree's records.
-/
namespace Tenzro.StateTrie
open Function Option SortedMap
variable [TrieHash]

def storedSlots (scheme : HashScheme) (slots : Slots) : SortedMap ℕ (Digest × ℕ) :=
  slots.map (fun e => (leafHash scheme e.1.value, e.2))

def slotRecords (s : ℕ) (slots : Slots) : Live
  | .node .. => none
  | .value tk w =>
    if (splitTreeKey tk).1 = s then
      ((slots.get? (splitTreeKey tk).2).filter (fun e => e.2 = w)).map (fun e => .entry e.1)
    else none

def Tree.live (scheme : HashScheme) : ℕ → ℕ → Tree → Live
  | _, _, .nil, _ => none
  | d, p, .stem v s slots, k =>
    if k = .node v d p then some (.node (.stem s (storedSlots scheme slots)))
    else slotRecords s slots k
  | d, p, .node v l r, k =>
    if k = .node v d p then some (.node (.internal (l.ref scheme) (r.ref scheme)))
    else (live scheme (d + 1) (2 * p) l k).or (live scheme (d + 1) (2 * p + 1) r k)

/-- The records of two siblings. -/
def pairLive (scheme : HashScheme) (d p : ℕ) (l r : Tree) : Live := fun k =>
  (l.live scheme (d + 1) (2 * p) k).or (r.live scheme (d + 1) (2 * p + 1) k)

def Region (d p : ℕ) : Set DataKey := fun k =>
  match k with
  | .node _ e q => d ≤ e ∧ q / 2 ^ (e - d) = p
  | .value tk _ => stemPrefix (splitTreeKey tk).1 d = p

section Region
omit [TrieHash]
variable {d p : ℕ}

theorem region_here (v d p : ℕ) : DataKey.node v d p ∈ Region d p := by
  simp [Region, Membership.mem, Set.Mem]

theorem region_value {tk : ℕ} (w : ℕ) (h : stemPrefix (splitTreeKey tk).1 d = p) :
    DataKey.value tk w ∈ Region d p := h

theorem region_child {b : ℕ} (hd : d < stemBits) (hb : b < 2) :
    Region (d + 1) (2 * p + b) ⊆ Region d p := by
  intro k hk
  cases k with
  | node u e q =>
    obtain ⟨deep, path⟩ : d + 1 ≤ e ∧ q / 2 ^ (e - (d + 1)) = 2 * p + b := hk
    refine ⟨by omega, ?_⟩
    have : e - d = e - (d + 1) + 1 := by omega
    rw [this, pow_succ, ← Nat.div_div_eq_div_mul, path]
    omega
  | value tk w =>
    have path : stemPrefix (splitTreeKey tk).1 (d + 1) = 2 * p + b := hk
    rw [stemPrefix_succ _ hd] at path
    have := stemBit_lt (splitTreeKey tk).1 d
    change stemPrefix (splitTreeKey tk).1 d = p
    omega

theorem region_apart {b c : ℕ} (differ : b ≠ c) {k : DataKey} (hk : k ∈ Region (d + 1) (2 * p + b)) :
    k ∉ Region (d + 1) (2 * p + c) := by
  intro hk'
  cases k with
  | node u e q =>
    have first : q / 2 ^ (e - (d + 1)) = 2 * p + b := hk.2
    have second : q / 2 ^ (e - (d + 1)) = 2 * p + c := hk'.2
    omega
  | value tk w =>
    have first : stemPrefix (splitTreeKey tk).1 (d + 1) = 2 * p + b := hk
    have second : stemPrefix (splitTreeKey tk).1 (d + 1) = 2 * p + c := hk'
    omega

theorem node_not_below (v d p q : ℕ) : DataKey.node v d p ∉ Region (d + 1) q := by
  intro h
  have : d + 1 ≤ d := h.1
  omega

end Region

section Live
variable {scheme : HashScheme} {d p : ℕ}

omit [TrieHash] in
theorem slotRecords_region {s : ℕ} {slots : Slots} {k : DataKey} (h : slotRecords s slots k ≠ none) :
    k ∈ Region d (stemPrefix s d) := by
  cases k with
  | node u e q => simp [slotRecords] at h
  | value tk w =>
    simp only [slotRecords] at h
    split_ifs at h with stem
    · exact region_value w (by rw [stem])
    · exact absurd rfl h

theorem live_region {t : Tree} (h : t.Placed d p) {k : DataKey} (live : t.live scheme d p k ≠ none) :
    k ∈ Region d p := by
  induction t generalizing d p with
  | nil => exact absurd rfl live
  | stem v s slots =>
    unfold Tree.live at live
    split_ifs at live with here
    · rw [here]
      exact region_here v d p
    · rw [← h.2.1]
      exact slotRecords_region live
  | node v l r ihl ihr =>
    obtain ⟨hd, hl, hr, -⟩ := h
    unfold Tree.live at live
    split_ifs at live with here
    · rw [here]
      exact region_here v d p
    · cases left : l.live scheme (d + 1) (2 * p) k with
      | some x =>
        have inside := ihl hl (by rw [left]; simp)
        exact region_child (b := 0) hd (by omega) inside
      | none =>
        rw [left, none_or] at live
        exact region_child hd (by omega) (ihr hr live)

theorem live_outside {t : Tree} (h : t.Placed d p) {k : DataKey} (out : k ∉ Region d p) :
    t.live scheme d p k = none := by
  by_contra live
  exact out (live_region h live)

theorem pairLive_left {l r : Tree} (hr : r.Placed (d + 1) (2 * p + 1)) {k : DataKey}
    (hk : k ∈ Region (d + 1) (2 * p)) :
    pairLive scheme d p l r k = l.live scheme (d + 1) (2 * p) k := by
  unfold pairLive
  rw [live_outside hr (region_apart (b := 0) (c := 1) (by omega) hk), or_none]

theorem pairLive_right {l r : Tree} (hl : l.Placed (d + 1) (2 * p)) {k : DataKey}
    (hk : k ∈ Region (d + 1) (2 * p + 1)) :
    pairLive scheme d p l r k = r.live scheme (d + 1) (2 * p + 1) k := by
  unfold pairLive
  rw [live_outside hl (region_apart (b := 1) (c := 0) (by omega) hk), none_or]

theorem pairLive_here {l r : Tree} (v : ℕ) (hl : l.Placed (d + 1) (2 * p))
    (hr : r.Placed (d + 1) (2 * p + 1)) : pairLive scheme d p l r (.node v d p) = none := by
  unfold pairLive
  rw [live_outside hl (node_not_below v d p _), live_outside hr (node_not_below v d p _)]
  rfl

theorem live_node (v : ℕ) (l r : Tree) : (Tree.node v l r).live scheme d p =
    Function.update (pairLive scheme d p l r) (.node v d p)
      (some (.node (.internal (l.ref scheme) (r.ref scheme)))) := by
  funext k
  unfold Tree.live Function.update pairLive
  by_cases h : k = .node v d p <;> simp [h]

theorem live_stem (v s : ℕ) (slots : Slots) : (Tree.stem v s slots).live scheme d p =
    Function.update (slotRecords s slots) (.node v d p)
      (some (.node (.stem s (storedSlots scheme slots)))) := by
  funext k
  unfold Tree.live Function.update
  by_cases h : k = .node v d p <;> simp [h]

end Live

section Slots
variable {scheme : HashScheme} {D : Set DataKey} {L : Live} {b : Batch} {s : ℕ}

def withSlots (L : Live) (s : ℕ) (slots : Slots) : Live
  | .node u e q => L (.node u e q)
  | .value tk w => if (splitTreeKey tk).1 = s then slotRecords s slots (.value tk w) else L (.value tk w)

omit [TrieHash] in
theorem slotRecords_join {slots : Slots} {i : ℕ} (hi : i < slotCount) (w : ℕ) :
    slotRecords s slots (.value (joinTreeKey s i) w) =
      ((slots.get? i).filter (fun e => e.2 = w)).map (fun e => .entry e.1) := by
  simp [slotRecords, splitTreeKey_join hi]

omit [TrieHash] in
theorem withSlots_join {slots : Slots} {i : ℕ} (hi : i < slotCount) (w : ℕ) :
    withSlots L s slots (.value (joinTreeKey s i) w) =
      ((slots.get? i).filter (fun e => e.2 = w)).map (fun e => .entry e.1) := by
  simp [withSlots, splitTreeKey_join hi, slotRecords_join hi]

omit [TrieHash] in
theorem eq_join {tk i : ℕ} (stem : (splitTreeKey tk).1 = s) (slot : (splitTreeKey tk).2 = i) :
    tk = joinTreeKey s i := by
  rw [← joinTreeKey_split tk, stem, slot]

omit [TrieHash] in
theorem withSlots_write {slots : Slots} {i : ℕ} (hi : i < slotCount) (v : ℕ)
    (agree : L = withSlots L s slots) (o : Option Entry) (cleared : Live)
    (hc : cleared = match slots.get? i with
      | some (_, w) => Function.update L (.value (joinTreeKey s i) w) none
      | none => L) :
    withSlots L s (writeSlot v slots (i, o)) = match o with
      | some x => Function.update cleared (.value (joinTreeKey s i) v) (some (.entry x))
      | none => cleared := by
  have blank (w : ℕ) : cleared (.value (joinTreeKey s i) w) = none := by
    rw [hc]
    have here := congrFun agree (.value (joinTreeKey s i) w)
    rw [withSlots_join hi] at here
    cases found : slots.get? i with
    | none =>
      rw [found] at here
      simpa using here
    | some e =>
      obtain ⟨e, w'⟩ := e
      rw [found] at here
      by_cases same : w' = w
      · simp [same]
      · have apart : DataKey.value (joinTreeKey s i) w ≠ .value (joinTreeKey s i) w' := by
          simpa using Ne.symm same
        simp only [update_of_ne apart]
        rw [here]
        simp [Option.filter, same]
  have apart (k : DataKey) (hk : ∀ w, k ≠ .value (joinTreeKey s i) w) : cleared k = L k := by
    rw [hc]
    cases slots.get? i with
    | none => rfl
    | some e => exact update_of_ne (hk e.2) _ _
  funext k
  by_cases here : ∃ w, k = .value (joinTreeKey s i) w
  · obtain ⟨w, rfl⟩ := here
    rw [withSlots_join hi, writeSlot_get?, if_pos rfl]
    cases o with
    | none => simpa using (blank w).symm
    | some x =>
      by_cases own : v = w
      · subst own
        simp
      · have other : DataKey.value (joinTreeKey s i) w ≠ .value (joinTreeKey s i) v := by
          simpa using Ne.symm own
        simp only [update_of_ne other, blank w]
        simp [own]
  · push Not at here
    have still : withSlots L s (writeSlot v slots (i, o)) k = L k := by
      cases k with
      | node u e q => rfl
      | value tk w =>
        rw [agree]
        simp only [withSlots]
        split_ifs with stem
        · have slot : (splitTreeKey tk).2 ≠ i := fun same => here w (by rw [eq_join stem same])
          simp only [slotRecords, stem, if_true, writeSlot_get?, slot, if_false]
        · rfl
    rw [still]
    cases o with
    | none => exact (apart k here).symm
    | some x =>
      rw [← apart k here]
      exact (update_of_ne (here v) _ _).symm

theorem applySlot_moves {slots : Slots} {change : ℕ × Option Entry} (hi : change.1 < slotCount)
    (hD : ∀ w, .value (joinTreeKey s change.1) w ∈ D) (agree : L = withSlots L s slots) :
    ∃ b', applySlot s (b, storedSlots b.scheme slots) change =
        (b', storedSlots b.scheme (writeSlot b.version slots change)) ∧
      Moves D L (withSlots L s (writeSlot b.version slots change)) b b' := by
  obtain ⟨i, o⟩ := change
  have stored : (storedSlots b.scheme slots).get? i =
      (slots.get? i).map (fun e => (leafHash b.scheme e.1.value, e.2)) := get?_map _ _ _
  -- The old value is retired first.
  obtain ⟨b₁, cleared, hb₁, hc, moves⟩ : ∃ b₁ cleared,
      retireSlot b (joinTreeKey s i) ((storedSlots b.scheme slots).get? i) = b₁ ∧
      cleared = (match slots.get? i with
        | some (_, w) => Function.update L (.value (joinTreeKey s i) w) none
        | none => L) ∧ Moves D L cleared b b₁ := by
    cases found : slots.get? i with
    | none =>
      rw [stored, found]
      exact ⟨b, L, rfl, rfl, Moves.refl D L b⟩
    | some e =>
      obtain ⟨e, w⟩ := e
      rw [stored, found]
      refine ⟨_, _, rfl, rfl, ?_⟩
      refine Moves.retire (k := .value (joinTreeKey s i) w) (hD w) ?_ b
      rw [agree, withSlots_join hi, found]
      simp
  have after := withSlots_write hi b.version agree o cleared hc
  have erased (o : Option Entry) : storedSlots b.scheme (writeSlot b.version slots (i, o)) =
      (match o with
        | some x => ((storedSlots b.scheme slots).erase i).insert i
            (leafHash b.scheme x.value, b.version)
        | none => (storedSlots b.scheme slots).erase i) := by
    refine ext_get? (fun j => ?_)
    rw [storedSlots, get?_map, writeSlot_get?]
    cases o with
    | none =>
      rw [get?_erase, storedSlots, get?_map]
      split_ifs <;> rfl
    | some x =>
      simp only [get?_insert, get?_erase, storedSlots, get?_map]
      split_ifs <;> rfl
  obtain ⟨-, version, scheme⟩ := moves.same
  cases o with
  | none =>
    refine ⟨b₁, ?_, ?_⟩
    · rw [erased none]
      simp only [applySlot, hb₁]
    · rw [after]
      exact moves
  | some x =>
    refine ⟨b₁.put (valueKey (joinTreeKey s i) b₁.version) (.entry x), ?_, ?_⟩
    · rw [erased (some x), ← scheme, ← version]
      simp only [applySlot, scheme, hb₁]
    · rw [after]
      refine moves.trans ?_
      have put := Moves.put (k := .value (joinTreeKey s i) b₁.version) (b := b₁) (hD _) rfl cleared
        (.entry x)
      rw [← version]
      exact put

omit [TrieHash] in
theorem withSlots_withSlots (a c : Slots) : withSlots (withSlots L s a) s c = withSlots L s c := by
  funext k
  cases k with
  | node u e q => rfl
  | value tk w =>
    simp only [withSlots]
    split_ifs <;> rfl

theorem applySlots_moves {slots : Slots} {update : StemUpdate}
    (hu : ∀ i o, update.get? i = some o → i < slotCount)
    (hD : ∀ i w, i < slotCount → .value (joinTreeKey s i) w ∈ D) (agree : L = withSlots L s slots) :
    ∃ b', applySlots b s (storedSlots b.scheme slots) update =
        (b', storedSlots b.scheme (writeSlots b.version slots update)) ∧
      Moves D L (withSlots L s (writeSlots b.version slots update)) b b' := by
  have fold (l : List (ℕ × Option Entry)) (hl : ∀ e ∈ l, e.1 < slotCount) (b : Batch) (L : Live)
      (slots : Slots) (agree : L = withSlots L s slots) :
      ∃ b', l.foldl (applySlot s) (b, storedSlots b.scheme slots) =
          (b', storedSlots b.scheme (l.foldl (writeSlot b.version) slots)) ∧
        Moves D L (withSlots L s (l.foldl (writeSlot b.version) slots)) b b' := by
    induction l generalizing b L slots with
    | nil =>
      refine ⟨b, rfl, ?_⟩
      rw [List.foldl_nil, ← agree]
      exact Moves.refl D L b
    | cons e l ih =>
      have hi := hl e (by simp)
      obtain ⟨b₁, step, moves⟩ := applySlot_moves (b := b) hi (fun w => hD _ w hi) agree
      obtain ⟨-, version, scheme⟩ := moves.same
      obtain ⟨b', run, rest⟩ := ih (fun x hx => hl x (List.mem_cons_of_mem e hx)) b₁
        (withSlots L s (writeSlot b.version slots e)) (writeSlot b.version slots e)
        (withSlots_withSlots _ _).symm
      rw [scheme, version] at run
      rw [version, withSlots_withSlots] at rest
      refine ⟨b', ?_, moves.trans rest⟩
      rw [List.foldl_cons, step]
      exact run
  exact fold update.entries (fun e he => hu e.1 e.2 (mem_entries.1 he)) b L slots agree

end Slots

section Nodes
variable {scheme : HashScheme} {d p : ℕ} {b : Batch}

theorem Tree.ref_node (u : ℕ) (l r : Tree) : (Tree.node u l r).ref scheme =
    some ⟨u, (Tree.node u l r).hash scheme, false⟩ := rfl

theorem Tree.getD_ref (t : Tree) : ((t.ref scheme).map NodeRef.hash).getD emptyHash = t.hash scheme := by
  cases t <;> rfl

theorem hash_stem (v s : ℕ) (slots : Slots) :
    (Node.stem s (storedSlots scheme slots)).hash scheme = (Tree.stem v s slots).hash scheme := by
  have hashes : (storedSlots scheme slots).map Prod.fst = leafSlots scheme slots := by
    refine ext_get? (fun i => ?_)
    simp only [storedSlots, leafSlots, get?_map, map_map]
    rfl
  rw [Node.hash, hashes]
  rfl

theorem hash_internal (v : ℕ) (l r : Tree) :
    (Node.internal (l.ref scheme) (r.ref scheme)).hash scheme = (Tree.node v l r).hash scheme := by
  rw [Node.hash, Tree.getD_ref, Tree.getD_ref]
  rfl

variable {v : ℕ} (hv : b.version = v) (hs : b.scheme = scheme)

include hv hs

theorem writeNode_stem {D : Set DataKey} {d p : ℕ} (hD : .node v d p ∈ D) (s : ℕ) (slots : Slots)
    (L : Live) : ∃ r b', b.writeNode (.stem s (storedSlots scheme slots)) d p = (r, b') ∧
      some r = (Tree.stem v s slots).ref scheme ∧
      Moves D L (Function.update L (.node v d p)
        (some (.node (.stem s (storedSlots scheme slots))))) b b' := by
  subst hv hs
  refine ⟨_, _, rfl, ?_, Moves.put (k := .node b.version d p) hD rfl L _⟩
  rw [hash_stem b.version]
  rfl

theorem writeNode_internal (l r : Tree) (d p : ℕ) :
    ∃ x b', b.writeNode (.internal (l.ref scheme) (r.ref scheme)) d p = (x, b') ∧
      some x = (Tree.node v l r).ref scheme ∧
      Moves (Region d p) (pairLive scheme d p l r) ((Tree.node v l r).live scheme d p) b b' := by
  subst hv hs
  refine ⟨_, _, rfl, ?_, ?_⟩
  · rw [hash_internal b.version]
    rfl
  · rw [live_node]
    exact Moves.put (k := .node b.version d p) (region_here _ _ _) rfl _ _

omit hv hs

omit [TrieHash] in
theorem slotRecords_empty (s : ℕ) : slotRecords s .empty = fun _ => none := by
  funext k
  cases k with
  | node u e q => rfl
  | value tk w => simp [slotRecords]

omit [TrieHash] in
theorem slotRecords_agree (s : ℕ) (slots : Slots) :
    slotRecords s slots = withSlots (slotRecords s slots) s slots := by
  funext k
  cases k with
  | node u e q => rfl
  | value tk w => simp [withSlots]

omit [TrieHash] in
theorem withSlots_slotRecords (s : ℕ) (a c : Slots) :
    withSlots (slotRecords s a) s c = slotRecords s c := by
  funext k
  cases k with
  | node u e q => rfl
  | value tk w =>
    simp only [withSlots, slotRecords]
    split_ifs <;> rfl

omit [TrieHash] in
theorem values_region {s : ℕ} (hp : stemPrefix s d = p) (i w : ℕ) (hi : i < slotCount) :
    DataKey.value (joinTreeKey s i) w ∈ Region d p := by
  refine region_value w ?_
  rw [splitTreeKey_join hi]
  exact hp

include hv hs in
theorem writeStem_moves {s : ℕ} {slots : Slots} {update : StemUpdate} (hp : stemPrefix s d = p)
    (hu : ∀ i o, update.get? i = some o → i < slotCount) :
    ∃ b', writeStem b s (storedSlots scheme slots) update d p =
        ((Tree.leaf v s (writeSlots v slots update)).ref scheme, b') ∧
      Moves (Region d p) (slotRecords s slots)
        ((Tree.leaf v s (writeSlots v slots update)).live scheme d p) b b' := by
  obtain ⟨b₁, applied, moves⟩ := applySlots_moves (b := b) hu (values_region hp)
    (slotRecords_agree s slots)
  rw [withSlots_slotRecords] at moves
  rw [hv, hs] at applied
  rw [hv] at moves
  have emptied : (storedSlots scheme (writeSlots v slots update)).isEmpty =
      (writeSlots v slots update).isEmpty := by
    simp [storedSlots, isEmpty, SortedMap.map]
  unfold writeStem
  rw [applied]
  simp only [emptied, Tree.leaf]
  by_cases empty : (writeSlots v slots update).isEmpty = true
  · have blank : writeSlots v slots update = .empty :=
      ext_get? (SortedMap.isEmpty_iff.1 empty)
    rw [blank, slotRecords_empty] at moves
    simp only [empty, if_true]
    exact ⟨b₁, rfl, moves⟩
  · obtain ⟨r, b₂, written, ref, put⟩ := writeNode_stem (moves.keepsVersion hv)
      (moves.keepsScheme hs) (region_here v d p) s (writeSlots v slots update)
      (slotRecords s (writeSlots v slots update))
    simp only [empty, if_false, Bool.false_eq_true, written]
    refine ⟨b₂, by rw [ref], moves.trans ?_⟩
    rw [live_stem]
    exact put

def twoStems (a c : ℕ × Slots) : Live := fun k =>
  (slotRecords a.1 a.2 k).or (slotRecords c.1 c.2 k)

omit [TrieHash] in
theorem twoStems_region {a c : ℕ × Slots} (ha : stemPrefix a.1 d = p) (hc : stemPrefix c.1 d = p)
    {k : DataKey} (out : k ∉ Region d p) : twoStems a c k = none := by
  have none {x : ℕ × Slots} (hx : stemPrefix x.1 d = p) : slotRecords x.1 x.2 k = none := by
    by_contra some
    exact out (hx ▸ slotRecords_region some)
  rw [twoStems, none ha, none hc]
  rfl

omit [TrieHash] in
theorem twoStems_comm {a c : ℕ × Slots} (differ : a.1 ≠ c.1) : twoStems a c = twoStems c a := by
  funext k
  unfold twoStems
  cases k with
  | node u e q => rfl
  | value tk w =>
    simp only [slotRecords]
    by_cases ha : (splitTreeKey tk).1 = a.1
    · simp [ha, differ]
    · simp [ha]

theorem pairLive_stems (v : ℕ) (a c : ℕ × Slots) :
    pairLive scheme d p (.stem v a.1 a.2) (.stem v c.1 c.2) =
      Function.update (Function.update (twoStems a c)
        (.node v (d + 1) (2 * p)) (some (.node (.stem a.1 (storedSlots scheme a.2)))))
        (.node v (d + 1) (2 * p + 1)) (some (.node (.stem c.1 (storedSlots scheme c.2)))) := by
  funext k
  unfold pairLive
  rw [live_stem, live_stem]
  by_cases left : k = .node v (d + 1) (2 * p)
  · subst left
    simp
  · by_cases right : k = .node v (d + 1) (2 * p + 1)
    · subst right
      simp [slotRecords]
    · simp only [update_of_ne left, update_of_ne right]
      rfl

include hv hs in
theorem split_moves {a c : ℕ × Slots} {n : ℕ} (room : stemBits ≤ d + n) (differ : a.1 ≠ c.1)
    (ha : (Tree.stem v a.1 a.2).Placed d p) (hc : (Tree.stem v c.1 c.2).Placed d p) :
    ∃ r b', split (a.1, storedSlots scheme a.2) (c.1, storedSlots scheme c.2) n b d p = .ok (r, b') ∧
      some r = (Tree.split v a c n d).ref scheme ∧
      Moves (Region d p) (twoStems a c) ((Tree.split v a c n d).live scheme d p) b b' := by
  induction n generalizing d p with
  | zero =>
    have full (x : ℕ) : stemPrefix x d = x := by
      have : stemBits - d = 0 := by omega
      simp [stemPrefix, this]
    exact absurd (by rw [← full a.1, ← full c.1, ha.2.1, hc.2.1]) differ
  | succ n ih =>
    have hd : d < stemBits := by
      obtain ⟨placed, l, r, shape⟩ := Tree.placed_split room differ ha hc
      rw [shape] at placed
      exact placed.1
    have below (x : ℕ × Slots) (hx : (Tree.stem v x.1 x.2).Placed d p) :
        (Tree.stem v x.1 x.2).Placed (d + 1) (2 * p + stemBit x.1 d) := by
      refine ⟨hx.1, ?_, hx.2.2⟩
      rw [stemPrefix_succ _ hd, hx.2.1]
    have la := below a ha
    have lc := below c hc
    by_cases same : stemBit a.1 d = stemBit c.1 d
    · rw [← same] at lc
      obtain ⟨r, b₁, run, ref, moves⟩ := ih (by omega) la lc
      have inner := (Tree.placed_split (n := n) (by omega) differ la lc).1
      have lifted : Moves (Region d p) (twoStems a c)
          ((Tree.split v a c n (d + 1)).live scheme (d + 1) (2 * p + stemBit a.1 d)) b b₁ := by
        refine moves.mono (region_child hd (stemBit_lt _ _)) (fun _ _ => rfl) (fun _ _ => rfl) ?_
        intro k out
        rw [live_outside inner out, twoStems_region la.2.1 lc.2.1 out]
      by_cases zero : stemBit a.1 d = 0
      · obtain ⟨x, b₂, written, refx, put⟩ := writeNode_internal (moves.keepsVersion hv)
          (moves.keepsScheme hs) (Tree.split v a c n (d + 1)) .nil d p
        have pair : pairLive scheme d p (Tree.split v a c n (d + 1)) .nil =
            (Tree.split v a c n (d + 1)).live scheme (d + 1) (2 * p + stemBit a.1 d) := by
          funext k
          simp [pairLive, Tree.live, zero]
        rw [pair] at put
        have tree : Tree.split v a c (n + 1) d = .node v (Tree.split v a c n (d + 1)) .nil := by
          simp [Tree.split, ← same, zero]
        rw [tree]
        refine ⟨x, b₂, ?_, refx, lifted.trans put⟩
        rw [← ref] at written
        simp only [split, if_pos same, run, bind, Except.bind, if_pos zero]
        exact congrArg Except.ok written
      · obtain ⟨x, b₂, written, refx, put⟩ := writeNode_internal (moves.keepsVersion hv)
          (moves.keepsScheme hs) .nil (Tree.split v a c n (d + 1)) d p
        have pair : pairLive scheme d p .nil (Tree.split v a c n (d + 1)) =
            (Tree.split v a c n (d + 1)).live scheme (d + 1) (2 * p + stemBit a.1 d) := by
          funext k
          simp [pairLive, Tree.live, stemBit_eq_one zero]
        rw [pair] at put
        have tree : Tree.split v a c (n + 1) d = .node v .nil (Tree.split v a c n (d + 1)) := by
          simp [Tree.split, ← same, zero]
        rw [tree]
        refine ⟨x, b₂, ?_, refx, lifted.trans put⟩
        rw [← ref] at written
        simp only [split, if_pos same, run, bind, Except.bind, if_neg zero]
        exact congrArg Except.ok written
    · have := stemBit_lt a.1 d
      have := stemBit_lt c.1 d
      have inside (q : ℕ) (hq : q < 2) : DataKey.node v (d + 1) (2 * p + q) ∈ Region d p :=
        region_child hd hq (region_here _ _ _)
      -- Both stems are written one level down, each on its own side.
      obtain ⟨ra, b₁, wroteA, refA, putA⟩ := writeNode_stem hv hs (inside _ (stemBit_lt a.1 d)) a.1 a.2
        (twoStems a c)
      obtain ⟨rc, b₂, wroteC, refC, putC⟩ := writeNode_stem (putA.keepsVersion hv)
        (putA.keepsScheme hs) (inside _ (stemBit_lt c.1 d)) c.1 c.2 _
      have moves := putA.trans putC
      have hv₂ := moves.keepsVersion hv
      have hs₂ := moves.keepsScheme hs
      by_cases zero : stemBit a.1 d = 0
      · have one : stemBit c.1 d = 1 := by omega
        obtain ⟨x, b₃, written, refx, put⟩ := writeNode_internal hv₂ hs₂ (.stem v a.1 a.2)
          (.stem v c.1 c.2) d p
        rw [pairLive_stems] at put
        have tree : Tree.split v a c (n + 1) d = .node v (.stem v a.1 a.2) (.stem v c.1 c.2) := by
          simp [Tree.split, zero, one]
        rw [zero, one] at moves
        rw [tree]
        refine ⟨x, b₃, ?_, refx, moves.trans put⟩
        rw [← refA, ← refC] at written
        simp only [split, if_neg same, wroteA, wroteC, if_pos zero]
        exact congrArg Except.ok written
      · have one := stemBit_eq_one zero
        have other : stemBit c.1 d = 0 := by omega
        obtain ⟨x, b₃, written, refx, put⟩ := writeNode_internal hv₂ hs₂ (.stem v c.1 c.2)
          (.stem v a.1 a.2) d p
        rw [pairLive_stems, twoStems_comm differ.symm, update_comm (by simp)] at put
        have tree : Tree.split v a c (n + 1) d = .node v (.stem v c.1 c.2) (.stem v a.1 a.2) := by
          simp [Tree.split, one, other]
        rw [other, one] at moves
        rw [tree]
        refine ⟨x, b₃, ?_, refx, moves.trans put⟩
        rw [← refA, ← refC] at written
        simp only [split, if_neg same, wroteA, wroteC, if_neg zero]
        exact congrArg Except.ok written

theorem live_stem_cleared (v s : ℕ) (slots : Slots) :
    Function.update ((Tree.stem v s slots).live scheme d p) (.node v d p) none =
      slotRecords s slots := by
  funext k
  rw [live_stem, update_idem]
  by_cases here : k = .node v d p
  · subst here
    simp [slotRecords]
  · rw [update_of_ne here]

theorem live_node_cleared (v : ℕ) {l r : Tree} (hl : l.Placed (d + 1) (2 * p))
    (hr : r.Placed (d + 1) (2 * p + 1)) :
    Function.update ((Tree.node v l r).live scheme d p) (.node v d p) none =
      pairLive scheme d p l r := by
  rw [live_node, update_idem, ← @pairLive_here _ scheme _ _ _ _ v hl hr]
  exact update_eq_self _ _

theorem live_lifted {q s b : ℕ} (v : ℕ) (slots : Slots) :
    Function.update (Function.update ((Tree.stem q s slots).live scheme (d + 1) b)
      (.node q (d + 1) b) none) (.node v d p) (some (.node (.stem s (storedSlots scheme slots)))) =
      (Tree.stem v s slots).live scheme d p := by
  rw [live_stem_cleared, live_stem]

include hv hs in
theorem liftStem_moves {q s c : ℕ} {slots : Slots} (hc : .node q (d + 1) c ∈ Region d p)
    (loads : b.Loads (Region d p) ((Tree.stem q s slots).live scheme (d + 1) c)) {r : NodeRef}
    (hr : r.version = q) : ∃ x b', liftStem b r d p c = .ok (x, b') ∧
      some x = (Tree.stem v s slots).ref scheme ∧
      Moves (Region d p) ((Tree.stem q s slots).live scheme (d + 1) c)
        ((Tree.stem v s slots).live scheme d p) b b' := by
  have here : (Tree.stem q s slots).live scheme (d + 1) c (.node q (d + 1) c) =
      some (.node (.stem s (storedSlots scheme slots))) := by
    rw [live_stem, update_self]
  have found := (loads _ hc).2 (by rw [here]; simp)
  rw [here] at found
  have loaded : b.load r (d + 1) c = .ok (.stem s (storedSlots scheme slots)) := by
    have : b.get (pathKey r.version (d + 1) c) = some (.node (.stem s (storedSlots scheme slots))) := by
      rw [hr]
      exact found
    rw [Batch.load, this]
    rfl
  have gone := Moves.retire (k := .node q (d + 1) c) hc (L := (Tree.stem q s slots).live scheme (d + 1) c)
    (by rw [here]; simp) b
  obtain ⟨x, b', written, ref, put⟩ := writeNode_stem (gone.keepsVersion hv) (gone.keepsScheme hs)
    (region_here v d p) s slots _
  refine ⟨x, b', ?_, ref, ?_⟩
  · simp only [liftStem, loaded, bind, Except.bind, hr]
    exact congrArg Except.ok written
  · rw [← live_lifted (d := d) (p := p) (q := q) (b := c) v slots]
    exact gone.trans put

theorem pairLive_nil_right (l : Tree) :
    pairLive scheme d p l .nil = l.live scheme (d + 1) (2 * p) := by
  funext k
  simp [pairLive, Tree.live]

theorem pairLive_nil_left (r : Tree) :
    pairLive scheme d p .nil r = r.live scheme (d + 1) (2 * p + 1) := by
  funext k
  simp [pairLive, Tree.live]

theorem rejoin_swap (b : Batch) (d p : ℕ) (l r : Option NodeRef) :
    rejoin b 1 d p r l = rejoin b 0 d p l r := by
  cases l <;> cases r <;> simp [rejoin]

include hv hs in
theorem rejoin_moves {l r : Tree} (hd : d < stemBits)
    (loads : b.Loads (Region d p) (pairLive scheme d p l r)) :
    ∃ b', rejoin b 0 d p (l.ref scheme) (r.ref scheme) = .ok ((Tree.join v l r).ref scheme, b') ∧
      Moves (Region d p) (pairLive scheme d p l r) ((Tree.join v l r).live scheme d p) b b' := by
  have inside (u q : ℕ) (hq : q < 2) : DataKey.node u (d + 1) (2 * p + q) ∈ Region d p :=
    region_child hd hq (region_here _ _ _)
  obtain ⟨x, b₁, written, ref, put⟩ := writeNode_internal hv hs l r d p
  match l, r with
  | .nil, .nil =>
    rw [pairLive_nil_right]
    exact ⟨b, rfl, Moves.refl _ _ _⟩
  | .stem q s slots, .nil =>
    rw [pairLive_nil_right] at loads ⊢
    obtain ⟨x, b', run, ref, moves⟩ := liftStem_moves hv hs (inside q 0 (by omega)) loads
      (r := ⟨q, _, true⟩) rfl
    refine ⟨b', ?_, moves⟩
    simp only [Tree.ref, rejoin, if_true, Nat.add_zero] at run ⊢
    rw [run]
    exact congrArg (fun o => Except.ok (o, b')) ref
  | .nil, .stem q s slots =>
    rw [pairLive_nil_left] at loads ⊢
    obtain ⟨x, b', run, ref, moves⟩ := liftStem_moves hv hs (inside q 1 (by omega)) loads
      (r := ⟨q, _, true⟩) rfl
    refine ⟨b', ?_, moves⟩
    simp only [Tree.ref, rejoin, if_true, Nat.sub_zero] at run ⊢
    rw [run]
    exact congrArg (fun o => Except.ok (o, b')) ref
  | .nil, .node .. | .node .., .nil | .stem .., .stem .. | .stem .., .node .. | .node .., .stem ..
  | .node .., .node .. =>
    refine ⟨b₁, ?_, put⟩
    simp only [Tree.ref] at written ref
    simp only [Tree.ref, rejoin, if_true, written, Bool.false_eq_true, if_false]
    exact congrArg (fun o => Except.ok (o, b₁)) ref

omit [TrieHash] in
theorem Batch.Loads.sub {D D' : Set DataKey} {L L' : Live} {b : Batch} (h : b.Loads D L) (sub : D' ⊆ D)
    (same : ∀ k ∈ D', L' k = L k) : b.Loads D' L' := by
  intro k hk
  rw [same k hk]
  exact h k (sub hk)

omit [TrieHash] in
theorem Batch.Loads.load {D : Set DataKey} {L : Live} {b : Batch} (h : b.Loads D L) {r : NodeRef}
    {node : Node} (inside : .node r.version d p ∈ D)
    (live : L (.node r.version d p) = some (.node node)) : b.load r d p = .ok node := by
  have found := (h _ inside).2 (by rw [live]; simp)
  rw [live] at found
  change b.get (pathKey r.version d p) = _ at found
  rw [Batch.load, found]
  rfl

include hv hs in
theorem putOnStem_moves {s u s₀ : ℕ} {slots₀ : Slots} {update : StemUpdate} {n : ℕ}
    (room : d + n = stemBits) (placed : (Tree.stem u s₀ slots₀).Placed d p) (bound : s < 2 ^ stemBits)
    (hp : stemPrefix s d = p) (hu : UpdateOf s update) {r : NodeRef}
    (hr : some r = (Tree.stem u s₀ slots₀).ref scheme) :
    ∃ b', putOnStem s update n b r d p s₀ (storedSlots scheme slots₀) =
        .ok (((Tree.stem u s₀ slots₀).put v s update d).ref scheme, b') ∧
      Moves (Region d p) ((Tree.stem u s₀ slots₀).live scheme d p)
        (((Tree.stem u s₀ slots₀).put v s update d).live scheme d p) b b' := by
  have slots (i : ℕ) (o : Option Entry) (h : update.get? i = some o) : i < slotCount := (hu i o h).1
  have version : r.version = u := by
    rw [Option.some.inj hr]
  have here : (Tree.stem u s₀ slots₀).live scheme d p (.node u d p) =
      some (.node (.stem s₀ (storedSlots scheme slots₀))) := by
    rw [live_stem, update_self]
  have gone := Moves.retire (k := .node u d p) (region_here u d p)
    (L := (Tree.stem u s₀ slots₀).live scheme d p) (by rw [here]; simp) b
  rw [live_stem_cleared] at gone
  change Moves _ _ _ b (b.retire (pathKey u d p) u) at gone
  have hv₁ := gone.keepsVersion hv
  have hs₁ := gone.keepsScheme hs
  unfold putOnStem Tree.put
  rw [version]
  by_cases same : s₀ = s
  · subst same
    obtain ⟨b', run, moves⟩ := @writeStem_moves _ _ _ _ _ _ hv₁ hs₁ _ slots₀ _ hp slots
    simp only [if_true]
    exact ⟨b', congrArg Except.ok run, gone.trans moves⟩
  simp only [if_neg same]
  by_cases clear : update.values.all isNone = true
  · simp only [clear, if_true]
    exact ⟨b, congrArg (fun o => Except.ok (o, b)) hr, Moves.refl _ _ _⟩
  simp only [clear, if_false, Bool.false_eq_true]
  -- The other stem's values stay, the new stem's are written, and both are split apart.
  have agree : slotRecords s₀ slots₀ = withSlots (slotRecords s₀ slots₀) s .empty := by
    funext k
    cases k with
    | node u e q => rfl
    | value tk w =>
      simp only [withSlots, slotRecords]
      by_cases stem : (splitTreeKey tk).1 = s
      · simp [stem, Ne.symm same]
      · simp [stem]
  obtain ⟨b₂, applied, wrote⟩ := applySlots_moves (b := b.retire (pathKey u d p) u) slots
    (values_region hp) agree
  have both : withSlots (slotRecords s₀ slots₀) s (writeSlots v .empty update) =
      twoStems (s₀, slots₀) (s, writeSlots v .empty update) := by
    funext k
    cases k with
    | node u e q => rfl
    | value tk w =>
      simp only [withSlots, twoStems, slotRecords]
      by_cases stem : (splitTreeKey tk).1 = s
      · simp [stem, Ne.symm same]
      · simp [stem]
  have blank : storedSlots scheme .empty = .empty := ext_get? (fun _ => rfl)
  rw [hv₁, hs₁, blank] at applied
  rw [hv₁, both] at wrote
  have added : (Tree.stem v s (writeSlots v .empty update)).Placed d p := by
    refine ⟨bound, hp, ?_, (slotsOf_empty s).write hu⟩
    rw [writeSlots_empty_isEmpty]
    simpa using clear
  have moves := gone.trans wrote
  obtain ⟨r', b₃, run, ref, parted⟩ := split_moves (moves.keepsVersion hv)
    (moves.keepsScheme hs) (a := (s₀, slots₀)) (c := (s, writeSlots v .empty update)) (n := n)
    (by omega) same placed added
  have levels : stemBits - d = n := by omega
  rw [levels]
  refine ⟨b₃, ?_, moves.trans parted⟩
  simp only [applied, run, bind, Except.bind]
  exact congrArg (fun o => Except.ok (o, b₃)) ref

include hv hs in
theorem putStem_moves {s : ℕ} {update : StemUpdate} {t : Tree} {n : ℕ} (room : d + n = stemBits)
    (placed : t.Placed d p) (bound : s < 2 ^ stemBits) (hp : stemPrefix s d = p)
    (hu : UpdateOf s update) (loads : b.Loads (Region d p) (t.live scheme d p)) :
    ∃ b', putStem s update n b (t.ref scheme) d p = .ok ((t.put v s update d).ref scheme, b') ∧
      Moves (Region d p) (t.live scheme d p) ((t.put v s update d).live scheme d p) b b' := by
  induction t generalizing d p n b with
  | nil =>
    obtain ⟨b', run, moves⟩ := @writeStem_moves _ _ _ _ _ _ hv hs _ .empty _ hp (fun i o h => (hu i o h).1)
    have blank : storedSlots scheme .empty = .empty := ext_get? (fun _ => rfl)
    rw [slotRecords_empty] at moves
    rw [blank] at run
    refine ⟨b', ?_, moves⟩
    unfold putStem
    cases n <;> exact congrArg Except.ok run
  | stem u s₀ slots₀ =>
    have loaded := loads.load (r := ⟨u, (Tree.stem u s₀ slots₀).hash scheme, true⟩)
      (region_here u d p) (by rw [live_stem, update_self])
    obtain ⟨b', run, moves⟩ := putOnStem_moves hv hs room placed bound hp hu
      (r := ⟨u, (Tree.stem u s₀ slots₀).hash scheme, true⟩) rfl
    refine ⟨b', ?_, moves⟩
    cases n with
    | zero =>
      simp only [Tree.ref, putStem, loaded, bind, Except.bind]
      exact run
    | succ n =>
      simp only [Tree.ref, putStem, loaded, bind, Except.bind]
      exact run
  | node u l r ihl ihr =>
    obtain ⟨hd, hl, hr, thick⟩ := placed
    obtain ⟨n, rfl⟩ : ∃ m, n = m + 1 := ⟨n - 1, by omega⟩
    have here : (Tree.node u l r).live scheme d p (.node u d p) =
        some (.node (.internal (l.ref scheme) (r.ref scheme))) := by
      rw [live_node, update_self]
    have loaded := loads.load (r := ⟨u, (Tree.node u l r).hash scheme, false⟩) (region_here u d p) here
    have gone := Moves.retire (k := .node u d p) (region_here u d p)
      (L := (Tree.node u l r).live scheme d p) (by rw [here]; simp) b
    rw [live_node_cleared u hl hr] at gone
    change Moves _ _ _ b (b.retire (pathKey u d p) u) at gone
    have hv₁ := gone.keepsVersion hv
    have hs₁ := gone.keepsScheme hs
    have loads₁ := gone.loads loads
    have next := stemPrefix_succ s hd
    simp only [Tree.ref_node, putStem, loaded, bind, Except.bind, Tree.put]
    by_cases zero : stemBit s d = 0
    · have wide := region_child (b := 0) (p := p) hd (by omega)
      obtain ⟨b₂, run, child⟩ := ihl (n := n) hv₁ hs₁ (by omega) hl (by omega)
        (loads₁.sub wide (fun k hk => (pairLive_left hr hk).symm))
      have hl' := Tree.placed_put (v := v) hl bound (by omega) hu
      have moved := child.mono (M := pairLive scheme d p l r)
        (N := pairLive scheme d p (l.put v s update (d + 1)) r) wide
        (fun k hk => pairLive_left hr hk) (fun k hk => pairLive_left hr hk) (by
          intro k out
          unfold pairLive
          rw [live_outside hl out, live_outside hl' out])
      have moves := gone.trans moved
      obtain ⟨b₃, joined, last⟩ := rejoin_moves (moves.keepsVersion hv) (moves.keepsScheme hs) hd
        (moves.loads loads)
      simp only [zero, if_true, Nat.add_zero] at run ⊢
      rw [run]
      exact ⟨b₃, joined, moves.trans last⟩
    · have one := stemBit_eq_one zero
      have wide := region_child (b := 1) (p := p) hd (by omega)
      obtain ⟨b₂, run, child⟩ := ihr (n := n) hv₁ hs₁ (by omega) hr (by omega)
        (loads₁.sub wide (fun k hk => (pairLive_right hl hk).symm))
      have hr' := Tree.placed_put (v := v) hr bound (by omega) hu
      have moved := child.mono (M := pairLive scheme d p l r)
        (N := pairLive scheme d p l (r.put v s update (d + 1))) wide
        (fun k hk => pairLive_right hl hk) (fun k hk => pairLive_right hl hk) (by
          intro k out
          unfold pairLive
          rw [live_outside hr out, live_outside hr' out])
      have moves := gone.trans moved
      obtain ⟨b₃, joined, last⟩ := rejoin_moves (moves.keepsVersion hv) (moves.keepsScheme hs) hd
        (moves.loads loads)
      simp only [one, if_false, Nat.one_ne_zero] at run ⊢
      rw [run]
      simp only [rejoin_swap]
      exact ⟨b₃, joined, moves.trans last⟩

end Nodes

end Tenzro.StateTrie
