import Tenzro.StateTriePut

set_option autoImplicit false
set_option linter.dupNamespace false

/-!
# Reading a tree back from the store

The writes grouped by stem and slot, put one stem after another, and the batch written to
the store in one go.

A store that holds a tree's live records answers every read of that tree, by the tree's own
entries.
-/
namespace Tenzro.StateTrie
open List Option SortedMap

section Writes

theorem get?_apply (store : Store) (op : WriteOp) (key : List ℕ) :
    (op.apply store).get? key = match op with
      | .put k r => if key = k then some r else store.get? key
      | .delete k => if key = k then none else store.get? key := by
  cases op with
  | put k r =>
    simp only [WriteOp.apply, get?_insert]
    by_cases h : key = k <;> simp [h]
  | delete k =>
    simp only [WriteOp.apply, get?_erase]
    by_cases h : key = k <;> simp [h]

theorem get?_writeBatch (b : Batch) (key : List ℕ) :
    (writeBatch b.store b.intoOps).get? key = b.get key := by
  have fold (l : List (List ℕ × Option Record)) (sorted : l.Pairwise (fun a b => a.1 < b.1))
      (store : Store) : (writeBatch store (l.map (fun e =>
        e.2.elim (.delete e.1) (.put e.1)))).get? key =
        (SortedMap.find l key).elim (store.get? key) id := by
    induction l generalizing store with
    | nil => rfl
    | cons e l ih =>
      obtain ⟨above, sorted⟩ := pairwise_cons.1 sorted
      rw [map_cons, writeBatch, foldl_cons]
      refine (ih sorted _).trans ?_
      rw [get?_apply, SortedMap.find]
      by_cases here : key = e.1
      · have later : SortedMap.find l key = none := by
          refine find_eq_none.2 ?_
          intro x hx same
          have := above x hx
          rw [same, here] at this
          exact lt_irrefl _ this
        rw [later, if_pos here]
        cases e.2 <;> simp [here]
      · rw [if_neg here]
        cases e.2 <;> simp [here]
  have ops : b.intoOps = b.overlay.entries.map fun e => e.2.elim (.delete e.1) (.put e.1) :=
    map_congr_left (by rintro ⟨k, _ | record⟩ - <;> rfl)
  rw [ops]
  refine (fold b.overlay.entries b.overlay.sorted b.store).trans ?_
  unfold Batch.get get?
  cases SortedMap.find b.overlay.entries key <;> rfl

end Writes

variable [TrieHash]

def updateOf (write : Lex (String × List ℕ) × Option (List ℕ)) : Option Entry :=
  write.2.map (fun v => ⟨(ofLex write.1).1, (ofLex write.1).2, v⟩)

def placeOf (write : Lex (String × List ℕ) × Option (List ℕ)) : ℕ × ℕ :=
  pathOf (ofLex write.1).1 (ofLex write.1).2

def groupWrite (byStem : SortedMap ℕ StemUpdate) (write : Lex (String × List ℕ) × Option (List ℕ)) :
    SortedMap ℕ StemUpdate :=
  byStem.insert (placeOf write).1
    ((byStem.getD (placeOf write).1 .empty).insert (placeOf write).2 (updateOf write))

def byStem (writes : Writes) : SortedMap ℕ StemUpdate := writes.entries.foldl groupWrite .empty

def Committed (writes : Writes) : Prop :=
  ∀ e ∈ writes.entries, isCommittedNamespace (ofLex e.1).1 = true

theorem groupByStem_ok (writes : Writes) (h : Committed writes) :
    groupByStem writes.entries .empty = .ok (byStem writes) := by
  have fold (l : List (Lex (String × List ℕ) × Option (List ℕ))) (m : SortedMap ℕ StemUpdate)
      (hl : ∀ e ∈ l, isCommittedNamespace (ofLex e.1).1 = true) :
      groupByStem l m = .ok (l.foldl groupWrite m) := by
    induction l generalizing m with
    | nil => rfl
    | cons e l ih =>
      have here := hl e (by simp)
      rw [foldl_cons, ← ih _ (fun x hx => hl x (mem_cons_of_mem e hx))]
      simp only [groupByStem, here, if_true]
      rfl
  exact fold writes.entries .empty h

theorem groupByStem_error (writes : Writes) (h : ¬ Committed writes) :
    ∃ e, groupByStem writes.entries .empty = .error e := by
  have fold (l : List (Lex (String × List ℕ) × Option (List ℕ))) (m : SortedMap ℕ StemUpdate)
      (hl : ¬ ∀ e ∈ l, isCommittedNamespace (ofLex e.1).1 = true) :
      ∃ e, groupByStem l m = .error e := by
    induction l generalizing m with
    | nil => exact absurd (by simp) hl
    | cons e l ih =>
      by_cases here : isCommittedNamespace (ofLex e.1).1 = true
      · have later : ¬ ∀ e ∈ l, isCommittedNamespace (ofLex e.1).1 = true := by
          intro all
          refine hl ?_
          intro x hx
          cases mem_cons.1 hx with
          | inl same => exact same ▸ here
          | inr rest => exact all x rest
        obtain ⟨err, herr⟩ := ih _ later
        refine ⟨err, ?_⟩
        simp only [groupByStem, here, if_true]
        exact herr
      · exact ⟨_, by simp only [groupByStem, here]; rfl⟩
  exact fold writes.entries .empty h

section Group

theorem foldl_groupWrite_get? (l : List (Lex (String × List ℕ) × Option (List ℕ)))
    (m : SortedMap ℕ StemUpdate) (s i : ℕ) :
    ((l.foldl groupWrite m).getD s .empty).get? i =
      ((l.reverse.find? (fun e => placeOf e = (s, i))).map updateOf).or ((m.getD s .empty).get? i) := by
  induction l generalizing m with
  | nil => rfl
  | cons e l ih =>
    rw [foldl_cons, ih, reverse_cons, find?_append]
    cases find? (fun e => decide (placeOf e = (s, i))) l.reverse with
    | some x => rfl
    | none =>
      rw [map_none, none_or, none_or, groupWrite, getD_insert]
      by_cases stem : s = (placeOf e).1
      · rw [if_pos stem, get?_insert, ← stem]
        by_cases slot : i = (placeOf e).2
        · have here : placeOf e = (s, i) := Prod.ext stem.symm slot.symm
          simp [here]
        · have apart : placeOf e ≠ (s, i) := fun h => slot (by rw [h])
          simp [slot, apart]
      · have apart : placeOf e ≠ (s, i) := fun h => stem (by rw [h])
        simp [stem, apart]

theorem byStem_some {writes : Writes} {s i : ℕ} {o : Option Entry}
    (h : ((byStem writes).getD s .empty).get? i = some o) :
    ∃ e ∈ writes.entries, placeOf e = (s, i) ∧ updateOf e = o := by
  rw [byStem, foldl_groupWrite_get?, SortedMap.getD, get?_empty] at h
  simp only [getD_none, get?_empty, or_none, map_eq_some_iff] at h
  obtain ⟨e, found, rfl⟩ := h
  have place := find?_some found
  exact ⟨e, mem_reverse.1 (mem_of_find?_eq_some found), by simpa using place, rfl⟩

theorem byStem_none {writes : Writes} {s i : ℕ}
    (h : ((byStem writes).getD s .empty).get? i = none) : ∀ e ∈ writes.entries, placeOf e ≠ (s, i) := by
  rw [byStem, foldl_groupWrite_get?, SortedMap.getD, get?_empty] at h
  simp only [getD_none, get?_empty, or_none, map_eq_none_iff,
    find?_eq_none, mem_reverse, decide_eq_true_eq] at h
  exact h

theorem byStem_stem {writes : Writes} {s : ℕ} {update : StemUpdate}
    (h : (s, update) ∈ (byStem writes).entries) : s < 2 ^ stemBits ∧ UpdateOf s update := by
  have found : (byStem writes).get? s = some update := mem_entries.1 h
  have keys (l : List (Lex (String × List ℕ) × Option (List ℕ))) (m : SortedMap ℕ StemUpdate)
      (hm : ∀ s u, m.get? s = some u → s < 2 ^ stemBits) :
      ∀ s u, (l.foldl groupWrite m).get? s = some u → s < 2 ^ stemBits := by
    induction l generalizing m with
    | nil => exact hm
    | cons e l ih =>
      refine ih _ ?_
      intro s u hs
      rw [groupWrite, get?_insert] at hs
      split_ifs at hs with here
      · rw [here]
        exact (pathOf_lt _ _).1
      · exact hm s u hs
  refine ⟨keys writes.entries .empty (by simp) s update found, ?_⟩
  intro i o ho
  have there : ((byStem writes).getD s .empty).get? i = some o := by
    rw [SortedMap.getD, found]
    exact ho
  obtain ⟨e, -, place, rfl⟩ := byStem_some there
  have bound := (pathOf_lt (ofLex e.1).1 (ofLex e.1).2).2
  change (placeOf e).2 < slotCount at bound
  rw [place] at bound
  refine ⟨bound, ?_⟩
  intro x hx
  unfold updateOf at hx
  obtain ⟨v, -, rfl⟩ := map_eq_some_iff.1 hx
  exact place

end Group

def Tree.putAll (v : ℕ) (updates : List (ℕ × StemUpdate)) (t : Tree) : Tree :=
  updates.foldl (fun t e => t.put v e.1 e.2 0) t

section Put
variable {scheme : HashScheme} {v : ℕ}

theorem Tree.placed_putAll (updates : List (ℕ × StemUpdate)) {t : Tree} (h : t.Placed 0 0)
    (hu : ∀ e ∈ updates, e.1 < 2 ^ stemBits ∧ UpdateOf e.1 e.2) :
    (t.putAll v updates).Placed 0 0 := by
  induction updates generalizing t with
  | nil => exact h
  | cons e updates ih =>
    obtain ⟨bound, update⟩ := hu e (by simp)
    refine ih ?_ (fun x hx => hu x (mem_cons_of_mem e hx))
    exact placed_put h bound (stemPrefix_zero bound) update

theorem Tree.slotsAt_putAll {updates : List (ℕ × StemUpdate)} {t : Tree} (s : ℕ) (h : t.Placed 0 0)
    (sorted : updates.Pairwise (fun a b => a.1 < b.1))
    (hu : ∀ e ∈ updates, e.1 < 2 ^ stemBits ∧ UpdateOf e.1 e.2) :
    slotsAt s 0 (t.putAll v updates) =
      (SortedMap.find updates s).elim (slotsAt s 0 t) (writeSlots v (slotsAt s 0 t)) := by
  induction updates generalizing t with
  | nil => rfl
  | cons e updates ih =>
    obtain ⟨above, sorted⟩ := pairwise_cons.1 sorted
    obtain ⟨bound, update⟩ := hu e (by simp)
    have placed := placed_put (v := v) h bound (stemPrefix_zero bound) update
    refine (ih placed sorted (fun x hx => hu x (mem_cons_of_mem e hx))).trans ?_
    rw [slotsAt_put s h (by omega) bound (stemPrefix_zero bound) update, SortedMap.find]
    by_cases here : s = e.1
    · have later : SortedMap.find updates s = none := by
        refine find_eq_none.2 ?_
        intro x hx same
        have := above x hx
        omega
      rw [later, if_pos here, if_pos here.symm, here]
      rfl
    · rw [if_neg here, if_neg (Ne.symm here)]

theorem Tree.slotsAt_commit {t : Tree} (writes : Writes) (s i : ℕ) (h : t.Placed 0 0) :
    (slotsAt s 0 (t.putAll v (byStem writes).entries)).get? i =
      (((byStem writes).getD s .empty).get? i).elim ((slotsAt s 0 t).get? i) (Option.map (·, v)) := by
  rw [slotsAt_putAll s h (byStem writes).sorted (fun e he => byStem_stem he)]
  change (((byStem writes).get? s).elim _ _ : Slots).get? i = _
  unfold SortedMap.getD
  cases (byStem writes).get? s with
  | none => rfl
  | some update => exact writeSlots_get? v _ update i

theorem putStems_moves {updates : List (ℕ × StemUpdate)} {t : Tree} {b : Batch} (hv : b.version = v)
    (hs : b.scheme = scheme) (placed : t.Placed 0 0)
    (hu : ∀ e ∈ updates, e.1 < 2 ^ stemBits ∧ UpdateOf e.1 e.2)
    (loads : b.Loads (Region 0 0) (t.live scheme 0 0)) :
    ∃ b', putStems updates (t.ref scheme) b = .ok ((t.putAll v updates).ref scheme, b') ∧
      Moves (Region 0 0) (t.live scheme 0 0) ((t.putAll v updates).live scheme 0 0) b b' := by
  induction updates generalizing t b with
  | nil => exact ⟨b, rfl, Moves.refl _ _ _⟩
  | cons e updates ih =>
    obtain ⟨bound, update⟩ := hu e (by simp)
    obtain ⟨b₁, run, moves⟩ := putStem_moves hv hs (n := stemBits) (by omega) placed bound
      (stemPrefix_zero bound) update loads
    have next := Tree.placed_put (v := v) placed bound (stemPrefix_zero bound) update
    obtain ⟨b₂, rest, more⟩ := ih (moves.keepsVersion hv) (moves.keepsScheme hs) next
      (fun x hx => hu x (mem_cons_of_mem e hx)) (moves.loads loads)
    refine ⟨b₂, ?_, moves.trans more⟩
    simp only [putStems, run, bind, Except.bind]
    exact rest

end Put

def startBatch (store : Store) (v : ℕ) (scheme : HashScheme) : Batch := ⟨store, v, scheme, .empty⟩

theorem commitOn_moves {store : Store} {scheme : HashScheme} {v : ℕ} {writes : Writes} {t : Tree}
    {base : Option (Option NodeRef)} {latest : Option NodeRef} (committed : Committed writes)
    (hl : latestBase store v = .ok latest) (hb : base.getD latest = t.ref scheme)
    (placed : t.Placed 0 0)
    (loads : (startBatch store v scheme).Loads (Region 0 0) (t.live scheme 0 0)) :
    ∃ b store', commitOn store scheme v writes base =
        .ok ((t.putAll v (byStem writes).entries).hash scheme, store') ∧
      Moves (Region 0 0) (t.live scheme 0 0)
        ((t.putAll v (byStem writes).entries).live scheme 0 0) (startBatch store v scheme) b ∧
      ∀ key, store'.get? key = if key = latestKey then some (.latest v)
        else if key = rootKey v then
          some (.root ((t.putAll v (byStem writes).entries).ref scheme))
        else b.get key := by
  obtain ⟨b, run, moves⟩ := putStems_moves (b := startBatch store v scheme) rfl rfl placed
    (fun e he => byStem_stem he) loads
  change putStems _ (t.ref scheme) _ = .ok ((t.putAll v _).ref scheme, b) at run
  have whole := get?_writeBatch ((b.put (rootKey v)
    (.root ((t.putAll v (byStem writes).entries).ref scheme))).put latestKey (.latest v))
  simp only [Batch.get_put] at whole
  refine ⟨b, _, ?_, moves, whole⟩
  · have same : b.store = store := moves.same.1
    have start : (⟨store, v, scheme, .empty⟩ : Batch) = startBatch store v scheme := rfl
    simp only [commitOn, hl, groupByStem_ok writes committed, bind, Except.bind, hb, start, run,
      Tree.getD_ref]
    exact congrArg (fun s => Except.ok (_, writeBatch s _)) same.symm

end Tenzro.StateTrie

namespace Tenzro.StateTrie
open List Function SortedMap
variable [TrieHash] {scheme : HashScheme} {store : Store}

def Has (store : Store) (L : Live) : Prop := ∀ k, L k ≠ none → store.get? k.key = L k

def Tree.entriesUnder (depth pre : ℕ) : ℕ → Tree → List Entry
  | _, .nil => []
  | _, .stem _ s slots => if sharesPrefix s pre depth then slots.values.map Prod.fst else []
  | d, .node _ l r =>
    if d < depth then
      if stemBit pre d = 0 then entriesUnder depth pre (d + 1) l else entriesUnder depth pre (d + 1) r
    else entriesUnder depth pre (d + 1) l ++ entriesUnder depth pre (d + 1) r

def Tree.entries (t : Tree) : List Entry := t.entriesUnder 0 0 0

section Has
variable {d p : ℕ}

theorem Has.left {v : ℕ} {l r : Tree} (h : Has store ((Tree.node v l r).live scheme d p))
    (hl : l.Placed (d + 1) (2 * p)) : Has store (l.live scheme (d + 1) (2 * p)) := by
  intro k live
  have inside := live_region hl live
  have apart : k ≠ .node v d p := by
    rintro rfl
    exact node_not_below v d p _ inside
  have same : (Tree.node v l r).live scheme d p k = l.live scheme (d + 1) (2 * p) k := by
    rw [live_node, update_of_ne apart, pairLive]
    exact Option.or_of_isSome (Option.isSome_iff_ne_none.2 live)
  rw [← same]
  exact h k (by rw [same]; exact live)

theorem Has.right {v : ℕ} {l r : Tree} (h : Has store ((Tree.node v l r).live scheme d p))
    (hl : l.Placed (d + 1) (2 * p)) (hr : r.Placed (d + 1) (2 * p + 1)) :
    Has store (r.live scheme (d + 1) (2 * p + 1)) := by
  intro k live
  have inside := live_region hr live
  have apart : k ≠ .node v d p := by
    rintro rfl
    exact node_not_below v d p _ inside
  have same : (Tree.node v l r).live scheme d p k = r.live scheme (d + 1) (2 * p + 1) k := by
    rw [live_node, update_of_ne apart, pairLive_right hl inside]
  rw [← same]
  exact h k (by rw [same]; exact live)

theorem Has.readStem {v s : ℕ} {slots : Slots} (h : Has store ((Tree.stem v s slots).live scheme d p))
    (r : NodeRef) (hr : r.version = v) :
    readNode store r d p = .ok (.stem s (storedSlots scheme slots)) := by
  have here : (Tree.stem v s slots).live scheme d p (.node v d p) =
      some (.node (.stem s (storedSlots scheme slots))) := by
    rw [live_stem, update_self]
  have found := h _ (by rw [here]; simp)
  rw [here] at found
  change store.get? (pathKey v d p) = _ at found
  rw [readNode, hr, found]
  rfl

theorem Has.readInternal {v : ℕ} {l t : Tree} (h : Has store ((Tree.node v l t).live scheme d p))
    (r : NodeRef) (hr : r.version = v) :
    readNode store r d p = .ok (.internal (l.ref scheme) (t.ref scheme)) := by
  have here : (Tree.node v l t).live scheme d p (.node v d p) =
      some (.node (.internal (l.ref scheme) (t.ref scheme))) := by
    rw [live_node, update_self]
  have found := h _ (by rw [here]; simp)
  rw [here] at found
  change store.get? (pathKey v d p) = _ at found
  rw [readNode, hr, found]
  rfl

theorem slot_lt {s i w : ℕ} {slots : Slots} {e : Entry} (h : SlotsOf s slots)
    (he : slots.get? i = some (e, w)) : i < slotCount := by
  have path := h i _ he
  have bound := (pathOf_lt e.ns e.key).2
  change e.path.2 < slotCount at bound
  rw [path] at bound
  exact bound

theorem Has.readValue {v s i w : ℕ} {slots : Slots} {e : Entry}
    (h : Has store ((Tree.stem v s slots).live scheme d p)) (hs : SlotsOf s slots)
    (he : slots.get? i = some (e, w)) :
    StateTrie.readValue store (joinTreeKey s i) w = .ok e := by
  have bound := slot_lt hs he
  have live : (Tree.stem v s slots).live scheme d p (.value (joinTreeKey s i) w) = some (.entry e) := by
    rw [live_stem, update_of_ne (by simp), slotRecords_join bound, he]
    simp
  have found := h _ (by rw [live]; simp)
  rw [live] at found
  change store.get? (valueKey (joinTreeKey s i) w) = _ at found
  rw [StateTrie.readValue, found]

theorem Has.slotEntries {v s : ℕ} {slots : Slots}
    (h : Has store ((Tree.stem v s slots).live scheme d p)) (hs : SlotsOf s slots) :
    StateTrie.slotEntries store s (storedSlots scheme slots).entries =
      .ok (slots.values.map Prod.fst) := by
  have run (l : List (ℕ × Entry × ℕ)) (hl : ∀ e ∈ l, slots.get? e.1 = some e.2) :
      StateTrie.slotEntries store s (l.map (fun e => (e.1, leafHash scheme e.2.1.value, e.2.2))) =
        .ok ((l.map Prod.snd).map Prod.fst) := by
    induction l with
    | nil => rfl
    | cons e l ih =>
      have here := h.readValue hs (hl e (by simp))
      have rest := ih (fun x hx => hl x (mem_cons_of_mem e hx))
      simp only [map_cons, StateTrie.slotEntries, here, rest, bind, Except.bind]
      rfl
  exact run slots.entries (fun e he => mem_entries.1 he)

theorem walk_eq {t : Tree} {n : ℕ} (depth pre : ℕ) (room : d + n = stemBits) (placed : t.Placed d p)
    (h : Has store (t.live scheme d p)) :
    walk store depth pre n (t.ref scheme) d p = .ok (t.entriesUnder depth pre d) := by
  induction t generalizing d p n with
  | nil => cases n <;> rfl
  | stem v s slots =>
    have read := h.readStem (r := ⟨v, (Tree.stem v s slots).hash scheme, true⟩) rfl
    have entries := h.slotEntries placed.2.2.2
    cases n with
    | zero =>
      simp only [Tree.ref, walk, read, bind, Except.bind, stemEntries, entries, Tree.entriesUnder]
      split_ifs <;> rfl
    | succ n =>
      simp only [Tree.ref, walk, read, bind, Except.bind, stemEntries, entries, Tree.entriesUnder]
      split_ifs <;> rfl
  | node v l r ihl ihr =>
    obtain ⟨hd, hl, hr, -⟩ := placed
    obtain ⟨n, rfl⟩ : ∃ m, n = m + 1 := ⟨n - 1, by omega⟩
    have read := h.readInternal (r := ⟨v, (Tree.node v l r).hash scheme, false⟩) rfl
    have left := ihl (n := n) (by omega) hl (h.left hl)
    have right := ihr (n := n) (by omega) hr (h.right hl hr)
    simp only [Tree.ref_node, walk, read, bind, Except.bind, Tree.entriesUnder]
    by_cases above : d < depth
    · simp only [above, if_true]
      by_cases zero : stemBit pre d = 0
      · simp only [zero, if_true, Nat.add_zero]
        exact left
      · simp only [stemBit_eq_one zero, if_false, Nat.one_ne_zero]
        exact right
    · simp only [above, if_false, left, right]
      rfl

end Has

section Entries

omit [TrieHash] in
theorem stemPrefix_le {s t a b : ℕ} (hab : a ≤ b) (hb : b ≤ stemBits)
    (h : stemPrefix s b = stemPrefix t b) : stemPrefix s a = stemPrefix t a := by
  induction b with
  | zero =>
    obtain rfl : a = 0 := by omega
    exact h
  | succ b ih =>
    by_cases last : a = b + 1
    · rw [last]
      exact h
    · exact ih (by omega) (by omega) (stemPrefix_of_succ (by omega) h).1

theorem Tree.mem_entriesUnder {t : Tree} {d p depth pre : ℕ} (hdepth : depth ≤ stemBits)
    (hpre : pre < 2 ^ stemBits) (placed : t.Placed d p)
    (along : ∀ s, stemPrefix s d = p → stemPrefix s (min d depth) = stemPrefix pre (min d depth))
    (e : Entry) : e ∈ t.entriesUnder depth pre d ↔
      (∃ w, (slotsAt e.path.1 d t).get? e.path.2 = some (e, w)) ∧
        stemPrefix e.path.1 depth = stemPrefix pre depth := by
  induction t generalizing d p with
  | nil => simp [entriesUnder, slotsAt]
  | stem v s slots =>
    obtain ⟨bound, -, -, slotsOf⟩ := placed
    have shares := sharesPrefix_iff bound hpre hdepth
    have members : e ∈ slots.values.map Prod.fst ↔
        ∃ w, (slotsAt e.path.1 d (.stem v s slots)).get? e.path.2 = some (e, w) := by
      rw [slotsAt]
      constructor
      · intro he
        obtain ⟨⟨x, w⟩, hx, rfl⟩ := mem_map.1 he
        obtain ⟨i, hi⟩ := mem_values.1 hx
        have path := slotsOf i _ hi
        simp only at path
        rw [path, if_pos rfl]
        exact ⟨w, hi⟩
      · rintro ⟨w, hw⟩
        split_ifs at hw with same
        · exact mem_map.2 ⟨(e, w), mem_values.2 ⟨_, hw⟩, rfl⟩
        · simp at hw
    have stem (h : ∃ w, (slotsAt e.path.1 d (.stem v s slots)).get? e.path.2 = some (e, w)) :
        e.path.1 = s := by
      obtain ⟨w, hw⟩ := h
      rw [slotsAt] at hw
      split_ifs at hw with same
      · exact same.symm
      · simp at hw
    rw [entriesUnder]
    by_cases share : sharesPrefix s pre depth = true
    · rw [if_pos share, members]
      refine (and_iff_left_of_imp fun h => ?_).symm
      rw [stem h]
      exact shares.1 share
    · rw [if_neg share]
      refine iff_of_false (not_mem_nil) ?_
      rintro ⟨h, same⟩
      rw [stem h] at same
      exact share (shares.2 same)
  | node v l r ihl ihr =>
    obtain ⟨hd, hl, hr, -⟩ := placed
    have up {s q : ℕ} (h : stemPrefix s (d + 1) = 2 * p + q) (hq : q < 2) :
        stemPrefix s d = p ∧ stemBit s d = q := by
      rw [stemPrefix_succ _ hd] at h
      have := stemBit_lt s d
      omega
    rw [entriesUnder]
    by_cases above : d < depth
    · -- Only the side the prefix takes can share it.
      have along' (q : ℕ) (hq : q < 2) (hbit : stemBit pre d = q) (s : ℕ)
          (h : stemPrefix s (d + 1) = 2 * p + q) :
          stemPrefix s (min (d + 1) depth) = stemPrefix pre (min (d + 1) depth) := by
        have here := along s (up h hq).1
        rw [min_eq_left above.le] at here
        rw [min_eq_left (Nat.succ_le_of_lt above), stemPrefix_succ s hd, stemPrefix_succ pre hd, here,
          (up h hq).2, hbit]
      have bits (h : stemPrefix e.path.1 depth = stemPrefix pre depth) :
          stemBit e.path.1 d = stemBit pre d :=
        (stemPrefix_of_succ hd (stemPrefix_le (Nat.succ_le_of_lt above) hdepth h)).2
      rw [if_pos above, slotsAt]
      by_cases zero : stemBit pre d = 0
      · rw [if_pos zero, ihl hl (along' 0 (by omega) zero)]
        refine and_congr_left fun same => ?_
        rw [if_pos ((bits same).trans zero)]
      · rw [if_neg zero, ihr hr (along' 1 (by omega) (stemBit_eq_one zero))]
        refine and_congr_left fun same => ?_
        rw [if_neg ((bits same).trans_ne zero)]
    · have along' (q : ℕ) (hq : q < 2) (s : ℕ) (h : stemPrefix s (d + 1) = 2 * p + q) :
          stemPrefix s (min (d + 1) depth) = stemPrefix pre (min (d + 1) depth) := by
        have here := along s (up h hq).1
        rw [min_eq_right (not_lt.1 above)] at here
        rw [min_eq_right (by omega)]
        exact here
      have side {t : Tree} {q : ℕ} (ht : t.Placed (d + 1) (2 * p + q)) (hq : q < 2)
          (h : ∃ w, (slotsAt e.path.1 (d + 1) t).get? e.path.2 = some (e, w)) :
          stemBit e.path.1 d = q := by
        obtain ⟨w, hw⟩ := h
        have look := (find_stems e.path.1 ht).1
        cases found : SortedMap.find t.stems e.path.1 with
        | none =>
          rw [found] at look
          rw [← look] at hw
          simp at hw
        | some slots =>
          exact (under_stems ht).bit hd hq _ (mem_map_of_mem (mem_of_find found))
      rw [if_neg above, mem_append, ihl hl (along' 0 (by omega)), ihr hr (along' 1 (by omega)),
        slotsAt, ← or_and_right]
      refine and_congr_left (fun _ => ?_)
      by_cases zero : stemBit e.path.1 d = 0
      · rw [if_pos zero]
        refine or_iff_left fun h => ?_
        have := side hr (by omega) h
        omega
      · rw [if_neg zero]
        exact or_iff_right fun h => zero (side (q := 0) hl (by omega) h)

theorem Tree.mem_entries {t : Tree} (placed : t.Placed 0 0) (e : Entry) :
    e ∈ t.entries ↔ t.Holds e := by
  have zero : (0 : ℕ) < 2 ^ stemBits := Nat.two_pow_pos _
  rw [Tree.entries, mem_entriesUnder (Nat.zero_le _) zero placed (fun s h => by simpa [stemPrefix] using h)]
  have bound := (pathOf_lt e.ns e.key).1
  change e.path.1 < _ at bound
  simp only [stemPrefix_zero bound, stemPrefix_zero zero, and_true]
  rfl

end Entries

end Tenzro.StateTrie
