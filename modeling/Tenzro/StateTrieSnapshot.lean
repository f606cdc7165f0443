import Tenzro.StateTrieBuckets
import Tenzro.StateTrieProofSound

set_option autoImplicit false
set_option linter.dupNamespace false

/-!
# Snapshots are sound and complete

A manifest that folds to the root of a map, with entries that verify for each
of its buckets, is that map.
-/
namespace Tenzro
open List
namespace StateTrie
variable [TrieHash] {scheme : HashScheme} {store : Store}

namespace Tree

def buckets (scheme : HashScheme) : ℕ → ℕ → Tree → List BucketSummary
  | _, _, nil => []
  | _, _, stem v s slots => [⟨bucketOf s, (stem v s slots).subtree scheme⟩]
  | 0, p, node v l r => [⟨p, (node v l r).subtree scheme⟩]
  | n + 1, p, node _ l r => l.buckets scheme n (2 * p) ++ r.buckets scheme n (2 * p + 1)

end Tree

section Collect
variable {d p n : ℕ}

omit [TrieHash] in
theorem bucketOf_path (p : ℕ) : bucketOf (p * 2 ^ (stemBits - bucketDepth)) = p :=
  Nat.mul_div_cancel _ (Nat.two_pow_pos _)

theorem collectBuckets_eq {t : Tree} (hn : d + n = bucketDepth) (placed : t.Placed d p)
    (h : Has store (t.live scheme d p)) :
    collectBuckets store n (t.ref scheme) d p = .ok (t.buckets scheme n p) := by
  induction t generalizing d p n with
  | nil => cases n <;> rfl
  | stem v s slots =>
    have read := h.readStem (r := ⟨v, (Tree.stem v s slots).hash scheme, true⟩) rfl
    cases n with
    | zero =>
      simp only [Tree.ref, collectBuckets, if_true, read, bind, Except.bind]
      rfl
    | succ n =>
      simp only [Tree.ref, collectBuckets, if_true, read, bind, Except.bind]
      rfl
  | node v l r ihl ihr =>
    obtain ⟨-, hl, hr, -⟩ := placed
    have read := h.readInternal (r := ⟨v, (Tree.node v l r).hash scheme, false⟩) rfl
    cases n with
    | zero =>
      obtain rfl : d = bucketDepth := by omega
      simp only [Tree.ref_node, collectBuckets, Bool.false_eq_true, if_false, bucketOf_path]
      rfl
    | succ n =>
      have left := ihl (n := n) (by omega) hl (h.left hl)
      have right := ihr (n := n) (by omega) hr (h.right hl hr)
      simp only [Tree.ref_node, collectBuckets, Bool.false_eq_true, if_false, read, bind, Except.bind,
        left, right]
      rfl

theorem Tree.summary_under {t : Tree} (placed : t.Placed d p) :
    Under d p ((t.summary scheme).map Prod.fst) := by
  have fsts : (t.summary scheme).map Prod.fst = t.stems.map Prod.fst := by
    simp [summary]
  rw [fsts]
  exact under_stems placed

theorem bucketSubtree_apart {stems : List (ℕ × Digest)} (hn : d + n = bucketDepth)
    (h : Under d p (stems.map Prod.fst)) {j : ℕ} (filled : bucketSubtree scheme stems j ≠ .empty) :
    j / 2 ^ n = p := by
  by_contra apart
  refine filled ?_
  rw [bucketSubtree, filter_bucket_nil hn h apart, buildSubtree_nil]

theorem Tree.mem_buckets {t : Tree} (hn : d + n = bucketDepth) (placed : t.Placed d p) (j : ℕ)
    (x : Subtree) : ⟨j, x⟩ ∈ t.buckets scheme n p ↔
      x ≠ .empty ∧ bucketSubtree scheme (t.summary scheme) j = x := by
  induction t generalizing d p n with
  | nil =>
    simp only [buckets, not_mem_nil, false_iff]
    rintro ⟨filled, rfl⟩
    exact filled (buildSubtree_nil _ _)
  | stem v s slots =>
    have single : bucketSubtree scheme ((stem v s slots).summary scheme) j =
        if bucketOf s = j then (stem v s slots).subtree scheme else .empty := by
      unfold bucketSubtree summary stems
      by_cases here : bucketOf s = j
      · simp [here, subtree]
      · simp [here]
    rw [single]
    cases n <;>
    · simp only [buckets, mem_singleton, BucketSummary.mk.injEq]
      by_cases here : bucketOf s = j
      · simp only [here, true_and, if_true]
        constructor
        · rintro rfl
          exact ⟨by simp [subtree], rfl⟩
        · exact fun both => both.2.symm
      · simp only [here, if_false]
        constructor
        · exact fun both => absurd both.1.symm here
        · exact fun both => absurd both.2.symm both.1
  | node v l r ihl ihr =>
    have whole := @summary_under _ scheme _ _ _ placed
    have made : buildSubtree scheme (stemBits - d) d ((node v l r).summary scheme) =
        (node v l r).subtree scheme := buildSubtree_summary (by omega) placed
    obtain ⟨hd, hl, hr, -⟩ := placed
    cases n with
    | zero =>
      obtain rfl : d = bucketDepth := by omega
      simp only [buckets, mem_singleton, BucketSummary.mk.injEq]
      by_cases here : j = p
      · have all : ((node v l r).summary scheme).filter (fun s => decide (bucketOf s.1 = j)) =
            (node v l r).summary scheme := by
          refine filter_eq_self.2 ?_
          intro s hs
          rw [here]
          exact decide_eq_true (whole.prefixed s.1 (mem_map_of_mem hs)).2
        rw [bucketSubtree, all, made]
        constructor
        · rintro ⟨-, rfl⟩
          exact ⟨by simp [subtree], rfl⟩
        · exact fun both => ⟨here, both.2.symm⟩
      · constructor
        · exact fun both => absurd both.1 here
        · rintro ⟨filled, rfl⟩
          have := bucketSubtree_apart hn whole filled
          simp only [pow_zero, Nat.div_one] at this
          exact absurd this here
    | succ n =>
      have underl := @summary_under _ scheme _ _ _ hl
      have underr := @summary_under _ scheme _ _ _ hr
      have both : (node v l r).summary scheme = l.summary scheme ++ r.summary scheme := by
        simp [summary, stems]
      simp only [buckets, mem_append, ihl (n := n) (by omega) hl, ihr (n := n) (by omega) hr, both]
      -- A bucket's stems are on one side.
      have sides : (r.summary scheme).filter (fun s => decide (bucketOf s.1 = j)) = [] ∨
          (l.summary scheme).filter (fun s => decide (bucketOf s.1 = j)) = [] := by
        by_cases left : j / 2 ^ n = 2 * p
        · exact .inl (filter_bucket_nil (k := n) (by omega) underr (by omega))
        · exact .inr (filter_bucket_nil (k := n) (by omega) underl left)
      have absent {stems : List (ℕ × Digest)}
          (none : stems.filter (fun s => decide (bucketOf s.1 = j)) = []) :
          ¬ (x ≠ .empty ∧ bucketSubtree scheme stems j = x) := by
        rintro ⟨filled, rfl⟩
        exact filled (by rw [bucketSubtree, none, buildSubtree_nil])
      rcases sides with none | none
      · have here : bucketSubtree scheme (l.summary scheme ++ r.summary scheme) j =
            bucketSubtree scheme (l.summary scheme) j := by
          rw [bucketSubtree, filter_append, none, append_nil, bucketSubtree]
        rw [here]
        exact or_iff_left (absent none)
      · have here : bucketSubtree scheme (l.summary scheme ++ r.summary scheme) j =
            bucketSubtree scheme (r.summary scheme) j := by
          rw [bucketSubtree, filter_append, none, nil_append, bucketSubtree]
        rw [here]
        exact or_iff_right (absent none)

theorem Tree.buckets_index {t : Tree} (hn : d + n = bucketDepth) (placed : t.Placed d p)
    {b : BucketSummary} (hb : b ∈ t.buckets scheme n p) : b.index / 2 ^ n = p := by
  obtain ⟨filled, made⟩ := (mem_buckets hn placed b.index b.subtree).1 hb
  rw [← made] at filled
  exact bucketSubtree_apart hn (summary_under placed) filled

theorem Tree.buckets_sorted {t : Tree} (hn : d + n = bucketDepth) (placed : t.Placed d p) :
    ((t.buckets scheme n p).map BucketSummary.index).Pairwise (· < ·) := by
  induction t generalizing d p n with
  | nil => simp [buckets]
  | stem v s slots => cases n <;> simp [buckets]
  | node v l r ihl ihr =>
    obtain ⟨-, hl, hr, -⟩ := placed
    cases n with
    | zero => simp [buckets]
    | succ n =>
      rw [buckets, map_append, pairwise_append]
      refine ⟨ihl (by omega) hl, ihr (by omega) hr, ?_⟩
      intro i hi j hj
      obtain ⟨a, ha, rfl⟩ := mem_map.1 hi
      obtain ⟨b, hb, rfl⟩ := mem_map.1 hj
      have left := buckets_index (by omega) hl ha
      have right := buckets_index (by omega) hr hb
      by_contra no
      have := Nat.div_le_div_right (c := 2 ^ n) (not_lt.1 no)
      omega

end Collect

section Served
variable {d p : ℕ}

theorem Entry.treeKey_eq (e : Entry) : e.treeKey = joinTreeKey e.path.1 e.path.2 :=
  (joinTreeKey_split _).symm

theorem Entry.slot_lt (e : Entry) : e.path.2 < slotCount := (pathOf_lt e.ns e.key).2

theorem Entry.treeKey_lt {a b : Entry} (h : a.path.1 < b.path.1) : a.treeKey < b.treeKey := by
  rw [a.treeKey_eq, b.treeKey_eq]
  exact (joinTreeKey_lt a.slot_lt b.slot_lt).2 (.inl h)

theorem Entry.path_inj {a b : Entry} (h : a.path = b.path) : a.treeKey = b.treeKey := by
  rw [a.treeKey_eq, b.treeKey_eq, h]

theorem nodup_of_treeKeys {entries : List Entry}
    (sorted : (entries.map Entry.treeKey).Pairwise (· < ·)) : (entries.map Entry.path).Nodup := by
  rw [pairwise_map] at sorted
  rw [List.Nodup, pairwise_map]
  refine sorted.imp ?_
  intro a b before same
  exact before.ne (Entry.path_inj same)

theorem Tree.prefix_entriesUnder {t : Tree} {depth pre : ℕ} (placed : t.Placed d p) {e : Entry}
    (he : e ∈ t.entriesUnder depth pre d) : stemPrefix e.path.1 d = p := by
  induction t generalizing d p with
  | nil => simp [entriesUnder] at he
  | stem v s slots =>
    obtain ⟨-, here, -, slotsOf⟩ := placed
    rw [entriesUnder] at he
    split_ifs at he
    · obtain ⟨x, hx, rfl⟩ := mem_map.1 he
      obtain ⟨i, hi⟩ := SortedMap.mem_values.1 hx
      rw [slotsOf i x hi]
      exact here
    · simp at he
  | node v l r ihl ihr =>
    obtain ⟨hd, hl, hr, -⟩ := placed
    have up {b : ℕ} (hb : b < 2) (h : stemPrefix e.path.1 (d + 1) = 2 * p + b) :
        stemPrefix e.path.1 d = p := by
      rw [stemPrefix_succ _ hd] at h
      have := stemBit_lt e.path.1 d
      omega
    have either : e ∈ l.entriesUnder depth pre (d + 1) ∨ e ∈ r.entriesUnder depth pre (d + 1) := by
      rw [entriesUnder] at he
      split_ifs at he
      · exact .inl he
      · exact .inr he
      · exact mem_append.1 he
    cases either with
    | inl left => exact up (b := 0) (by omega) (ihl hl left)
    | inr right => exact up (by omega) (ihr hr right)

theorem Tree.entriesUnder_sorted {t : Tree} (depth pre : ℕ) (placed : t.Placed d p) :
    ((t.entriesUnder depth pre d).map Entry.treeKey).Pairwise (· < ·) := by
  induction t generalizing d p with
  | nil => simp [entriesUnder]
  | stem v s slots =>
    obtain ⟨-, -, -, slotsOf⟩ := placed
    rw [entriesUnder]
    split_ifs
    · rw [SortedMap.values, map_map, map_map, pairwise_map]
      refine slots.sorted.imp_of_mem ?_
      intro a b ha hb before
      have patha := slotsOf a.1 a.2 (SortedMap.mem_entries.1 ha)
      have pathb := slotsOf b.1 b.2 (SortedMap.mem_entries.1 hb)
      have slota := a.2.1.slot_lt
      have slotb := b.2.1.slot_lt
      simp only [Function.comp_apply, Entry.treeKey_eq, patha, pathb] at slota slotb ⊢
      exact (joinTreeKey_lt slota slotb).2 (.inr ⟨rfl, before⟩)
    · simp
  | node v l r ihl ihr =>
    obtain ⟨hd, hl, hr, -⟩ := placed
    rw [entriesUnder]
    split_ifs
    · exact ihl hl
    · exact ihr hr
    · rw [map_append, pairwise_append]
      refine ⟨ihl hl, ihr hr, ?_⟩
      intro x hx y hy
      obtain ⟨a, ha, rfl⟩ := mem_map.1 hx
      obtain ⟨b, hb, rfl⟩ := mem_map.1 hy
      refine Entry.treeKey_lt (@lt_of_stemPrefix_lt _ _ (d + 1) ?_)
      rw [prefix_entriesUnder hl ha, prefix_entriesUnder hr hb]
      omega

omit [TrieHash] in
theorem bucketPrefix_lt (index : ℕ) : bucketPrefix index < 2 ^ stemBits := by
  have := bucketDepth_le
  have room : 2 ^ stemBits = 2 ^ bucketDepth * 2 ^ (stemBits - bucketDepth) := by
    rw [← pow_add]
    congr 1
    omega
  rw [bucketPrefix, room]
  exact Nat.mul_lt_mul_of_pos_right (Nat.mod_lt _ (Nat.two_pow_pos _)) (Nat.two_pow_pos _)

theorem Tree.mem_bucketEntries {t : Tree} (placed : t.Placed 0 0) {index : ℕ}
    (hi : index < bucketCount) (e : Entry) :
    e ∈ t.entriesUnder bucketDepth (bucketPrefix index) 0 ↔ t.Holds e ∧ bucketOf e.path.1 = index := by
  have start : stemPrefix (bucketPrefix index) bucketDepth = index := by
    rw [bucketPrefix, Nat.mod_eq_of_lt hi]
    exact bucketOf_path index
  rw [mem_entriesUnder bucketDepth_le (bucketPrefix_lt index) placed, start]
  · rfl
  · intro s hs
    have zero : stemPrefix (bucketPrefix index) 0 = 0 := stemPrefix_zero (bucketPrefix_lt index)
    rw [Nat.zero_min, hs, zero]

theorem Sound.buckets {x : Versions} (h : Sound store x) {v : ℕ} {t : Tree} (ht : x.tree v = some t) :
    ∃ buckets, bucketSummaries store v = .ok buckets ∧
      rootFromBuckets (x.scheme v) buckets = .ok (t.hash (x.scheme v)) ∧
      ∀ b ∈ buckets, ∃ entries, bucketEntries store v b.index = .ok entries ∧
        verifyBucket (x.scheme v) b.index entries b.subtree = .ok () := by
  have placed := h.placed v t ht
  have has : Has store (t.live (x.scheme v) 0 0) := fun k live => (h.held v t ht k live).2
  have root : requireRoot store v = .ok (t.ref (x.scheme v)) := by
    simp only [requireRoot, h.rootRef, ht, bind, Except.bind]
    rfl
  have under := @Tree.summary_under _ (x.scheme v) _ _ _ placed
  have range : ∀ b ∈ t.buckets (x.scheme v) bucketDepth 0, b.index < bucketCount := by
    intro b hb
    have := Tree.buckets_index (Nat.zero_add _) placed hb
    by_contra high
    have := (Nat.div_pos_iff (b := 2 ^ bucketDepth)).2 ⟨Nat.two_pow_pos _, not_lt.1 high⟩
    omega
  refine ⟨t.buckets (x.scheme v) bucketDepth 0, ?_, ?_, ?_⟩
  · simp only [bucketSummaries, root, bind, Except.bind]
    exact collectBuckets_eq (Nat.zero_add _) placed has
  · have folded := rootFromBuckets_eq under (Tree.buckets_sorted (Nat.zero_add _) placed)
      (fun i y mem => ⟨range _ mem, (Tree.mem_buckets (Nat.zero_add _) placed i y).1 mem⟩) (by
        intro i none
        by_contra filled
        exact none _ ((Tree.mem_buckets (Nat.zero_add _) placed i _).2 ⟨filled, rfl⟩) rfl)
    rw [folded, Tree.buildSubtree_summary (by omega) placed]
    rfl
  · intro b hb
    have here := Tree.mem_bucketEntries placed (range b hb)
    have sorted := Tree.entriesUnder_sorted bucketDepth (bucketPrefix b.index) placed
    refine ⟨t.entriesUnder bucketDepth (bucketPrefix b.index) 0, ?_, verifyBucket_ok.2 ⟨?_, sorted, ?_⟩⟩
    · simp only [bucketEntries, StateTrie.forEachEntry, root, bind, Except.bind]
      exact walk_eq _ _ (Nat.zero_add _) placed has
    · intro e he
      exact ⟨h.committed v t ht e ((here e).1 he).1, ((here e).1 he).2⟩
    · have paths : (t.entries.map Entry.path).Nodup :=
        nodup_of_treeKeys (Tree.entriesUnder_sorted 0 0 placed)
      have stems : stemsOf (x.scheme v) (t.entriesUnder bucketDepth (bucketPrefix b.index) 0) =
          (t.summary (x.scheme v)).filter (fun s => decide (bucketOf s.1 = b.index)) := by
        rw [Tree.summary_eq_stemsOf placed paths.of_map (Tree.mem_entries placed),
          ← stemsOf_filter paths (fun s => decide (bucketOf s = b.index))]
        refine stemsOf_congr (nodup_of_treeKeys sorted) (paths.sublist (filter_sublist.map _)) ?_
        intro e
        rw [here e, mem_filter, ← Tree.mem_entries placed, decide_eq_true_iff]
      rw [stems]
      exact ((Tree.mem_buckets (Nat.zero_add _) placed b.index b.subtree).1 hb).2

end Served

section Listed
variable {buckets : List BucketSummary} {lists : List (List Entry)}

def Verified (scheme : HashScheme) (buckets : List BucketSummary) (lists : List (List Entry)) : Prop :=
  List.Forall₂ (fun b entries => verifyBucket scheme b.index entries b.subtree = .ok ()) buckets lists

theorem Verified.committed (h : Verified scheme buckets lists) :
    ∀ entries ∈ lists, ∀ e ∈ entries, isCommittedNamespace e.ns = true := by
  induction h with
  | nil => simp
  | @cons b entries buckets lists verified _ ih =>
    refine forall_mem_cons.2 ⟨?_, ih⟩
    exact fun e he => ((verifyBucket_ok.1 verified).1 e he).1

theorem Verified.flatten_sorted (h : Verified scheme buckets lists)
    (sorted : (buckets.map BucketSummary.index).Pairwise (· < ·)) :
    (lists.flatten.map Entry.treeKey).Pairwise (· < ·) ∧
      ∀ e ∈ lists.flatten, ∃ b ∈ buckets, bucketOf e.path.1 = b.index := by
  induction h with
  | nil => simp
  | @cons b entries buckets lists verified _ ih =>
    rw [map_cons, pairwise_cons] at sorted
    obtain ⟨rest, indexed⟩ := ih sorted.2
    obtain ⟨each, own, -⟩ := verifyBucket_ok.1 verified
    constructor
    · rw [flatten_cons, map_append, pairwise_append]
      refine ⟨own, rest, ?_⟩
      intro x hx y hy
      obtain ⟨e, he, rfl⟩ := mem_map.1 hx
      obtain ⟨e', he', rfl⟩ := mem_map.1 hy
      obtain ⟨b', hb', index'⟩ := indexed e' he'
      refine Entry.treeKey_lt (@lt_of_stemPrefix_lt _ _ bucketDepth ?_)
      change bucketOf e.path.1 < bucketOf e'.path.1
      rw [(each e he).2, index']
      exact sorted.1 _ (mem_map_of_mem hb')
    · intro e he
      rw [flatten_cons, mem_append] at he
      cases he with
      | inl here => exact ⟨b, by simp, (each e here).2⟩
      | inr later =>
        obtain ⟨b', hb', index⟩ := indexed e later
        exact ⟨b', mem_cons_of_mem _ hb', index⟩

theorem Verified.mem_list (h : Verified scheme buckets lists)
    (sorted : (buckets.map BucketSummary.index).Pairwise (· < ·)) {b : BucketSummary} (hb : b ∈ buckets) :
    ∃ entries, verifyBucket scheme b.index entries b.subtree = .ok () ∧
      ∀ e, e ∈ entries ↔ e ∈ lists.flatten ∧ bucketOf e.path.1 = b.index := by
  induction h with
  | nil => cases hb
  | @cons a entries buckets lists verified tail ih =>
    rw [map_cons, pairwise_cons] at sorted
    obtain ⟨-, indexed⟩ := Verified.flatten_sorted tail sorted.2
    obtain ⟨each, -, -⟩ := verifyBucket_ok.1 verified
    cases mem_cons.1 hb with
    | inl here =>
      subst here
      refine ⟨entries, verified, ?_⟩
      intro e
      rw [flatten_cons, mem_append]
      constructor
      · exact fun he => ⟨.inl he, (each e he).2⟩
      · rintro ⟨here | later, index⟩
        · exact here
        · obtain ⟨b', hb', index'⟩ := indexed e later
          have := sorted.1 _ (mem_map_of_mem hb')
          omega
    | inr later =>
      obtain ⟨list, verified', mem⟩ := ih sorted.2 later
      refine ⟨list, verified', ?_⟩
      intro e
      rw [mem e, flatten_cons, mem_append]
      constructor
      · exact fun both => ⟨.inr both.1, both.2⟩
      · rintro ⟨here | there, index⟩
        · have own := (each e here).2
          have := sorted.1 _ (mem_map_of_mem later)
          omega
        · exact ⟨there, index⟩

theorem Verified.root (h : Verified scheme buckets lists) {root : Digest}
    (folds : rootFromBuckets scheme buckets = .ok root) :
    (lists.flatten.map Entry.path).Nodup ∧ root = rootOfEntries scheme lists.flatten := by
  have listed : ∃ level, placeBuckets none buckets (List.replicate bucketCount .empty) = .ok level := by
    cases placed : placeBuckets none buckets (List.replicate bucketCount .empty) with
    | error e =>
      simp only [rootFromBuckets, placed, bind, Except.bind] at folds
      cases folds
    | ok level => exact ⟨level, rfl⟩
  obtain ⟨level, placed⟩ := listed
  obtain ⟨each, sorted, -⟩ := placeBuckets_ok.1 placed
  obtain ⟨keys, indexed⟩ := h.flatten_sorted sorted
  have paths := nodup_of_treeKeys keys
  have cut (i : ℕ) : bucketSubtree scheme (stemsOf scheme lists.flatten) i =
      buildSubtree scheme (stemBits - bucketDepth) bucketDepth
        (stemsOf scheme (lists.flatten.filter (fun e => decide (bucketOf e.path.1 = i)))) := by
    rw [stemsOf_filter paths (fun s => decide (bucketOf s = i))]
    rfl
  have same := @rootFromBuckets_eq _ scheme _ _ (under_stemsOf paths) sorted (by
      intro i x mem
      obtain ⟨low, -, filled⟩ := each _ mem
      refine ⟨low, filled, ?_⟩
      obtain ⟨entries, verified, inside⟩ := h.mem_list sorted mem
      obtain ⟨-, own, made⟩ := verifyBucket_ok.1 verified
      refine Eq.trans ?_ made
      rw [cut]
      congr 1
      refine stemsOf_congr (paths.sublist (filter_sublist.map _)) (nodup_of_treeKeys own) ?_
      intro e
      rw [inside e, mem_filter, decide_eq_true_iff])
    (by
      intro i none
      have nothing : lists.flatten.filter (fun e => decide (bucketOf e.path.1 = i)) = [] := by
        refine filter_eq_nil_iff.2 ?_
        intro e he index
        obtain ⟨b, hb, own⟩ := indexed e he
        exact none b hb (own.symm.trans (of_decide_eq_true index))
      rw [cut, nothing]
      exact buildSubtree_nil _ _)
  rw [same] at folds
  exact ⟨paths, (Except.ok.inj folds).symm⟩

theorem Ideal.same_entries (ideal : Ideal scheme) {keys : Set (String × List ℕ)}
    (inj : Set.InjOn treeKeyOf keys) {a b : List Entry} (ha : (a.map Entry.path).Nodup)
    (hb : (b.map Entry.path).Nodup) (keysa : ∀ e ∈ a, (e.ns, e.key) ∈ keys)
    (keysb : ∀ e ∈ b, (e.ns, e.key) ∈ keys) (h : rootOfEntries scheme a = rootOfEntries scheme b)
    {e : Entry} (he : e ∈ a) : e ∈ b := by
  have stems := ideal.buildSubtree_injective (Nat.le_add_left _ _) (under_stemsOf ha) (under_stemsOf hb) h
  obtain ⟨e', he', path, value⟩ := ideal.same_slots ha hb stems he
  have key := same_key inj (keysb e' he') (keysa e he) path
  have same : e' = e := by
    rw [Prod.mk.injEq] at key
    cases e
    cases e'
    simp_all
  exact same ▸ he'

end Listed

section Import

omit [TrieHash] in
theorem Contents.writeAll_writesOf (c : Contents) (entries : List Entry) :
    c.writeAll (writesOf entries) =
      entries.foldl (fun c e => c.insert (toLex (e.ns, e.key)) e.value) c := by
  refine SortedMap.ext_get? (fun k => ?_)
  rw [Contents.get?_writeAll]
  induction entries using List.reverseRecOn with
  | nil => rfl
  | append_singleton entries e ih =>
    have last : writesOf (entries ++ [e]) =
        (writesOf entries).insert (toLex (e.ns, e.key)) (some e.value) := by
      simp [writesOf]
    rw [last, foldl_append, foldl_cons, foldl_nil, SortedMap.get?_insert,
      SortedMap.get?_insert]
    split_ifs
    · rfl
    · exact ih

omit [TrieHash] in
theorem Contents.foldl_insert_eq {c : Contents} {entries : List Entry}
    (mem : ∀ e, e ∈ entries ↔ c.get? (toLex (e.ns, e.key)) = some e.value) :
    entries.foldl (fun c e => c.insert (toLex (e.ns, e.key)) e.value) .empty = c := by
  have fold (l : List Entry) (sub : ∀ e ∈ l, c.get? (toLex (e.ns, e.key)) = some e.value)
      (start : Contents) (k : Lex (String × List ℕ)) :
      (l.foldl (fun c e => c.insert (toLex (e.ns, e.key)) e.value) start).get? k =
        if ∃ e ∈ l, toLex (e.ns, e.key) = k then c.get? k else start.get? k := by
    induction l generalizing start with
    | nil => simp
    | cons e l ih =>
      rw [foldl_cons, ih (fun x hx => sub x (mem_cons_of_mem e hx)), SortedMap.get?_insert]
      by_cases later : ∃ x ∈ l, toLex (x.ns, x.key) = k
      · have some : ∃ x ∈ e :: l, toLex (x.ns, x.key) = k := by
          obtain ⟨x, hx, same⟩ := later
          exact ⟨x, mem_cons_of_mem e hx, same⟩
        rw [if_pos later, if_pos some]
      · rw [if_neg later]
        by_cases here : k = toLex (e.ns, e.key)
        · rw [if_pos here, if_pos ⟨e, by simp, here.symm⟩, here]
          exact (sub e (by simp)).symm
        · have none : ¬ ∃ x ∈ e :: l, toLex (x.ns, x.key) = k := by
            rintro ⟨x, hx, same⟩
            cases mem_cons.1 hx with
            | inl first =>
              subst first
              exact here same.symm
            | inr rest => exact later ⟨x, rest, same⟩
          rw [if_neg here, if_neg none]
  refine SortedMap.ext_get? (fun k => ?_)
  rw [fold entries (fun e he => (mem e).1 he)]
  split_ifs with named
  · rfl
  · cases found : c.get? k with
    | none => rfl
    | some value =>
      have entry := (mem ⟨(ofLex k).1, (ofLex k).2, value⟩).2 found
      exact absurd ⟨_, entry, rfl⟩ named

/-- Commits the buckets of a snapshot at its version one by one; one without buckets still needs
its version. -/
def importOps (version : ℕ) (lists : List (List Entry)) : List Op :=
  if lists.isEmpty then [.commit version .empty]
  else lists.map (fun entries => .commit version (writesOf entries))

theorem sound_adopted {v : ℕ} {start : Store} (adopted : adoptScheme .empty v scheme = .ok start) :
    ∃ x, Sound start x ∧ x.latest = none ∧ (∀ w, x.tree w = none) ∧ (∀ e ∈ x.schemes, e.1 ≤ v) ∧
      x.scheme v = scheme := by
  have first : schemeAt .empty v = .ok .sha256 := by
    simp [schemeAt, schemes, schemeFrom, bind, Except.bind, SortedMap.get?, SortedMap.empty,
      SortedMap.find]
    rfl
  by_cases same : HashScheme.sha256 = scheme
  · have kept : start = .empty := by
      simp only [adoptScheme, first, bind, Except.bind, same, if_true] at adopted
      exact (Except.ok.inj adopted).symm
    subst kept
    refine ⟨Versions.empty, sound_empty, rfl, fun _ => rfl, ?_, ?_⟩
    · intro e he
      cases he
    · rw [← same]
      rfl
  · have entered : start = (SortedMap.empty : Store).insert schemesKey (.schemes [(v, scheme)]) := by
      simp only [adoptScheme, first, bind, Except.bind, same, if_false] at adopted
      exact (Except.ok.inj adopted).symm
    subst entered
    have other {key : List ℕ} (ne : key ≠ schemesKey) :
        ((SortedMap.empty : Store).insert schemesKey (.schemes [(v, scheme)])).get? key = none := by
      rw [SortedMap.get?_insert_of_ne _ _ ne, SortedMap.get?_empty]
    have data (k : DataKey) : k.key ≠ schemesKey := by
      cases k <;> simp [DataKey.key, pathKey, valueKey, schemesKey]
    have stale (u : ℕ) (k : DataKey) : staleKey u k.key ≠ schemesKey := by
      simp [staleKey, schemesKey]
    refine ⟨⟨none, [(v, scheme)], fun _ => none⟩, ?_, rfl, fun _ => rfl, by simp, ?_⟩
    · constructor
      case schemes => simp [schemes]
      case schemesLe => exact fun l hl => by cases hl
      case latest => exact other (by simp [latestKey, schemesKey])
      case roots => exact fun w => other (by simp [rootKey, schemesKey])
      case current => exact fun l hl => by cases hl
      case bounded => exact fun w t ht => by cases ht
      case placed => exact fun w t ht => by cases ht
      case committed => exact fun w t ht => by cases ht
      case held => exact fun w t ht => by cases ht
      case fresh => exact fun l t hl => by cases hl
      case above => exact fun k _ => other (data k)
      case keys =>
        intro key found
        by_cases here : key = schemesKey
        · rw [here]
          exact .schemes
        · exact absurd (other here) found
      case staleSound => exact fun u k found => absurd (other (stale u k)) found
      case staleFull => exact fun w w' t t' k ht => by cases ht
    · change schemeFrom v ([] ++ [(v, scheme)]) = scheme
      exact schemeFrom_append_self scheme (by simp)

theorem Sound.run_adopted {x : Versions} (h : Sound store x) {v : ℕ} (idle : x.latest = none)
    (none : ∀ w, x.tree w = none) (early : ∀ e ∈ x.schemes, e.1 ≤ v) (ops : List Op)
    (later : ∀ op ∈ ops, ∀ w, op.version? = some w → v ≤ w) :
    ∃ x', Sound (runOps store ops) x' := by
  induction ops generalizing store x with
  | nil => exact ⟨x, h⟩
  | cons op ops ih =>
    have rest := fun op hop => later op (mem_cons_of_mem _ hop)
    cases op with
    | commit w writes =>
      have base : x.base = some .nil := by
        rw [Versions.base, idle]
      by_cases can : Committed writes
      · obtain ⟨store', run, advance⟩ := h.commit base (fun l hl => by rw [idle] at hl; cases hl)
          (fun e he => (early e he).trans (later (.commit w writes) (by simp) w rfl)) can
        have next : (Op.commit w writes).next store = store' := by simp only [Op.next, run]
        have begun := (advance.sound h).run (fun no => by cases no) ops
        change ∃ x', Sound (runOps ((Op.commit w writes).next store) ops) x'
        rw [next]
        exact ⟨_, begun.1⟩
      · obtain ⟨e, he⟩ := h.commit_error w writes (.inr (.inr can))
        have next : (Op.commit w writes).next store = store := by simp only [Op.next, he]
        change ∃ x', Sound (runOps ((Op.commit w writes).next store) ops) x'
        rw [next]
        exact ih h idle none early rest
    | recommitUnder w scheme =>
      obtain ⟨e, he⟩ := h.recommit_error w scheme (.inl (by rw [idle]; rfl))
      have next : (Op.recommitUnder w scheme).next store = store := by simp only [Op.next, he]
      change ∃ x', Sound (runOps ((Op.recommitUnder w scheme).next store) ops) x'
      rw [next]
      exact ih h idle none early rest
    | prune keepFrom =>
      refine ih (h.prune keepFrom) idle ?_ early rest
      intro w
      change (if w < keepFrom then Option.none else x.tree w) = Option.none
      rw [none, ite_self]

theorem Sound.commitLists {keys : Set (String × List ℕ)} (inj : Set.InjOn treeKeyOf keys) {x : Versions}
    (h : Sound store x) {v : ℕ} {t : Tree} {c : Contents} (base : x.base = some t)
    (late : ∀ l, x.latest = some l → l ≤ v) (early : ∀ e ∈ x.schemes, e.1 ≤ v)
    (represents : t.Represents c) (held : ∀ k, c.get? (toLex k) ≠ none → k ∈ keys)
    {lists : List (List Entry)} (filled : lists ≠ [])
    (committed : ∀ e ∈ lists.flatten, isCommittedNamespace e.ns = true)
    (named : ∀ e ∈ lists.flatten, (e.ns, e.key) ∈ keys) :
    StateTrie.rootAt (runOps store (lists.map (fun entries => .commit v (writesOf entries)))) v =
      .ok (some (rootOfEntries (x.scheme v)
        (lists.flatten.foldl (fun c e => c.insert (toLex (e.ns, e.key)) e.value) c).entriesOf)) := by
  induction lists generalizing store x t c with
  | nil => exact absurd rfl filled
  | cons entries lists ih =>
    have own : ∀ e ∈ entries, (e.ns, e.key) ∈ keys := by
      exact fun e he => named e (by rw [flatten_cons]; exact mem_append_left _ he)
    have written : (writesOf entries).keySet ⊆ keys := by
      intro k hk
      obtain ⟨o, ho⟩ := Option.ne_none_iff_exists'.1 hk
      obtain ⟨e, he, same, -⟩ := mem_writesOf ho
      have : k = (e.ns, e.key) := toLex.injective same
      rw [this]
      exact own e he
    have writable : Committed (writesOf entries) :=
      committed_writesOf (fun e he => committed e
        (by rw [flatten_cons]; exact mem_append_left _ he))
    obtain ⟨store', run, advance⟩ := h.commit base late early writable
    have sound := advance.sound h
    have next : (Op.commit v (writesOf entries)).next store = store' := by simp only [Op.next, run]
    have stands := represents.commit (h.base_placed base) v (writesOf entries) inj held written
    have placed := advance.placed
    have scheme : (x.grow v x.schemes (t.putAll v (byStem (writesOf entries)).entries)).scheme v =
        x.scheme v := rfl
    rw [Contents.writeAll_writesOf] at stands
    rw [map_cons, flatten_cons, foldl_append]
    change StateTrie.rootAt (runOps ((Op.commit v (writesOf entries)).next store) _) v = _
    rw [next]
    by_cases last : lists = []
    · subst last
      change StateTrie.rootAt store' v = _
      have hash := stands.hash placed (x.scheme v)
      rw [sound.rootAt, Advance.tree_grow_self, Option.map_some, flatten_nil, foldl_nil,
        ← hash, scheme]
    · rw [ih sound (base_grow _ _ _ _) (fun l hl => by cases hl; exact le_rfl) early stands
        (by
          intro k hk
          rw [← Contents.writeAll_writesOf] at hk
          exact keys_writeAll held written k hk) last
        (fun e he => committed e (by rw [flatten_cons]; exact mem_append_right _ he))
        (fun e he => named e (by rw [flatten_cons]; exact mem_append_right _ he)), scheme]

theorem import_root {keys : Set (String × List ℕ)} (inj : Set.InjOn treeKeyOf keys) {v : ℕ}
    {start : Store} (adopted : adoptScheme .empty v scheme = .ok start) {c : Contents}
    {lists : List (List Entry)}
    (mem : ∀ e, e ∈ lists.flatten ↔ c.get? (toLex (e.ns, e.key)) = some e.value)
    (committed : ∀ e ∈ lists.flatten, isCommittedNamespace e.ns = true)
    (named : ∀ e ∈ lists.flatten, (e.ns, e.key) ∈ keys) :
    rootAt (runOps start (importOps v lists)) v = .ok (some (rootOfEntries scheme c.entriesOf)) := by
  obtain ⟨x, sound, idle, none, early, own⟩ := sound_adopted adopted
  have base : x.base = some .nil := by
    rw [Versions.base, idle]
  have late : ∀ l, x.latest = some l → l ≤ v := by
    intro l hl
    rw [idle] at hl
    cases hl
  unfold importOps
  rw [← own]
  -- Committing no entries is committing one empty list of them.
  by_cases empty : lists = []
  · subst empty
    have filled : ([[]] : List (List Entry)) ≠ [] := by simp
    have := sound.commitLists inj base late early represents_nil (by simp) filled (by simp) (by simp)
    rw [← Contents.foldl_insert_eq mem]
    exact this
  · have := sound.commitLists inj base late early represents_nil (by simp) empty committed named
    rw [Contents.foldl_insert_eq mem] at this
    simp only [List.isEmpty_iff, empty, if_false]
    exact this

end Import

/-- Every retained version is served by buckets that fold to its root and verify; a manifest that
folds to the root of a map, with entries that verify, is that map, and imports in any order to the
root. -/
theorem snapshot_buckets_sound_complete :
    (∀ (first : HashScheme) (since : ℕ) (start : Store) (ops : List Op),
      adoptScheme .empty since first = .ok start →
      (∀ op ∈ ops, ∀ v, op.version? = some v → since ≤ v) →
      ∀ v root, rootAt (runOps start ops) v = .ok (some root) → ∃ scheme buckets,
        schemeAt (runOps start ops) v = .ok scheme ∧
        bucketSummaries (runOps start ops) v = .ok buckets ∧
        rootFromBuckets scheme buckets = .ok root ∧
        ∀ b ∈ buckets, ∃ entries, bucketEntries (runOps start ops) v b.index = .ok entries ∧
          verifyBucket scheme b.index entries b.subtree = .ok ()) ∧
    ∀ scheme, Ideal scheme → ∀ (buckets : List BucketSummary) (lists : List (List Entry)) (c : Contents),
      Set.InjOn treeKeyOf ({ k | c.get? (toLex k) ≠ none } ∪
        { k | ∃ e ∈ lists.flatten, k = (e.ns, e.key) }) →
      rootFromBuckets scheme buckets = .ok (rootOfEntries scheme c.entriesOf) →
      List.Forall₂ (fun b entries => verifyBucket scheme b.index entries b.subtree = .ok ())
        buckets lists →
      (∀ e, e ∈ lists.flatten ↔ c.get? (toLex (e.ns, e.key)) = some e.value) ∧
      ∀ order, order.Perm lists → ∀ v start, adoptScheme .empty v scheme = .ok start →
        rootAt (runOps start (importOps v order)) v =
          .ok (some (rootOfEntries scheme c.entriesOf)) := by
  constructor
  · intro first since start ops adopted later v root retained
    obtain ⟨x, sound, idle, none, early, -⟩ := sound_adopted adopted
    obtain ⟨x', sound'⟩ := sound.run_adopted idle none early ops later
    rw [sound'.rootAt] at retained
    obtain ⟨t, ht, same⟩ := Option.map_eq_some_iff.1 (Except.ok.inj retained)
    obtain ⟨buckets, listed, folds, served⟩ := sound'.buckets ht
    rw [same] at folds
    exact ⟨x'.scheme v, buckets, sound'.schemeAt v, listed, folds, served⟩
  · intro scheme ideal buckets lists c inj folds verified
    have verified : Verified scheme buckets lists := verified
    obtain ⟨paths, root⟩ := verified.root folds
    have keysa : ∀ e ∈ lists.flatten, (e.ns, e.key) ∈
        ({ k | c.get? (toLex k) ≠ none } ∪ { k | ∃ e ∈ lists.flatten, k = (e.ns, e.key) }) :=
      fun e he => .inr ⟨e, he, rfl⟩
    have keysb : ∀ e ∈ c.entriesOf, (e.ns, e.key) ∈
        ({ k | c.get? (toLex k) ≠ none } ∪ { k | ∃ e ∈ lists.flatten, k = (e.ns, e.key) }) := by
      intro e he
      refine .inl ?_
      rw [Set.mem_ofPred_eq, Contents.mem_entriesOf.1 he]
      simp
    have pathsb : (c.entriesOf.map Entry.path).Nodup := by
      refine List.Nodup.map_on ?_ c.nodup_entriesOf
      intro a ha b hb same
      have key := same_key inj (keysb a ha) (keysb b hb) same
      have value := Contents.mem_entriesOf.1 ha
      rw [key, Contents.mem_entriesOf.1 hb] at value
      rw [Prod.mk.injEq] at key
      cases a
      cases b
      simp_all
    have mem : ∀ e, e ∈ lists.flatten ↔ c.get? (toLex (e.ns, e.key)) = some e.value := by
      intro e
      rw [← Contents.mem_entriesOf]
      constructor
      · exact ideal.same_entries inj paths pathsb keysa keysb root.symm
      · exact ideal.same_entries inj pathsb paths keysb keysa root
    refine ⟨mem, ?_⟩
    intro order perm v start adopted
    have same : ∀ e, e ∈ order.flatten ↔ e ∈ lists.flatten := fun e => perm.flatten.mem_iff
    refine import_root inj adopted (fun e => (same e).trans (mem e)) ?_
      (fun e he => keysa e ((same e).1 he))
    intro e he
    obtain ⟨list, hlist, inside⟩ := mem_flatten.1 ((same e).1 he)
    exact verified.committed list hlist e inside

end StateTrie

end Tenzro

namespace Tenzro
namespace StateTrie

def lowEntry : Entry := ⟨"state", [1], [2]⟩

def highEntry : Entry := ⟨"state", [2 ^ 255], [1]⟩

/-- A map of one entry in the first bucket and one in the middle one. -/
def sampleContents : Contents :=
  (SortedMap.empty.insert (toLex ("state", [1])) [2]).insert (toLex ("state", [2 ^ 255])) [1]

def sampleManifest : List BucketSummary :=
  [⟨0, @bucketSubtree encodedHash .sha256 (@stemsOf encodedHash .sha256 [lowEntry]) 0⟩,
    ⟨2048, @bucketSubtree encodedHash .sha256 (@stemsOf encodedHash .sha256 [highEntry]) 2048⟩]

theorem ok_of_toOption {ε α : Type} {x : Except ε α} {a : α} (h : x.toOption = some a) :
    x = .ok a := by
  cases x with
  | error e => cases h
  | ok b => exact congrArg Except.ok (Option.some.inj h)

theorem sampleManifest_checked :
    (@rootFromBuckets encodedHash .sha256 sampleManifest).toOption =
        some (@rootOfEntries encodedHash .sha256 sampleContents.entriesOf) ∧
      ∀ e ∈ [(0, lowEntry), (2048, highEntry)], (@verifyBucket encodedHash .sha256 e.1 [e.2]
        (@bucketSubtree encodedHash .sha256 (@stemsOf encodedHash .sha256 [e.2]) e.1)).toOption =
          some () := by
  decide +kernel

theorem sampleManifest_verified :
    List.Forall₂ (fun b entries => @verifyBucket encodedHash .sha256 b.index entries b.subtree = .ok ())
      sampleManifest [[lowEntry], [highEntry]] :=
  .cons (ok_of_toOption (sampleManifest_checked.2 (0, lowEntry) (by simp)))
    (.cons (ok_of_toOption (sampleManifest_checked.2 (2048, highEntry) (by simp))) .nil)

theorem sampleContents_injOn : Set.InjOn (@treeKeyOf encodedHash)
    ({ k | sampleContents.get? (toLex k) ≠ none } ∪
      { k | ∃ e ∈ [[lowEntry], [highEntry]].flatten, k = (e.ns, e.key) }) := by
  have known {k : String × List ℕ} (h : k ∈ { k | sampleContents.get? (toLex k) ≠ none } ∪
      { k | ∃ e ∈ [[lowEntry], [highEntry]].flatten, k = (e.ns, e.key) }) :
      k = ("state", [1]) ∨ k = ("state", [2 ^ 255]) := by
    cases h with
    | inl held =>
      simp only [sampleContents, Set.mem_ofPred_eq, SortedMap.get?_insert, SortedMap.get?_empty] at held
      split_ifs at held with high low
      · exact .inr (toLex.injective high)
      · exact .inl (toLex.injective low)
      · exact absurd rfl held
    | inr listed =>
      obtain ⟨e, he, rfl⟩ := listed
      simp only [List.flatten_cons, List.flatten_nil, List.append_nil, List.singleton_append,
        List.mem_cons, List.not_mem_nil, or_false] at he
      cases he with
      | inl low => exact .inl (by rw [low]; rfl)
      | inr high => exact .inr (by rw [high]; rfl)
  intro a ha b hb h
  rcases known ha with rfl | rfl <;> rcases known hb with rfl | rfl
  · rfl
  · exact absurd h treeKeys_apart
  · exact absurd h.symm treeKeys_apart
  · rfl

/-- The two buckets, the second first, import to the root. -/
theorem snapshot_buckets_sound_complete_sample :
    @rootAt (@runOps encodedHash .empty (importOps 5 [[highEntry], [lowEntry]])) 5 =
      .ok (some (@rootOfEntries encodedHash .sha256 sampleContents.entriesOf)) :=
  ((@snapshot_buckets_sound_complete encodedHash).2 .sha256 (ideal_encodedHash .sha256) sampleManifest
    [[lowEntry], [highEntry]] sampleContents sampleContents_injOn
    (ok_of_toOption sampleManifest_checked.1) sampleManifest_verified).2 [[highEntry], [lowEntry]] (List.Perm.swap _ _ _) 5 .empty rfl

end StateTrie

end Tenzro
