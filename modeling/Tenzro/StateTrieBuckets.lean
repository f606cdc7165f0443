import Tenzro.StateTrieCanonical

set_option autoImplicit false
set_option linter.dupNamespace false

/-!
# Buckets of a snapshot

The trie is cut at a fixed depth into buckets. The summaries fold to the root,
and each bucket's entries rebuild its summary.
-/
namespace Tenzro.StateTrie
open List

def bucketDepth : ℕ := 12

def bucketCount : ℕ := 2 ^ bucketDepth

/-- One non-empty bucket in a manifest. -/
structure BucketSummary where
  index : ℕ
  subtree : Subtree
deriving DecidableEq, Repr

def bucketPrefix (index : ℕ) : ℕ := index % bucketCount * 2 ^ (stemBits - bucketDepth)

def bucketOf (stem : ℕ) : ℕ := stemPrefix stem bucketDepth

def placeBuckets : Option ℕ → List BucketSummary → List Subtree → Except StorageError (List Subtree)
  | _, [], level => .ok level
  | last, b :: rest, level =>
    if bucketCount ≤ b.index then .error (.invalidSnapshot s!"bucket index {b.index} out of range")
    else if last.any (fun l => b.index ≤ l) then
      .error (.invalidSnapshot "bucket indexes are not strictly increasing")
    else if b.subtree = .empty then
      .error (.invalidSnapshot s!"bucket {b.index} is listed but empty")
    else placeBuckets (some b.index) rest (level.set b.index b.subtree)

variable [TrieHash]

def rootFromBuckets (scheme : HashScheme) (buckets : List BucketSummary) :
    Except StorageError Digest := do
  let level ← placeBuckets none buckets (replicate bucketCount .empty)
  return ((PairFold.reduce (combine scheme) bucketDepth level).headD .empty).hash

def Entry.treeKey (e : Entry) : ℕ := TrieHash.treeKey e.ns e.key

def collectStems (scheme : HashScheme) (index : ℕ) :
    Option ℕ → List Entry → SortedMap ℕ (SortedMap ℕ Digest) →
      Except StorageError (SortedMap ℕ (SortedMap ℕ Digest))
  | _, [], stems => .ok stems
  | last, e :: rest, stems =>
    if isCommittedNamespace e.ns = false then
      .error (.invalidSnapshot
        s!"bucket {index} holds an entry in namespace {e.ns} which is not committed")
    else if last.any (fun l => e.treeKey ≤ l) then
      .error (.invalidSnapshot
        s!"bucket {index} entries are not in strictly increasing tree-key order")
    else
      let other := bucketOf e.path.1
      if other ≠ index then
        .error (.invalidSnapshot s!"bucket {index} holds an entry belonging to bucket {other}")
      else collectStems scheme index (some e.treeKey) rest (enterSlot scheme stems e)

def verifyBucket (scheme : HashScheme) (index : ℕ) (entries : List Entry) (expected : Subtree) :
    Except StorageError Unit := do
  let stems ← collectStems scheme index none entries .empty
  let list := stems.entries.map (fun e => (e.1, slotsRoot scheme e.2))
  if buildSubtree scheme (stemBits - bucketDepth) bucketDepth list ≠ expected then
    .error (.invalidSnapshot s!"bucket {index} contents do not match the manifest")
  else return ()

def collectBuckets (store : Store) :
    ℕ → Option NodeRef → ℕ → ℕ → Except StorageError (List BucketSummary)
  | _, none, _, _ => .ok []
  | n, some r, d, path =>
    if r.isStem then do
      match ← readNode store r d path with
      | .stem stem _ => return [⟨bucketOf stem, .single r.hash⟩]
      | .internal .. => .error (.unreachable "reference marks a stem")
    else
      match n with
      | 0 => .ok [⟨bucketOf (path * 2 ^ (stemBits - d)), .multi r.hash⟩]
      | n + 1 => do
        match ← readNode store r d path with
        | .stem .. => .error (.unreachable "reference marks an interior node")
        | .internal left right =>
          let l ← collectBuckets store n left (d + 1) (2 * path)
          let r ← collectBuckets store n right (d + 1) (2 * path + 1)
          return l ++ r

def bucketSummaries (store : Store) (version : ℕ) : Except StorageError (List BucketSummary) := do
  collectBuckets store bucketDepth (← requireRoot store version) 0 0

def bucketEntries (store : Store) (version index : ℕ) : Except StorageError (List Entry) :=
  forEachEntry store version bucketDepth (bucketPrefix index)

section Placing
variable {scheme : HashScheme}

omit [TrieHash] in
theorem bucketDepth_le : bucketDepth ≤ stemBits := by
  unfold bucketDepth stemBits
  decide

omit [TrieHash] in
theorem placeBuckets_ok {last : Option ℕ} {buckets : List BucketSummary} {level level' : List Subtree} :
    placeBuckets last buckets level = .ok level' ↔
      (∀ b ∈ buckets, b.index < bucketCount ∧ (∀ l, last = some l → l < b.index) ∧ b.subtree ≠ .empty) ∧
      (buckets.map BucketSummary.index).Pairwise (· < ·) ∧
      level' = buckets.foldl (fun level b => level.set b.index b.subtree) level := by
  induction buckets generalizing last level with
  | nil => simp [placeBuckets, eq_comm]
  | cons b rest ih =>
    unfold placeBuckets
    have order : (last.any (fun l => decide (b.index ≤ l))) = true ↔ ¬ ∀ l, last = some l → l < b.index := by
      cases last <;> simp
    split_ifs with range behind empty
    · simp only [forall_mem_cons, false_iff]
      rintro ⟨⟨⟨here, -⟩, -⟩, -⟩
      omega
    · simp only [forall_mem_cons, false_iff]
      rintro ⟨⟨⟨-, here, -⟩, -⟩, -⟩
      exact order.1 behind here
    · simp only [forall_mem_cons, false_iff]
      rintro ⟨⟨⟨-, -, here⟩, -⟩, -⟩
      exact here empty
    · have after : ∀ l, last = some l → l < b.index := by
        by_contra no
        exact behind (order.2 no)
      rw [ih]
      simp only [forall_mem_cons, map_cons, pairwise_cons, mem_map,
        forall_exists_index, and_imp, forall_apply_eq_imp_iff₂, foldl_cons, Option.some.injEq,
        forall_eq']
      constructor
      · rintro ⟨each, sorted, rfl⟩
        refine ⟨⟨⟨not_le.1 range, after, empty⟩, ?_⟩, ⟨?_, sorted⟩, rfl⟩
        · intro x hx
          obtain ⟨low, above, some⟩ := each x hx
          exact ⟨low, fun l hl => (after l hl).trans above, some⟩
        · exact fun x hx => (each x hx).2.1
      · rintro ⟨⟨-, each⟩, ⟨above, sorted⟩, rfl⟩
        refine ⟨?_, sorted, rfl⟩
        intro x hx
        exact ⟨(each x hx).1, above x hx, (each x hx).2.2⟩

omit [TrieHash] in
theorem getElem?_placed {buckets : List BucketSummary} {level : List Subtree} {i : ℕ}
    (sorted : (buckets.map BucketSummary.index).Pairwise (· < ·)) (hi : i < level.length) (x : Subtree) :
    (buckets.foldl (fun level b => level.set b.index b.subtree) level)[i]? = some x ↔
      ⟨i, x⟩ ∈ buckets ∨ ((∀ b ∈ buckets, b.index ≠ i) ∧ level[i]? = some x) := by
  induction buckets generalizing level with
  | nil => simp
  | cons b rest ih =>
    rw [map_cons, pairwise_cons] at sorted
    rw [foldl_cons, ih sorted.2 (by simpa using hi), mem_cons]
    have later : ∀ x ∈ rest, b.index < x.index := fun x hx => sorted.1 _ (mem_map_of_mem hx)
    by_cases here : b.index = i
    · have absent : ∀ x, (⟨i, x⟩ : BucketSummary) ∉ rest := by
        intro x hx
        have := later _ hx
        simp only at this
        omega
      have others : ∀ b' ∈ rest, b'.index ≠ i := by
        intro b' hb'
        have := later b' hb'
        omega
      subst here
      simp only [absent, false_or, or_false, getElem?_set_self hi, Option.some.injEq]
      constructor
      · rintro ⟨-, rfl⟩
        exact .inl rfl
      · rintro (same | ⟨no, -⟩)
        · exact ⟨others, by rw [← same]⟩
        · exact absurd rfl (no b (by simp))
    · have other : (⟨i, x⟩ : BucketSummary) ≠ b := by
        rintro rfl
        exact here rfl
      simp only [other, false_or, getElem?_set_ne here, forall_mem_cons]
      constructor
      · rintro (mem | ⟨no, found⟩)
        · exact .inl mem
        · exact .inr ⟨⟨here, no⟩, found⟩
      · rintro (mem | ⟨⟨-, no⟩, found⟩)
        · exact .inl mem
        · exact .inr ⟨no, found⟩

end Placing

section Folding
variable {scheme : HashScheme}

def bucketSubtree (scheme : HashScheme) (stems : List (ℕ × Digest)) (index : ℕ) : Subtree :=
  buildSubtree scheme (stemBits - bucketDepth) bucketDepth
    (stems.filter (fun s => decide (bucketOf s.1 = index)))

omit [TrieHash] in
theorem bucketOf_div {d k : ℕ} (hk : d + k = bucketDepth) (s : ℕ) :
    bucketOf s / 2 ^ k = stemPrefix s d := by
  have := bucketDepth_le
  unfold bucketOf stemPrefix
  rw [Nat.div_div_eq_div_mul, ← pow_add]
  congr 2
  omega

omit [TrieHash] in
theorem filter_bucket_nil {d k p q : ℕ} {stems : List (ℕ × Digest)} (hk : d + k = bucketDepth)
    (h : Under d p (stems.map Prod.fst)) (apart : q / 2 ^ k ≠ p) :
    stems.filter (fun s => decide (bucketOf s.1 = q)) = [] := by
  refine filter_eq_nil_iff.2 ?_
  intro s hs same
  have here := (h.prefixed s.1 (mem_map_of_mem hs)).2
  rw [← bucketOf_div hk, of_decide_eq_true same] at here
  exact apart here

omit [TrieHash] in
theorem half_div {k p j b : ℕ} (hj : j < 2 ^ k) : ((2 * p + b) * 2 ^ k + j) / 2 ^ k = 2 * p + b := by
  rw [mul_comm, Nat.mul_add_div (Nat.two_pow_pos k), Nat.div_eq_of_lt hj, Nat.add_zero]

theorem reduce_buckets {d k p : ℕ} {stems : List (ℕ × Digest)} (hk : d + k = bucketDepth)
    (h : Under d p (stems.map Prod.fst)) :
    PairFold.reduce (combine scheme) k
        ((List.range (2 ^ k)).map (fun j => bucketSubtree scheme stems (p * 2 ^ k + j))) =
      [buildSubtree scheme (stemBits - d) d stems] := by
  induction k generalizing d p stems with
  | zero =>
    obtain rfl : d = bucketDepth := by omega
    have all : stems.filter (fun s => decide (bucketOf s.1 = p)) = stems := by
      refine filter_eq_self.2 ?_
      intro s hs
      exact decide_eq_true (h.prefixed s.1 (mem_map_of_mem hs)).2
    simp [PairFold.reduce, bucketSubtree, all]
  | succ k ih =>
    have hd : d < stemBits := by
      have := bucketDepth_le
      omega
    obtain ⟨a, b, rfl, ha, hb⟩ := h.halves hd
    have left (j : ℕ) (hj : j < 2 ^ k) : bucketSubtree scheme (a ++ b) (p * 2 ^ (k + 1) + j) =
        bucketSubtree scheme a (2 * p * 2 ^ k + j) := by
      have index : p * 2 ^ (k + 1) + j = 2 * p * 2 ^ k + j := by ring
      have none := filter_bucket_nil (k := k) (q := 2 * p * 2 ^ k + j) (by omega) hb (by
        have := half_div (p := p) (b := 0) hj
        simp only [Nat.add_zero] at this
        omega)
      rw [index, bucketSubtree, filter_append, none, append_nil, bucketSubtree]
    have right (j : ℕ) (hj : j < 2 ^ k) :
        bucketSubtree scheme (a ++ b) (p * 2 ^ (k + 1) + (2 ^ k + j)) =
          bucketSubtree scheme b ((2 * p + 1) * 2 ^ k + j) := by
      have index : p * 2 ^ (k + 1) + (2 ^ k + j) = (2 * p + 1) * 2 ^ k + j := by ring
      have none := filter_bucket_nil (k := k) (q := (2 * p + 1) * 2 ^ k + j) (by omega) ha (by
        have := half_div (p := p) (b := 1) hj
        omega)
      rw [index, bucketSubtree, filter_append, none, nil_append, bucketSubtree]
    have cut : (List.range (2 ^ (k + 1))).map
          (fun j => bucketSubtree scheme (a ++ b) (p * 2 ^ (k + 1) + j)) =
        (List.range (2 ^ k)).map (fun j => bucketSubtree scheme a (2 * p * 2 ^ k + j)) ++
          (List.range (2 ^ k)).map (fun j => bucketSubtree scheme b ((2 * p + 1) * 2 ^ k + j)) := by
      have size : 2 ^ (k + 1) = 2 ^ k + 2 ^ k := by ring
      rw [size, range_add, map_append, map_map, ← size]
      congr 1
      · exact map_congr_left (fun j hj => left j (mem_range.1 hj))
      · exact map_congr_left (fun j hj => right j (mem_range.1 hj))
    have room : stemBits - d = (stemBits - (d + 1)) + 1 := by omega
    rw [cut, PairFold.reduce_append _ (by simp) (by simp), ih (by omega) ha, ih (by omega) hb, room,
      buildSubtree_append hd ha hb]
    rfl

theorem rootFromBuckets_eq {buckets : List BucketSummary} {stems : List (ℕ × Digest)}
    (h : Under 0 0 (stems.map Prod.fst)) (sorted : (buckets.map BucketSummary.index).Pairwise (· < ·))
    (listed : ∀ i x, ⟨i, x⟩ ∈ buckets → i < bucketCount ∧ x ≠ .empty ∧ bucketSubtree scheme stems i = x)
    (unlisted : ∀ i, (∀ b ∈ buckets, b.index ≠ i) → bucketSubtree scheme stems i = .empty) :
    rootFromBuckets scheme buckets = .ok (buildSubtree scheme stemBits 0 stems).hash := by
  have placed : placeBuckets none buckets (replicate bucketCount .empty) = .ok (buckets.foldl
      (fun level b => level.set b.index b.subtree) (replicate bucketCount .empty)) := by
    refine placeBuckets_ok.2 ⟨?_, sorted, rfl⟩
    intro b hb
    obtain ⟨low, filled, -⟩ := listed b.index b.subtree hb
    exact ⟨low, (fun l hl => by cases hl), filled⟩
  have level : buckets.foldl (fun level b => level.set b.index b.subtree)
      (replicate bucketCount .empty) =
      (List.range (2 ^ bucketDepth)).map (fun j => bucketSubtree scheme stems (0 * 2 ^ bucketDepth + j)) := by
    refine ext_getElem? (fun i => ?_)
    by_cases hi : i < bucketCount
    · have there : ((List.range (2 ^ bucketDepth)).map
          (fun j => bucketSubtree scheme stems (0 * 2 ^ bucketDepth + j)))[i]? =
            some (bucketSubtree scheme stems i) := by
        rw [getElem?_map, getElem?_range (show i < 2 ^ bucketDepth from hi)]
        simp
      rw [there, getElem?_placed sorted (by simpa using hi)]
      by_cases named : ∃ b ∈ buckets, b.index = i
      · obtain ⟨b, hb, rfl⟩ := named
        refine .inl ?_
        rw [(listed b.index b.subtree hb).2.2]
        exact hb
      · push Not at named
        refine .inr ⟨named, ?_⟩
        rw [unlisted i named]
        simp [hi]
    · have length : (buckets.foldl (fun level b => level.set b.index b.subtree)
          (replicate bucketCount Subtree.empty)).length = bucketCount := by
        have sizes (l : List Subtree) :
            (buckets.foldl (fun level b => level.set b.index b.subtree) l).length = l.length := by
          clear placed listed unlisted sorted
          induction buckets generalizing l with
          | nil => rfl
          | cons b rest ih => rw [foldl_cons, ih, length_set]
        rw [sizes, length_replicate]
      rw [getElem?_eq_none (by omega), getElem?_eq_none]
      simpa [bucketCount] using hi
  simp only [rootFromBuckets, placed, bind, Except.bind]
  rw [level, reduce_buckets (by omega) h]
  rfl

end Folding

section Verifying
variable {scheme : HashScheme} {index : ℕ}

theorem collectStems_ok {last : Option ℕ} {entries : List Entry}
    {stems stems' : SortedMap ℕ (SortedMap ℕ Digest)} :
    collectStems scheme index last entries stems = .ok stems' ↔
      (∀ e ∈ entries, isCommittedNamespace e.ns = true ∧ (∀ l, last = some l → l < e.treeKey) ∧
        bucketOf e.path.1 = index) ∧
      (entries.map Entry.treeKey).Pairwise (· < ·) ∧
      stems' = entries.foldl (enterSlot scheme) stems := by
  induction entries generalizing last stems with
  | nil =>
    simp only [collectStems, not_mem_nil, false_implies, implies_true, map_nil,
      List.Pairwise.nil, foldl_nil, true_and, Except.ok.injEq]
    exact eq_comm
  | cons e rest ih =>
    unfold collectStems
    have order : (last.any (fun l => decide (e.treeKey ≤ l))) = true ↔
        ¬ ∀ l, last = some l → l < e.treeKey := by
      cases last <;> simp
    split_ifs with outside behind
    · simp only [forall_mem_cons, false_iff, outside]
      simp
    · simp only [forall_mem_cons, false_iff]
      rintro ⟨⟨⟨-, here, -⟩, -⟩, -⟩
      exact order.1 behind here
    · by_cases inside : bucketOf e.path.1 = index
      · have after : ∀ l, last = some l → l < e.treeKey := by
          by_contra no
          exact behind (order.2 no)
        simp only [inside, ne_eq, not_true_eq_false, if_false]
        rw [ih]
        simp only [forall_mem_cons, map_cons, pairwise_cons, mem_map,
          forall_exists_index, and_imp, forall_apply_eq_imp_iff₂, foldl_cons,
          Option.some.injEq, forall_eq']
        constructor
        · rintro ⟨each, sorted, rfl⟩
          refine ⟨⟨⟨Bool.eq_true_of_not_eq_false outside, after, inside⟩, ?_⟩, ⟨?_, sorted⟩, rfl⟩
          · intro x hx
            obtain ⟨committed, above, bucket⟩ := each x hx
            exact ⟨committed, fun l hl => (after l hl).trans above, bucket⟩
          · exact fun x hx => (each x hx).2.1
        · rintro ⟨⟨-, each⟩, ⟨above, sorted⟩, rfl⟩
          refine ⟨?_, sorted, rfl⟩
          intro x hx
          exact ⟨(each x hx).1, above x hx, (each x hx).2.2⟩
      · simp only [ne_eq, inside, not_false_eq_true, if_true, false_iff, forall_mem_cons,
          reduceCtorEq]
        rintro ⟨⟨⟨-, -, here⟩, -⟩, -⟩
        exact here

theorem verifyBucket_ok {entries : List Entry} {expected : Subtree} :
    verifyBucket scheme index entries expected = .ok () ↔
      (∀ e ∈ entries, isCommittedNamespace e.ns = true ∧ bucketOf e.path.1 = index) ∧
      (entries.map Entry.treeKey).Pairwise (· < ·) ∧
      buildSubtree scheme (stemBits - bucketDepth) bucketDepth (stemsOf scheme entries) = expected := by
  unfold verifyBucket
  cases checked : collectStems scheme index none entries .empty with
  | error e =>
    simp only [bind, Except.bind, false_iff, reduceCtorEq]
    rintro ⟨each, sorted, -⟩
    have good : collectStems scheme index none entries .empty = .ok (slotsByStem scheme entries) := by
      refine collectStems_ok.2 ⟨?_, sorted, rfl⟩
      intro x hx
      exact ⟨(each x hx).1, (fun l hl => by cases hl), (each x hx).2⟩
    rw [good] at checked
    cases checked
  | ok stems =>
    obtain ⟨each, sorted, rfl⟩ := collectStems_ok.1 checked
    simp only [bind, Except.bind]
    change (if buildSubtree scheme (stemBits - bucketDepth) bucketDepth (stemsOf scheme entries) ≠
      expected then _ else _) = _ ↔ _
    split_ifs with differ
    · simp only [false_iff]
      exact fun h => differ h.2.2
    · exact ⟨fun _ => ⟨fun x hx => ⟨(each x hx).1, (each x hx).2.2⟩, sorted, not_not.1 differ⟩,
        fun _ => rfl⟩

end Verifying

end Tenzro.StateTrie
