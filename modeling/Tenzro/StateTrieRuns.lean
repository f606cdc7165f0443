import Tenzro.StateTrieSound

set_option autoImplicit false
set_option linter.dupNamespace false

/-!
# Every history leaves a sound store

Scheme switches, pruning, and the induction over a history.
-/
namespace Tenzro.StateTrie
open List SortedMap
variable [TrieHash]

section Switch
variable {store : Store} {x : Versions}

omit [TrieHash] in
theorem mem_writesOf {entries : List Entry} {k : Lex (String × List ℕ)} {o : Option (List ℕ)}
    (h : (writesOf entries).get? k = some o) :
    ∃ e ∈ entries, k = toLex (e.ns, e.key) ∧ o = some e.value := by
  have fold (l : List Entry) (m : Writes) (hm : (l.foldl (fun writes e =>
      writes.insert (toLex (e.ns, e.key)) (some e.value)) m).get? k = some o) :
      (∃ e ∈ l, k = toLex (e.ns, e.key) ∧ o = some e.value) ∨ m.get? k = some o := by
    induction l generalizing m with
    | nil => exact .inr hm
    | cons e l ih =>
      cases ih _ hm with
      | inl later =>
        obtain ⟨y, hy, rest⟩ := later
        exact .inl ⟨y, mem_cons_of_mem e hy, rest⟩
      | inr here =>
        rw [get?_insert] at here
        split_ifs at here with same
        · exact .inl ⟨e, by simp, same, (Option.some.inj here).symm⟩
        · exact .inr here
  cases fold entries .empty h with
  | inl found => exact found
  | inr none => simp at none

omit [TrieHash] in
theorem committed_writesOf {entries : List Entry}
    (h : ∀ e ∈ entries, isCommittedNamespace e.ns = true) : Committed (writesOf entries) := by
  rintro ⟨k, o⟩ hk
  obtain ⟨e, he, rfl, -⟩ := mem_writesOf (mem_entries.1 hk)
  exact h e he

omit [TrieHash] in
theorem get?_each (store : Store) {write : List ℕ → WriteOp} {o : Option Record}
    (leaves : ∀ store target key, ((write target).apply store).get? key =
      if key = target then o else store.get? key) (targets : List (List ℕ)) (key : List ℕ) :
    (writeBatch store (targets.map write)).get? key =
      if key ∈ targets then o else store.get? key := by
  induction targets generalizing store with
  | nil => simp [writeBatch]
  | cons target targets ih =>
    rw [map_cons, writeBatch, foldl_cons]
    refine (ih _).trans ?_
    rw [leaves]
    by_cases later : key ∈ targets
    · simp [later]
    · by_cases here : key = target <;> simp [later, here]

omit [TrieHash] in
theorem Keyed.of_tag {key : List ℕ} (h : Keyed key) (tag : key.head? = some 78 ∨ key.head? = some 86) :
    ∃ k : DataKey, key = k.key := by
  cases h with
  | data k => exact ⟨k, rfl⟩
  | root w => simp [rootKey] at tag
  | stale v k => simp [staleKey] at tag
  | latest => simp [latestKey] at tag
  | schemes => simp [schemesKey] at tag

omit [TrieHash] in
theorem mem_scan {store : Store} (keys : ∀ key, store.get? key ≠ none → Keyed key) {key : List ℕ} :
    (∃ e ∈ scanPrefix store 78 ++ scanPrefix store 86, e.1 = key) ↔
      ∃ k : DataKey, key = k.key ∧ store.get? k.key ≠ none := by
  have member {tag : ℕ} {e : List ℕ × Record} :
      e ∈ scanPrefix store tag ↔ store.get? e.1 = some e.2 ∧ e.1.head? = some tag := by
    unfold scanPrefix
    rw [mem_filter, decide_eq_true_eq]
    exact and_congr_left (fun _ => mem_entries)
  constructor
  · rintro ⟨e, he, rfl⟩
    rw [mem_append, member, member] at he
    have found : store.get? e.1 ≠ none := by
      rcases he with h | h <;> simp [h.1]
    obtain ⟨k, hk⟩ := (keys e.1 found).of_tag (he.imp And.right And.right)
    exact ⟨k, hk, hk ▸ found⟩
  · rintro ⟨k, rfl, found⟩
    obtain ⟨record, hr⟩ := Option.ne_none_iff_exists'.1 found
    refine ⟨(k.key, record), ?_, rfl⟩
    rw [mem_append, member, member]
    cases k with
    | node u e q => exact .inl ⟨hr, rfl⟩
    | value tk w => exact .inr ⟨hr, rfl⟩

theorem Sound.switched (h : Sound store x) (v : ℕ) (s : List (ℕ × HashScheme)) :
    (writeBatch store (switchOps store v s)).get? schemesKey = some (.schemes s) ∧
      (∀ k : DataKey, store.get? k.key ≠ none →
        (writeBatch store (switchOps store v s)).get? (staleKey v k.key) = some .stale) ∧
      (∀ key, key ≠ schemesKey → (∀ k : DataKey, key = staleKey v k.key → store.get? k.key = none) →
        (writeBatch store (switchOps store v s)).get? key = store.get? key) := by
  have ops : switchOps store v s = ((scanPrefix store 78 ++ scanPrefix store 86).map
      (fun e => staleKey v e.1)).map (fun target => .put target .stale) ++
        [.put schemesKey (.schemes s)] := by
    rw [switchOps, map_map]
    rfl
  have after (key : List ℕ) : (writeBatch store (switchOps store v s)).get? key =
      if key = schemesKey then some (.schemes s)
      else if key ∈ (scanPrefix store 78 ++ scanPrefix store 86).map (fun e => staleKey v e.1) then
        some .stale
      else store.get? key := by
    rw [ops, writeBatch, foldl_append, foldl_cons, foldl_nil, get?_apply]
    by_cases last : key = schemesKey
    · simp [last]
    · simp only [last, if_false]
      exact get?_each store (fun store _ _ => get?_apply store _ _) _ key
  refine ⟨by rw [after, if_pos rfl], ?_, ?_⟩
  · intro k found
    obtain ⟨e, he, same⟩ := (mem_scan h.keys).2 ⟨k, rfl, found⟩
    rw [after, if_neg (stale_ne v 0 k).2.2, if_pos]
    exact mem_map.2 ⟨e, he, by rw [same]⟩
  · intro key last none
    rw [after, if_neg last, if_neg]
    intro mem
    obtain ⟨e, he, rfl⟩ := mem_map.1 mem
    obtain ⟨k, hk, found⟩ := (mem_scan h.keys).1 ⟨e, he, rfl⟩
    exact found (none k (by rw [hk]))

theorem Sound.recommitUnder (h : Sound store x) {v l : ℕ} {t : Tree} (scheme : HashScheme)
    (hl : x.latest = some l) (ht : x.tree l = some t) (later : l < v) :
    ∃ switched store', StateTrie.recommitUnder store v scheme = .ok (switched, .ok
        ((Tree.nil.putAll v (byStem (writesOf t.entries)).entries).hash scheme, store')) ∧
      Advance store store' x v (x.schemes ++ [(v, scheme)])
        (Tree.nil.putAll v (byStem (writesOf t.entries)).entries) := by
  have placed := h.placed l t ht
  have hs : ∀ e ∈ x.schemes, e.1 ≤ v := fun e he => (h.schemesLe l hl e he).trans later.le
  have own : schemeFrom v (x.schemes ++ [(v, scheme)]) = scheme := schemeFrom_append_self scheme hs
  obtain ⟨entered, logged, same⟩ := h.switched v (x.schemes ++ [(v, scheme)])
  generalize hsw : writeBatch store (switchOps store v (x.schemes ++ [(v, scheme)])) = switched
    at entered logged same
  have data (k : DataKey) : switched.get? k.key = store.get? k.key :=
    same _ (data_ne k v).2.2 (fun k' h => absurd h (k.key_ne_stale _ _))
  have roots (w : ℕ) : switched.get? (rootKey w) = store.get? (rootKey w) :=
    same _ (by simp [rootKey, schemesKey]) (fun k' h => by simp [rootKey, staleKey] at h)
  have latestKept : switched.get? latestKey = store.get? latestKey :=
    same _ (by simp [latestKey, schemesKey]) (fun k' h => by simp [latestKey, staleKey] at h)
  have latest : StateTrie.latestVersion store = .ok (some l) := by rw [h.latestVersion, hl]
  have root : StateTrie.rootRef store l = .ok (some (t.ref (x.scheme l))) := by
    rw [h.rootRef, ht]
    rfl
  have base : StateTrie.latestBase switched v = .ok (t.ref (x.scheme l)) := by
    have latest' : StateTrie.latestVersion switched = .ok (some l) := by
      rw [← latest]
      unfold StateTrie.latestVersion
      rw [latestKept]
    have root' : StateTrie.rootRef switched l = .ok (some (t.ref (x.scheme l))) := by
      rw [← root]
      unfold StateTrie.rootRef
      rw [roots]
    simp only [StateTrie.latestBase, latest', bind, Except.bind, not_lt.2 later.le, if_false, root']
    rfl
  have blank (k : DataKey) (hk : k.version = v) : switched.get? k.key = none := by
    rw [data]
    refine h.above k ?_
    intro l' hl'
    rw [hl] at hl'
    cases hl'
    omega
  have entries : forEachEntry store l 0 0 = .ok t.entries := by
    have read := walk_eq (n := stemBits) 0 0 (by omega) placed (fun k live => (h.held l t ht k live).2)
    simp only [forEachEntry, requireRoot, root, bind, Except.bind]
    exact read
  have writable : Committed (writesOf t.entries) :=
    committed_writesOf (fun e he => h.committed l t ht e ((Tree.mem_entries placed e).1 he))
  obtain ⟨b, store', run, moves, after⟩ := @commitOn_moves _ _ scheme _ _ .nil (some none)
    _ writable base rfl trivial (by
      intro k _
      exact ⟨fun hk => blank k hk, fun no => absurd rfl no⟩)
  have data' (k : DataKey) : store'.get? k.key = b.data k := by
    obtain ⟨ne, ne', -⟩ := data_ne k v
    rw [after, if_neg ne, if_neg ne']
    rfl
  have stale (w : ℕ) (k : DataKey) :
      store'.get? (staleKey w k.key) = switched.get? (staleKey w k.key) := by
    obtain ⟨ne, ne', -⟩ := stale_ne w v k
    rw [after, if_neg ne, if_neg ne']
    by_cases hw : w = v
    · subst hw
      have here := moves.stale k
      unfold Batch.staleAt at here
      rw [moves.same.2.1] at here
      have none : ¬ (k.version ≠ w ∧ Tree.nil.live scheme 0 0 k ≠ none ∧
          (Tree.nil.putAll w (byStem (writesOf t.entries)).entries).live scheme 0 0 k = none) :=
        fun all => all.2.1 rfl
      exact here.trans (if_neg none)
    · rw [moves.aside _ (aside_stale hw k)]
      rfl
  have unlogged {k : DataKey} (there : store.get? k.key = none) :
      switched.get? (staleKey v k.key) = store.get? (staleKey v k.key) := by
    refine same _ (stale_ne v 0 k).2.2 fun k' e => ?_
    obtain rfl : k = k' := by simpa [staleKey] using e
    exact there
  -- The new tree is built from nothing, so every record of it is the new version's.
  have young (k : DataKey) (other : k.version ≠ v) :
      (Tree.nil.putAll v (byStem (writesOf t.entries)).entries).live scheme 0 0 k = none := by
    by_contra live
    exact live (moves.old k other live)
  have below (k : DataKey) (found : store.get? k.key ≠ none) : k.version < v := by
    by_contra high
    refine found (h.above k ?_)
    intro l' hl'
    rw [hl] at hl'
    cases hl'
    omega
  have placed' := Tree.placed_putAll (v := v) (t := .nil)
    (byStem (writesOf t.entries)).entries trivial (fun e he => byStem_stem he)
  refine ⟨switched, store', ?_, ?_⟩
  · simp only [StateTrie.recommitUnder, latest, bind, Except.bind, not_le.2 later, if_false, entries,
      h.schemes, hsw, run]
    rfl
  constructor
  case late =>
    intro l' hl'
    rw [hl] at hl'
    cases hl'
    exact later.le
  case alive =>
    intro l' hl' dead
    rw [hl] at hl'
    cases hl'
    rw [ht] at dead
    cases dead
  case schemes =>
    have found : store'.get? schemesKey = some (.schemes (x.schemes ++ [(v, scheme)])) := by
      rw [after, if_neg (by simp [schemesKey, latestKey]), if_neg (by simp [schemesKey, rootKey]),
        moves.aside _ (aside_schemes _)]
      exact entered
    unfold StateTrie.schemes
    rw [found]
  case schemesLe =>
    intro e he
    cases mem_append.1 he with
    | inl early => exact hs e early
    | inr last => rw [mem_singleton.1 last]
  case stable =>
    intro w t' hw ht'
    obtain ⟨l', hl', bound⟩ := h.bounded w t' ht'
    rw [hl] at hl'
    cases hl'
    exact schemeFrom_append_lt scheme (by omega)
  case latest => rw [after, if_pos rfl]
  case root =>
    rw [after, if_neg (by simp [rootKey, latestKey]), if_pos rfl, own]
  case roots =>
    intro w hw
    rw [after, if_neg (by simp [rootKey, latestKey]), if_neg (by simpa [rootKey] using hw),
      moves.aside _ (aside_root _ _)]
    exact roots w
  case placed => exact placed'
  case committed => exact holds_committed trivial (fun e he => absurd he (holds_nil e)) writable
  case new =>
    intro k hk
    rw [data', own]
    by_cases inside : k ∈ Region 0 0
    · exact moves.fresh k inside hk (blank k hk)
    · rw [moves.frame k (.inl inside), live_outside placed' inside]
      exact blank k hk
  case kept =>
    intro k other
    rw [data', moves.frame k (.inr other)]
    exact data k
  case old =>
    intro k other live
    rw [own] at live
    exact absurd (young k other) live
  case keys =>
    intro key found
    by_contra no
    rw [after] at found
    split_ifs at found with hlat hroot
    · exact no (hlat ▸ .latest)
    · exact no (hroot ▸ .root v)
    · rw [moves.aside key (keyed_aside no)] at found
      change switched.get? key ≠ none at found
      rw [same key (fun e => no (e ▸ .schemes)) (fun k e => absurd (e ▸ .stale v k) no)] at found
      exact no (h.keys key found)
  case staleOther =>
    intro w k hw
    rw [stale]
    refine same _ (stale_ne w 0 k).2.2 ?_
    intro k' e
    simp [staleKey, hw] at e
  case staleKept =>
    intro k found
    rw [stale]
    by_cases there : store.get? k.key = none
    · rw [unlogged there]
      exact found
    · rw [logged k there]
      simp
  case staleNew =>
    intro k found
    rw [stale] at found
    by_cases there : store.get? k.key = none
    · rw [unlogged there] at found
      exact .inl found
    · refine .inr ⟨below k there, ?_⟩
      rw [own]
      exact young k (below k there).ne
  case logged =>
    intro l' t' k hl' ht' live _ _
    rw [stale, logged k]
    · simp
    · rw [(h.held l' t' ht' k live).2]
      exact live

end Switch

section Prune
variable {store : Store} {x : Versions}

omit [TrieHash] in
theorem keyVersion_mono {tag : ℕ} {a b : List ℕ} (ha : a.head? = some tag) (hb : b.head? = some tag)
    (h : a < b) : keyVersion a ≤ keyVersion b := by
  match a, b with
  | [], _ => simp at ha
  | _, [] => simp at hb
  | [_], _ :: _ => exact Nat.zero_le _
  | x :: y :: a, [z] =>
    rw [cons_lt_cons_iff] at h
    simp only [head?_cons, Option.some.injEq] at ha hb
    simp only [not_lt_nil, and_false, or_false] at h
    omega
  | x :: y :: a, z :: w :: b =>
    simp only [head?_cons, Option.some.injEq] at ha hb
    rw [cons_lt_cons_iff, cons_lt_cons_iff] at h
    change y ≤ w
    omega

omit [TrieHash] in
theorem mem_stale_scan {store : Store} {keepFrom : ℕ} {e : List ℕ × Record} :
    e ∈ (scanPrefix store 83).takeWhile (fun e => decide (keyVersion e.1 ≤ keepFrom)) ↔
      store.get? e.1 = some e.2 ∧ e.1.head? = some 83 ∧ keyVersion e.1 ≤ keepFrom := by
  have sorted : (scanPrefix store 83).Pairwise (fun a b => keyVersion a.1 ≤ keyVersion b.1) := by
    have ordered : (scanPrefix store 83).Pairwise (fun a b => a.1 < b.1) := store.sorted.filter _
    refine ordered.imp_of_mem ?_
    intro a b ha hb lt
    exact keyVersion_mono (by simpa using (mem_filter.1 ha).2)
      (by simpa using (mem_filter.1 hb).2) lt
  have cut (l : List (List ℕ × Record)) (hl : l.Pairwise (fun a b => keyVersion a.1 ≤ keyVersion b.1)) :
      e ∈ l.takeWhile (fun e => decide (keyVersion e.1 ≤ keepFrom)) ↔
        e ∈ l ∧ keyVersion e.1 ≤ keepFrom := by
    induction l with
    | nil => simp
    | cons a l ih =>
      obtain ⟨head, tail⟩ := pairwise_cons.1 hl
      by_cases low : keyVersion a.1 ≤ keepFrom
      · simp only [takeWhile_cons, low, decide_true, if_true, mem_cons, ih tail]
        constructor
        · rintro (rfl | h)
          · exact ⟨.inl rfl, low⟩
          · exact ⟨.inr h.1, h.2⟩
        · rintro ⟨rfl | h, bound⟩
          · exact .inl rfl
          · exact .inr ⟨h, bound⟩
      · simp only [takeWhile_cons, low, decide_false, Bool.false_eq_true, if_false,
          not_mem_nil, false_iff, not_and]
        intro mem bound
        cases mem_cons.1 mem with
        | inl here => exact low (here ▸ bound)
        | inr later => exact low ((head e later).trans bound)
  rw [cut _ sorted]
  unfold scanPrefix
  rw [mem_filter, decide_eq_true_eq, and_assoc]
  exact and_congr_left (fun _ => mem_entries)

theorem Sound.pruned (h : Sound store x) (keepFrom : ℕ) (key : List ℕ) :
    (prune store keepFrom).2.get? key = none ∧
        ((∃ v k, v ≤ keepFrom ∧ store.get? (staleKey v k.key) ≠ none ∧
          (key = DataKey.key k ∨ key = staleKey v k.key)) ∨ (∃ w, w < keepFrom ∧ key = rootKey w)) ∨
      (prune store keepFrom).2.get? key = store.get? key ∧
        (∀ v k, v ≤ keepFrom → store.get? (staleKey v (DataKey.key k)) ≠ none →
          key ≠ k.key ∧ key ≠ staleKey v k.key) ∧
        ∀ w, w < keepFrom → key = rootKey w → store.get? key = none := by
  have ops : (prune store keepFrom).2 = writeBatch store
      ((((scanPrefix store 83).takeWhile (fun e => decide (keyVersion e.1 ≤ keepFrom))).flatMap
        (fun e => [e.1.drop 2, e.1]) ++
        ((scanPrefix store 82).filter (fun e => decide (keyVersion e.1 < keepFrom))).map Prod.fst).map
          .delete) := by
    simp only [prune, map_append, map_flatMap, map_map]
    rfl
  have tagged (key : List ℕ) (found : store.get? key ≠ none) (tag : key.head? = some 83) :
      ∃ v k, key = staleKey v (DataKey.key k) := by
    cases h.keys key found with
    | data k => cases k <;> simp [DataKey.key, pathKey, valueKey] at tag
    | root w => simp [rootKey] at tag
    | stale v k => exact ⟨v, k, rfl⟩
    | latest => simp [latestKey] at tag
    | schemes => simp [schemesKey] at tag
  have rooted (key : List ℕ) (found : store.get? key ≠ none) (tag : key.head? = some 82) :
      ∃ w, key = rootKey w := by
    cases h.keys key found with
    | data k => cases k <;> simp [DataKey.key, pathKey, valueKey] at tag
    | root w => exact ⟨w, rfl⟩
    | stale v k => simp [staleKey] at tag
    | latest => simp [latestKey] at tag
    | schemes => simp [schemesKey] at tag
  rw [ops, get?_each store (fun store _ _ => get?_apply store _ _)]
  by_cases mem : key ∈ ((scanPrefix store 83).takeWhile
      (fun e => decide (keyVersion e.1 ≤ keepFrom))).flatMap (fun e => [e.1.drop 2, e.1]) ++
      ((scanPrefix store 82).filter (fun e => decide (keyVersion e.1 < keepFrom))).map Prod.fst
  · rw [if_pos mem]
    refine .inl ⟨rfl, ?_⟩
    cases mem_append.1 mem with
    | inl stale =>
      obtain ⟨e, he, target⟩ := mem_flatMap.1 stale
      obtain ⟨found, tag, bound⟩ := mem_stale_scan.1 he
      obtain ⟨v, k, hk⟩ := tagged e.1 (by simp [found]) tag
      rw [hk] at found bound target
      refine .inl ⟨v, k, bound, by simp [found], ?_⟩
      simpa [staleKey] using target
    | inr root =>
      obtain ⟨e, he, rfl⟩ := mem_map.1 root
      obtain ⟨scan, bound⟩ := mem_filter.1 he
      obtain ⟨entry, tag⟩ := mem_filter.1 scan
      obtain ⟨w, hw⟩ := rooted e.1 (by rw [mem_entries.1 entry]; simp) (by simpa using tag)
      refine .inr ⟨w, ?_, hw⟩
      rw [hw] at bound
      simpa [keyVersion, rootKey] using bound
  · rw [if_neg mem]
    refine .inr ⟨rfl, ?_, ?_⟩
    · intro v k bound found
      obtain ⟨record, hr⟩ := Option.ne_none_iff_exists'.1 found
      have scanned := (mem_stale_scan (e := (staleKey v k.key, record))).2 ⟨hr, rfl, bound⟩
      constructor
      · rintro rfl
        exact mem (mem_append_left _ (mem_flatMap.2 ⟨_, scanned, by simp [staleKey]⟩))
      · rintro rfl
        exact mem (mem_append_left _ (mem_flatMap.2 ⟨_, scanned, by simp⟩))
    · rintro w bound rfl
      by_contra found
      obtain ⟨record, hr⟩ := Option.ne_none_iff_exists'.1 found
      refine mem (mem_append_right _ (mem_map.2 ⟨(rootKey w, record), ?_, rfl⟩))
      refine mem_filter.2 ⟨mem_filter.2 ⟨mem_entries.2 hr, rfl⟩, ?_⟩
      simpa [keyVersion, rootKey] using bound

theorem Sound.pruned_gone (h : Sound store x) {keepFrom v : ℕ} {k : DataKey} (bound : v ≤ keepFrom)
    (found : store.get? (staleKey v k.key) ≠ none) : (prune store keepFrom).2.get? k.key = none := by
  obtain ⟨gone, -⟩ | ⟨-, apart, -⟩ := h.pruned keepFrom k.key
  · exact gone
  · exact absurd rfl (apart v k bound found).1

theorem Sound.pruned_data (h : Sound store x) {keepFrom : ℕ} {k : DataKey}
    (none : ∀ v, v ≤ keepFrom → store.get? (staleKey v k.key) = none) :
    (prune store keepFrom).2.get? k.key = store.get? k.key := by
  obtain ⟨-, why⟩ | ⟨same, -⟩ := h.pruned keepFrom k.key
  · rcases why with ⟨v, k', bound, found, here | here⟩ | ⟨w, -, here⟩
    · rw [DataKey.key_injective here] at none
      exact absurd (none v bound) found
    · exact absurd here (k.key_ne_stale _ _)
    · exact absurd here (data_ne k w).2.1
  · exact same

theorem Sound.pruned_stale (h : Sound store x) (keepFrom v : ℕ) (k : DataKey) :
    (prune store keepFrom).2.get? (staleKey v k.key) =
      if v ≤ keepFrom then none else store.get? (staleKey v k.key) := by
  obtain ⟨gone, why⟩ | ⟨same, apart, -⟩ := h.pruned keepFrom (staleKey v k.key)
  · rcases why with ⟨v', k', bound, -, here | here⟩ | ⟨w, -, here⟩
    · exact absurd here.symm (k'.key_ne_stale _ _)
    · obtain ⟨rfl, -⟩ : v = v' ∧ k = k' := by simpa [staleKey] using here
      rw [gone, if_pos bound]
    · exact absurd here (stale_ne v w k).2.1
  · by_cases bound : v ≤ keepFrom
    · rw [same, if_pos bound]
      by_contra found
      exact (apart v k bound found).2 rfl
    · rw [same, if_neg bound]

theorem Sound.pruned_root (h : Sound store x) (keepFrom w : ℕ) :
    (prune store keepFrom).2.get? (rootKey w) =
      if w < keepFrom then none else store.get? (rootKey w) := by
  obtain ⟨gone, why⟩ | ⟨same, -, apart⟩ := h.pruned keepFrom (rootKey w)
  · rcases why with ⟨v', k', -, -, here | here⟩ | ⟨w', bound, here⟩
    · exact absurd here.symm (data_ne k' w).2.1
    · exact absurd here.symm (stale_ne v' w k').2.1
    · obtain rfl : w = w' := by simpa [rootKey] using here
      rw [gone, if_pos bound]
  · by_cases bound : w < keepFrom
    · rw [same, if_pos bound]
      exact apart w bound rfl
    · rw [same, if_neg bound]

theorem Sound.pruned_rest (h : Sound store x) (keepFrom : ℕ) {key : List ℕ}
    (rest : ∀ v k w, key ≠ DataKey.key k ∧ key ≠ staleKey v (DataKey.key k) ∧ key ≠ rootKey w) :
    (prune store keepFrom).2.get? key = store.get? key := by
  obtain ⟨-, why⟩ | ⟨same, -⟩ := h.pruned keepFrom key
  · rcases why with ⟨v, k, -, -, here | here⟩ | ⟨w, -, here⟩
    · exact absurd here (rest v k 0).1
    · exact absurd here (rest v k 0).2.1
    · exact absurd here (rest 0 (.node 0 0 0) w).2.2
  · exact same

theorem Sound.prune (h : Sound store x) (keepFrom : ℕ) :
    Sound (StateTrie.prune store keepFrom).2 (x.step (.prune keepFrom)) := by
  have tree (w : ℕ) (t : Tree) (ht : (x.step (.prune keepFrom)).tree w = some t) :
      keepFrom ≤ w ∧ x.tree w = some t := by
    change (if w < keepFrom then none else x.tree w) = some t at ht
    split_ifs at ht with low
    exact ⟨not_lt.1 low, ht⟩
  have latestRest : ∀ v k w, latestKey ≠ DataKey.key k ∧ latestKey ≠ staleKey v (DataKey.key k) ∧
      latestKey ≠ rootKey w := by
    intro v k w
    exact ⟨(data_ne k w).1.symm, (stale_ne v w k).1.symm, by simp [latestKey, rootKey]⟩
  have schemesRest : ∀ v k w, schemesKey ≠ DataKey.key k ∧ schemesKey ≠ staleKey v (DataKey.key k) ∧
      schemesKey ≠ rootKey w := by
    intro v k w
    exact ⟨(data_ne k w).2.2.symm, (stale_ne v w k).2.2.symm, by simp [schemesKey, rootKey]⟩
  -- A record a retained tree reaches was not logged stale at or below its version.
  have kept {w : ℕ} {t : Tree} (low : keepFrom ≤ w) (ht : x.tree w = some t) {k : DataKey}
      (live : t.live (x.scheme w) 0 0 k ≠ none) :
      (StateTrie.prune store keepFrom).2.get? k.key = store.get? k.key := by
    refine h.pruned_data ?_
    intro v bound
    by_contra found
    exact live ((h.staleSound v k found).2.2 w t ht (bound.trans low))
  constructor
  case schemes =>
    rw [schemes_eq (h.pruned_rest keepFrom schemesRest)]
    exact h.schemes
  case schemesLe => exact h.schemesLe
  case latest =>
    rw [h.pruned_rest keepFrom latestRest]
    exact h.latest
  case roots =>
    intro w
    rw [h.pruned_root]
    change _ = Option.map _ (if w < keepFrom then none else x.tree w)
    split_ifs with low
    · rfl
    · exact h.roots w
  case current =>
    intro l hl dead w
    change (if l < keepFrom then none else x.tree l) = none at dead
    change (if w < keepFrom then none else x.tree w) = none
    by_contra alive
    obtain ⟨t, ht⟩ := Option.ne_none_iff_exists'.1 alive
    obtain ⟨low, ht⟩ := tree w t ht
    obtain ⟨l', hl', bound⟩ := h.bounded w t ht
    have same : l' = l := by
      have : some l' = some l := hl'.symm.trans hl
      exact Option.some.inj this
    subst same
    rw [if_neg (by omega)] at dead
    have := h.current l' hl' dead w
    rw [ht] at this
    cases this
  case bounded =>
    intro w t ht
    exact h.bounded w t (tree w t ht).2
  case placed =>
    intro w t ht
    exact h.placed w t (tree w t ht).2
  case committed =>
    intro w t ht
    exact h.committed w t (tree w t ht).2
  case held =>
    intro w t ht k live
    obtain ⟨low, ht⟩ := tree w t ht
    obtain ⟨bound, found⟩ := h.held w t ht k live
    exact ⟨bound, (kept low ht live).trans found⟩
  case fresh =>
    intro l t hl ht k hk
    obtain ⟨low, ht⟩ := tree l t ht
    rw [h.pruned_data]
    · exact h.fresh l t hl ht k hk
    · intro v bound
      by_contra found
      have := (h.staleSound v k found).1
      omega
  case above =>
    intro k hk
    obtain ⟨gone, -⟩ | ⟨same, -⟩ := h.pruned keepFrom k.key
    · exact gone
    · rw [same]
      exact h.above k hk
  case keys =>
    intro key found
    obtain ⟨gone, -⟩ | ⟨same, -⟩ := h.pruned keepFrom key
    · exact absurd gone found
    · rw [same] at found
      exact h.keys key found
  case staleSound =>
    intro v k found
    rw [h.pruned_stale] at found
    split_ifs at found with bound
    · exact absurd rfl found
    · obtain ⟨low, latest, gone⟩ := h.staleSound v k found
      exact ⟨low, latest, fun w t ht above => gone w t (tree w t ht).2 above⟩
  case staleFull =>
    intro w w' t t' k ht ht' lt live gone
    obtain ⟨low, ht⟩ := tree w t ht
    obtain ⟨-, ht'⟩ := tree w' t' ht'
    obtain ⟨v, bound, found⟩ := h.staleFull w w' t t' k ht ht' lt live gone
    refine ⟨v, bound, ?_⟩
    have above : w < v := by
      by_contra below
      exact live ((h.staleSound v k found).2.2 w t ht (not_lt.1 below))
    rw [h.pruned_stale, if_neg (by omega)]
    exact found

end Prune

def Versions.empty : Versions := ⟨none, [], fun _ => none⟩

section Runs
variable {store : Store} {x : Versions}

theorem sound_empty : Sound .empty Versions.empty where
  schemes := rfl
  schemesLe l hl := by cases hl
  latest := rfl
  roots w := rfl
  current l hl := by cases hl
  bounded w t ht := by cases ht
  placed w t ht := by cases ht
  committed w t ht := by cases ht
  held w t ht := by cases ht
  fresh l t hl := by cases hl
  above k _ := rfl
  keys key found := absurd rfl found
  staleSound v k found := absurd rfl found
  staleFull w w' t t' k ht := by cases ht

def Versions.Begun (x : Versions) : Prop := x.latest = none → x.schemes = []

theorem Sound.schemes_le (h : Sound store x) (begun : x.Begun) {v : ℕ}
    (late : ∀ l, x.latest = some l → l ≤ v) : ∀ e ∈ x.schemes, e.1 ≤ v := by
  intro e he
  cases hl : x.latest with
  | none =>
    rw [begun hl] at he
    cases he
  | some l => exact (h.schemesLe l hl e he).trans (late l hl)

theorem Sound.commit_error (h : Sound store x) (v : ℕ) (writes : Writes)
    (no : x.base = none ∨ (∃ l, x.latest = some l ∧ v < l) ∨ ¬ Committed writes) :
    ∃ e, StateTrie.commit store v writes = .error e := by
  cases based : StateTrie.latestBase store v with
  | error e =>
    refine ⟨e, ?_⟩
    simp only [StateTrie.commit, h.schemeAt, commitOn, based, bind, Except.bind]
  | ok latest =>
    have sound : x.base ≠ none ∧ ∀ l, x.latest = some l → l ≤ v := by
      unfold Versions.base
      cases hl : x.latest with
      | none => simp
      | some l =>
        simp only [StateTrie.latestBase, h.latestVersion, hl, bind, Except.bind, h.rootRef] at based
        split_ifs at based with behind
        refine ⟨?_, by simpa using behind⟩
        intro dead
        have dead : x.tree l = none := dead
        rw [dead] at based
        cases based
    rcases no with dead | ⟨l, hl, behind⟩ | outside
    · exact absurd dead sound.1
    · exact absurd (sound.2 l hl) (not_le.2 behind)
    · obtain ⟨e, he⟩ := groupByStem_error writes outside
      refine ⟨e, ?_⟩
      simp only [StateTrie.commit, h.schemeAt, commitOn, based, he, bind, Except.bind]

theorem Sound.recommit_error (h : Sound store x) (v : ℕ) (scheme : HashScheme)
    (no : x.latest.bind x.tree = none ∨ ∃ l, x.latest = some l ∧ v ≤ l) :
    ∃ e, StateTrie.recommitUnder store v scheme = .error e := by
  cases hl : x.latest with
  | none =>
    exact ⟨_, by simp only [StateTrie.recommitUnder, h.latestVersion, hl, bind, Except.bind]; rfl⟩
  | some l =>
    by_cases behind : v ≤ l
    · refine ⟨.database s!"a re-commit at {v} must follow the latest version {l}", ?_⟩
      simp only [StateTrie.recommitUnder, h.latestVersion, hl, bind, Except.bind, behind, if_true]
    · have dead : x.tree l = none := by
        rcases no with none | ⟨l', hl', low⟩
        · rw [hl] at none
          exact none
        · rw [hl] at hl'
          cases hl'
          exact absurd low behind
      refine ⟨.database s!"no state root at version {l}", ?_⟩
      simp only [StateTrie.recommitUnder, h.latestVersion, hl, bind, Except.bind, behind, if_false,
        forEachEntry, requireRoot, h.rootRef, dead]
      rfl

theorem Sound.step (h : Sound store x) (begun : x.Begun) (op : Op) :
    Sound (op.next store) (x.step op) ∧ (x.step op).Begun := by
  cases op with
  | commit v writes =>
    cases hb : x.base with
    | none =>
      obtain ⟨e, he⟩ := h.commit_error v writes (.inl hb)
      simp only [Op.next, he, Versions.step, hb]
      exact ⟨h, begun⟩
    | some t =>
      by_cases can : (∀ l, x.latest = some l → l ≤ v) ∧ Committed writes
      · obtain ⟨store', run, advance⟩ := h.commit hb can.1 (h.schemes_le begun can.1) can.2
        simp only [Op.next, run, Versions.step, hb, if_pos can]
        exact ⟨advance.sound h, fun none => by cases none⟩
      · have no : x.base = none ∨ (∃ l, x.latest = some l ∧ v < l) ∨ ¬ Committed writes := by
          by_cases late : ∀ l, x.latest = some l → l ≤ v
          · exact .inr (.inr (fun hw => can ⟨late, hw⟩))
          · push Not at late
            exact .inr (.inl late)
        obtain ⟨e, he⟩ := h.commit_error v writes no
        simp only [Op.next, he, Versions.step, hb, if_neg can]
        exact ⟨h, begun⟩
  | recommitUnder v scheme =>
    cases ht : x.latest.bind x.tree with
    | none =>
      obtain ⟨e, he⟩ := h.recommit_error v scheme (.inl ht)
      simp only [Op.next, he, Versions.step, ht]
      exact ⟨h, begun⟩
    | some t =>
      obtain ⟨l, hl, tree⟩ := Option.bind_eq_some_iff.1 ht
      by_cases later : ∀ l, x.latest = some l → l < v
      · obtain ⟨switched, store', run, advance⟩ := h.recommitUnder scheme hl tree (later l hl)
        simp only [Op.next, run, Versions.step, ht, if_pos later]
        exact ⟨advance.sound h, fun none => by cases none⟩
      · have no : ∃ l, x.latest = some l ∧ v ≤ l := by
          push Not at later
          exact later
        obtain ⟨e, he⟩ := h.recommit_error v scheme (.inr no)
        simp only [Op.next, he, Versions.step, ht, if_neg later]
        exact ⟨h, begun⟩
  | prune keepFrom => exact ⟨h.prune keepFrom, begun⟩

theorem Sound.run (h : Sound store x) (begun : x.Begun) (ops : List Op) :
    Sound (runOps store ops) (x.run ops) ∧ (x.run ops).Begun := by
  induction ops generalizing store x with
  | nil => exact ⟨h, begun⟩
  | cons op ops ih =>
    obtain ⟨next, begun⟩ := h.step begun op
    exact ih next begun

theorem sound_runOps (ops : List Op) :
    Sound (runOps .empty ops) (Versions.empty.run ops) ∧ (Versions.empty.run ops).Begun :=
  sound_empty.run (fun _ => rfl) ops

end Runs

end Tenzro.StateTrie
