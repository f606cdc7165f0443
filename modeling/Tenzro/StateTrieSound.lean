import Tenzro.StateTrieCommit

set_option autoImplicit false
set_option linter.dupNamespace false

/-!
# The trees of the retained versions

A history commits versions, switches schemes and prunes. Beside the store runs the tree of
every retained version; the store holds exactly what these trees say, whatever the history.
-/
namespace Tenzro.StateTrie
open Function List
variable [TrieHash]

inductive Op where
  | commit (version : ℕ) (writes : Writes)
  | recommitUnder (version : ℕ) (scheme : HashScheme)
  | prune (keepFrom : ℕ)

/-- The store after an operation; one that fails leaves it as it was, but for the log a
re-commit writes first. -/
def Op.next (store : Store) : Op → Store
  | .commit v writes =>
    match StateTrie.commit store v writes with
    | .ok (_, store') => store'
    | .error _ => store
  | .recommitUnder v scheme =>
    match StateTrie.recommitUnder store v scheme with
    | .ok (_, .ok (_, store')) => store'
    | .ok (switched, .error _) => switched
    | .error _ => store
  | .prune keepFrom => (StateTrie.prune store keepFrom).2

/-- The root an operation returns; pruning returns none. -/
def Op.root (store : Store) : Op → Option (Except StorageError Digest)
  | .commit v writes => some ((StateTrie.commit store v writes).map Prod.fst)
  | .recommitUnder v scheme =>
    some ((StateTrie.recommitUnder store v scheme).bind (fun x => x.2.map Prod.fst))
  | .prune _ => none

def runOps (store : Store) (ops : List Op) : Store := ops.foldl Op.next store

/-- The latest version, the schemes, and the trees of the retained versions. -/
structure Versions where
  latest : Option ℕ
  schemes : List (ℕ × HashScheme)
  tree : ℕ → Option Tree

namespace Versions

def scheme (x : Versions) (w : ℕ) : HashScheme := schemeFrom w x.schemes

def base (x : Versions) : Option Tree :=
  match x.latest with
  | none => some .nil
  | some l => x.tree l

def grow (x : Versions) (v : ℕ) (schemes : List (ℕ × HashScheme)) (t : Tree) : Versions :=
  ⟨some v, schemes, update x.tree v (some t)⟩

open Classical in
noncomputable def step (x : Versions) : Op → Versions
  | .commit v writes =>
    match x.base with
    | none => x
    | some t =>
      if (∀ l, x.latest = some l → l ≤ v) ∧ Committed writes then
        x.grow v x.schemes (t.putAll v (byStem writes).entries)
      else x
  | .recommitUnder v scheme =>
    match x.latest.bind x.tree with
    | none => x
    | some t =>
      if ∀ l, x.latest = some l → l < v then
        x.grow v (x.schemes ++ [(v, scheme)]) (Tree.nil.putAll v (byStem (writesOf t.entries)).entries)
      else x
  | .prune keepFrom => { x with tree := fun w => if w < keepFrom then none else x.tree w }

noncomputable def run (x : Versions) (ops : List Op) : Versions := ops.foldl step x

end Versions

/-- The keys the trie writes. -/
inductive Keyed : List ℕ → Prop
  | data (k : DataKey) : Keyed k.key
  | root (w : ℕ) : Keyed (rootKey w)
  | stale (v : ℕ) (k : DataKey) : Keyed (staleKey v k.key)
  | latest : Keyed latestKey
  | schemes : Keyed schemesKey

/-- The store holds exactly the retained trees, and logs what the later ones dropped. -/
structure Sound (store : Store) (x : Versions) : Prop where
  schemes : StateTrie.schemes store = .ok x.schemes
  schemesLe : ∀ l, x.latest = some l → ∀ e ∈ x.schemes, e.1 ≤ l
  latest : store.get? latestKey = x.latest.map .latest
  roots : ∀ w, store.get? (rootKey w) = (x.tree w).map (fun t => .root (t.ref (x.scheme w)))
  current : ∀ l, x.latest = some l → x.tree l = none → ∀ w, x.tree w = none
  bounded : ∀ w t, x.tree w = some t → ∃ l, x.latest = some l ∧ w ≤ l
  placed : ∀ w t, x.tree w = some t → t.Placed 0 0
  committed : ∀ w t, x.tree w = some t → ∀ e, t.Holds e → isCommittedNamespace e.ns = true
  held : ∀ w t, x.tree w = some t → ∀ k, t.live (x.scheme w) 0 0 k ≠ none →
    k.version ≤ w ∧ store.get? k.key = t.live (x.scheme w) 0 0 k
  fresh : ∀ l t, x.latest = some l → x.tree l = some t → ∀ k : DataKey, k.version = l →
    store.get? k.key = t.live (x.scheme l) 0 0 k
  above : ∀ k : DataKey, (∀ l, x.latest = some l → l < k.version) → store.get? k.key = none
  keys : ∀ key, store.get? key ≠ none → Keyed key
  staleSound : ∀ v (k : DataKey), store.get? (staleKey v k.key) ≠ none →
    k.version < v ∧ (∃ l, x.latest = some l ∧ v ≤ l) ∧
      ∀ w t, x.tree w = some t → v ≤ w → t.live (x.scheme w) 0 0 k = none
  staleFull : ∀ w w' t t' k, x.tree w = some t → x.tree w' = some t' → w < w' →
    t.live (x.scheme w) 0 0 k ≠ none → t'.live (x.scheme w') 0 0 k = none →
      ∃ v, v ≤ w' ∧ store.get? (staleKey v k.key) ≠ none

/-- A new tree `t'` at `v`, on top of the latest one. -/
structure Advance (store store' : Store) (x : Versions) (v : ℕ) (schemes' : List (ℕ × HashScheme))
    (t' : Tree) : Prop where
  late : ∀ l, x.latest = some l → l ≤ v
  alive : ∀ l, x.latest = some l → x.tree l ≠ none
  schemes : StateTrie.schemes store' = .ok schemes'
  schemesLe : ∀ e ∈ schemes', e.1 ≤ v
  stable : ∀ w t, w ≠ v → x.tree w = some t → schemeFrom w schemes' = x.scheme w
  latest : store'.get? latestKey = some (.latest v)
  root : store'.get? (rootKey v) = some (.root (t'.ref (schemeFrom v schemes')))
  roots : ∀ w, w ≠ v → store'.get? (rootKey w) = store.get? (rootKey w)
  placed : t'.Placed 0 0
  committed : ∀ e, t'.Holds e → isCommittedNamespace e.ns = true
  new : ∀ k : DataKey, k.version = v → store'.get? k.key = t'.live (schemeFrom v schemes') 0 0 k
  kept : ∀ k : DataKey, k.version ≠ v → store'.get? k.key = store.get? k.key
  old : ∀ k : DataKey, k.version ≠ v → t'.live (schemeFrom v schemes') 0 0 k ≠ none →
    ∃ l t, x.latest = some l ∧ x.tree l = some t ∧
      t.live (x.scheme l) 0 0 k = t'.live (schemeFrom v schemes') 0 0 k
  keys : ∀ key, store'.get? key ≠ none → Keyed key
  staleOther : ∀ w (k : DataKey), w ≠ v →
    store'.get? (staleKey w k.key) = store.get? (staleKey w k.key)
  staleKept : ∀ k : DataKey, store.get? (staleKey v k.key) ≠ none →
    store'.get? (staleKey v k.key) ≠ none
  staleNew : ∀ k : DataKey, store'.get? (staleKey v k.key) ≠ none →
    store.get? (staleKey v k.key) ≠ none ∨
      k.version < v ∧ t'.live (schemeFrom v schemes') 0 0 k = none
  logged : ∀ l t (k : DataKey), x.latest = some l → x.tree l = some t →
    t.live (x.scheme l) 0 0 k ≠ none → t'.live (schemeFrom v schemes') 0 0 k = none →
      k.version < v → store'.get? (staleKey v k.key) ≠ none

section Advance
variable {store store' : Store} {x : Versions} {v : ℕ} {schemes' : List (ℕ × HashScheme)} {t' : Tree}

namespace Advance
variable (h : Advance store store' x v schemes' t')

omit [TrieHash] in
theorem tree_grow_self : (x.grow v schemes' t').tree v = some t' := update_self _ _ _

omit [TrieHash] in
theorem tree_grow {w : ℕ} (hw : w ≠ v) : (x.grow v schemes' t').tree w = x.tree w :=
  update_of_ne hw _ _

omit [TrieHash] in
theorem tree_grow_cases {w : ℕ} {t : Tree} (ht : (x.grow v schemes' t').tree w = some t) :
    w = v ∧ t = t' ∨ w ≠ v ∧ x.tree w = some t := by
  by_cases hw : w = v
  · subst hw
    rw [tree_grow_self] at ht
    exact .inl ⟨rfl, (Option.some.inj ht).symm⟩
  · exact .inr ⟨hw, (tree_grow hw).symm.trans ht⟩

include h

theorem scheme_grow {w : ℕ} {t : Tree} (hw : w ≠ v) (ht : x.tree w = some t) :
    (x.grow v schemes' t').scheme w = x.scheme w := h.stable w t hw ht

theorem held (sound : Sound store x) {w : ℕ} {t : Tree} (hw : w ≠ v) (ht : x.tree w = some t)
    {k : DataKey} (live : t.live (x.scheme w) 0 0 k ≠ none) :
    k.version ≤ w ∧ k.version < v ∧ store'.get? k.key = t.live (x.scheme w) 0 0 k := by
  obtain ⟨low, found⟩ := sound.held w t ht k live
  obtain ⟨l, hl, below⟩ := sound.bounded w t ht
  have := h.late l hl
  refine ⟨low, by omega, ?_⟩
  rw [h.kept k (by omega)]
  exact found

theorem sound (hs : Sound store x) : Sound store' (x.grow v schemes' t') where
  schemes := h.schemes
  schemesLe l hl := by
    cases hl
    exact h.schemesLe
  latest := h.latest
  roots w := by
    by_cases hw : w = v
    · subst hw
      rw [tree_grow_self]
      exact h.root
    · rw [tree_grow hw, h.roots w hw, hs.roots w]
      cases ht : x.tree w with
      | none => rw [Option.map_none, Option.map_none]
      | some t =>
        rw [Option.map_some, Option.map_some, h.scheme_grow hw ht]
  current l hl dead := by
    cases hl
    rw [tree_grow_self] at dead
    cases dead
  bounded w t ht := by
    refine ⟨v, rfl, ?_⟩
    obtain ⟨rfl, -⟩ | ⟨-, ht⟩ := tree_grow_cases ht
    · exact le_rfl
    · obtain ⟨l, hl, below⟩ := hs.bounded w t ht
      exact below.trans (h.late l hl)
  placed w t ht := by
    obtain ⟨-, rfl⟩ | ⟨-, ht⟩ := tree_grow_cases ht
    · exact h.placed
    · exact hs.placed w t ht
  committed w t ht := by
    obtain ⟨-, rfl⟩ | ⟨-, ht⟩ := tree_grow_cases ht
    · exact h.committed
    · exact hs.committed w t ht
  held w t ht k live := by
    obtain ⟨rfl, rfl⟩ | ⟨hw, ht⟩ := tree_grow_cases ht
    · by_cases own : k.version = w
      · exact ⟨own.le, h.new k own⟩
      · obtain ⟨l, t, hl, ht, same⟩ := h.old k own live
        have was : t.live (x.scheme l) 0 0 k ≠ none := by
          rw [same]
          exact live
        obtain ⟨low, found⟩ := hs.held l t ht k was
        refine ⟨low.trans (h.late l hl), ?_⟩
        rw [h.kept k own, found, same]
        rfl
    · rw [h.scheme_grow hw ht] at live ⊢
      obtain ⟨low, -, found⟩ := h.held hs hw ht live
      exact ⟨low, found⟩
  fresh l t hl ht k hk := by
    cases hl
    rw [tree_grow_self] at ht
    cases ht
    exact h.new k hk
  above k hk := by
    have past : v < k.version := hk v rfl
    rw [h.kept k (by omega)]
    refine hs.above k ?_
    intro l hl
    have := h.late l hl
    omega
  keys := h.keys
  staleSound u k hu := by
    have was (hu : store.get? (staleKey u k.key) ≠ none) : k.version < u ∧ u ≤ v ∧
        ∀ w t, (x.grow v schemes' t').tree w = some t → u ≤ w →
          t.live ((x.grow v schemes' t').scheme w) 0 0 k = none := by
      obtain ⟨low, ⟨l, hl, bound⟩, gone⟩ := hs.staleSound u k hu
      have late := h.late l hl
      refine ⟨low, by omega, ?_⟩
      intro w t ht above
      obtain ⟨rfl, rfl⟩ | ⟨hw, ht⟩ := tree_grow_cases ht
      · by_contra live
        obtain ⟨l', t, hl', ht, same⟩ := h.old k (by omega) live
        rw [hl] at hl'
        cases hl'
        have := gone l t ht bound
        rw [same] at this
        exact live this
      · rw [h.scheme_grow hw ht]
        exact gone w t ht above
    by_cases own : u = v
    · subst own
      cases h.staleNew k hu with
      | inl earlier =>
        obtain ⟨low, bound, gone⟩ := was earlier
        exact ⟨low, ⟨u, rfl, bound⟩, gone⟩
      | inr fresh =>
        refine ⟨fresh.1, ⟨u, rfl, le_refl u⟩, ?_⟩
        intro w t ht above
        obtain ⟨rfl, rfl⟩ | ⟨hw, ht⟩ := tree_grow_cases ht
        · exact fresh.2
        · obtain ⟨l, hl, below⟩ := hs.bounded w t ht
          have := h.late l hl
          omega
    · rw [h.staleOther u k own] at hu
      obtain ⟨low, bound, gone⟩ := was hu
      exact ⟨low, ⟨v, rfl, bound⟩, gone⟩
  staleFull w w' t u k ht hu lt live gone := by
    have hw : w ≠ v := by
      rintro rfl
      by_cases hw' : w' = w
      · omega
      · rw [tree_grow hw'] at hu
        obtain ⟨l, hl, below⟩ := hs.bounded w' u hu
        have := h.late l hl
        omega
    rw [tree_grow hw] at ht
    rw [h.scheme_grow hw ht] at live
    obtain ⟨low, under, -⟩ := h.held hs hw ht live
    -- A log already written stays.
    have stays (y : ℕ) (hy : store.get? (staleKey y k.key) ≠ none) :
        store'.get? (staleKey y k.key) ≠ none := by
      by_cases own : y = v
      · subst own
        exact h.staleKept k hy
      · rw [h.staleOther y k own]
        exact hy
    obtain ⟨rfl, rfl⟩ | ⟨hw', hu⟩ := tree_grow_cases hu
    · obtain ⟨l, hl, below⟩ := hs.bounded w t ht
      cases hlt : x.tree l with
      | none => exact absurd hlt (h.alive l hl)
      | some s =>
        by_cases last : s.live (x.scheme l) 0 0 k = none
        · have apart : w < l := by
            refine lt_of_le_of_ne below ?_
            rintro rfl
            rw [hlt] at ht
            cases ht
            exact live last
          obtain ⟨y, bound, log⟩ := hs.staleFull w l t s k ht hlt apart live last
          exact ⟨y, bound.trans (h.late l hl), stays y log⟩
        · exact ⟨w', le_refl _, h.logged l s k hl hlt last gone under⟩
    · rw [h.scheme_grow hw' hu] at gone
      obtain ⟨y, bound, log⟩ := hs.staleFull w w' t u k ht hu lt live gone
      exact ⟨y, bound, stays y log⟩

end Advance

end Advance

section Schemes
omit [TrieHash]

theorem schemeFrom_late {l : List (ℕ × HashScheme)} {v w : ℕ} (hv : ∀ e ∈ l, e.1 ≤ v)
    (hw : ∀ e ∈ l, e.1 ≤ w) : schemeFrom v l = schemeFrom w l := by
  have whole {u : ℕ} (hu : ∀ e ∈ l, e.1 ≤ u) : l.takeWhile (fun e => decide (e.1 ≤ u)) = l :=
    takeWhile_eq_self_iff.2 (fun e he => decide_eq_true (hu e he))
  unfold schemeFrom
  rw [whole hv, whole hw]

theorem schemeFrom_append_lt {l : List (ℕ × HashScheme)} {v w : ℕ} (s : HashScheme) (hw : w < v) :
    schemeFrom w (l ++ [(v, s)]) = schemeFrom w l := by
  unfold schemeFrom
  have cut : (l ++ [(v, s)]).takeWhile (fun e => decide (e.1 ≤ w)) =
      l.takeWhile (fun e => decide (e.1 ≤ w)) := by
    induction l with
    | nil => simp [hw]
    | cons e l ih =>
      simp only [cons_append, takeWhile_cons]
      split_ifs
      · rw [ih]
      · rfl
  rw [cut]

theorem schemeFrom_append_self {l : List (ℕ × HashScheme)} {v : ℕ} (s : HashScheme)
    (hl : ∀ e ∈ l, e.1 ≤ v) : schemeFrom v (l ++ [(v, s)]) = s := by
  unfold schemeFrom
  have whole : (l ++ [(v, s)]).takeWhile (fun e => decide (e.1 ≤ v)) = l ++ [(v, s)] := by
    refine takeWhile_eq_self_iff.2 ?_
    intro e he
    cases mem_append.1 he with
    | inl early => exact decide_eq_true (hl e early)
    | inr last =>
      rw [mem_singleton.1 last]
      simp
  rw [whole]
  simp

end Schemes

section Steps
variable {store : Store} {x : Versions}

theorem holds_nil (e : Entry) : ¬ Tree.nil.Holds e := by
  rintro ⟨w, hw⟩
  simp [Tree.slotsAt] at hw

theorem holds_commit {t : Tree} (h : t.Placed 0 0) (v : ℕ) (writes : Writes) (e : Entry) :
    (t.putAll v (byStem writes).entries).Holds e ↔
      (((byStem writes).getD e.path.1 .empty).get? e.path.2).elim (t.Holds e) (· = some e) := by
  unfold Tree.Holds
  rw [Tree.slotsAt_commit writes _ _ h]
  cases ((byStem writes).getD e.path.1 .empty).get? e.path.2 with
  | none => rfl
  | some o =>
    cases o with
    | none => simp
    | some y => simp

theorem holds_committed {t : Tree} {v : ℕ} {writes : Writes} (h : t.Placed 0 0)
    (ht : ∀ e, t.Holds e → isCommittedNamespace e.ns = true) (hw : Committed writes) :
    ∀ e, (t.putAll v (byStem writes).entries).Holds e → isCommittedNamespace e.ns = true := by
  intro e he
  rw [holds_commit h] at he
  cases found : ((byStem writes).getD e.path.1 .empty).get? e.path.2 with
  | none =>
    rw [found] at he
    exact ht e he
  | some o =>
    rw [found] at he
    obtain ⟨write, mem, -, same⟩ := byStem_some found
    have this : updateOf write = some e := same.trans he
    unfold updateOf at this
    obtain ⟨value, -, rfl⟩ := Option.map_eq_some_iff.1 this
    exact hw write mem

omit [TrieHash] in
theorem keyed_aside {v : ℕ} {key : List ℕ} (h : ¬ Keyed key) : Aside v key :=
  fun k => ⟨fun same => h (same ▸ .data k), fun same => h (same ▸ .stale v k)⟩

omit [TrieHash] in
theorem aside_root (v w : ℕ) : Aside v (rootKey w) := by
  intro k
  constructor
  · cases k <;> simp [rootKey, DataKey.key, pathKey, valueKey]
  · simp [rootKey, staleKey]

omit [TrieHash] in
theorem aside_schemes (v : ℕ) : Aside v schemesKey := by
  intro k
  constructor
  · cases k <;> simp [schemesKey, DataKey.key, pathKey, valueKey]
  · simp [schemesKey, staleKey]

omit [TrieHash] in
theorem aside_stale {v w : ℕ} (hw : w ≠ v) (k : DataKey) : Aside v (staleKey w k.key) := by
  intro k'
  refine ⟨(k'.key_ne_stale _ _).symm, ?_⟩
  simp [staleKey, hw]

omit [TrieHash] in
theorem data_ne (k : DataKey) (w : ℕ) : k.key ≠ latestKey ∧ k.key ≠ rootKey w ∧ k.key ≠ schemesKey := by
  cases k <;> simp [DataKey.key, pathKey, valueKey, latestKey, rootKey, schemesKey]

omit [TrieHash] in
theorem stale_ne (v w : ℕ) (k : DataKey) :
    staleKey v k.key ≠ latestKey ∧ staleKey v k.key ≠ rootKey w ∧ staleKey v k.key ≠ schemesKey := by
  simp [staleKey, latestKey, rootKey, schemesKey]

omit [TrieHash] in
theorem schemes_eq {store store' : Store} (h : store'.get? schemesKey = store.get? schemesKey) :
    StateTrie.schemes store' = StateTrie.schemes store := by
  unfold StateTrie.schemes
  rw [h]

omit [TrieHash] in
theorem Versions.base_cases {t : Tree} (hb : x.base = some t) :
    x.latest = none ∧ t = .nil ∨ ∃ l, x.latest = some l ∧ x.tree l = some t := by
  unfold Versions.base at hb
  cases hl : x.latest with
  | none =>
    rw [hl] at hb
    exact .inl ⟨rfl, (Option.some.inj hb).symm⟩
  | some l =>
    rw [hl] at hb
    exact .inr ⟨l, rfl, hb⟩

theorem Sound.latestVersion (h : Sound store x) : StateTrie.latestVersion store = .ok x.latest := by
  unfold StateTrie.latestVersion
  rw [h.latest]
  cases x.latest <;> rfl

theorem Sound.rootRef (h : Sound store x) (w : ℕ) :
    StateTrie.rootRef store w = .ok ((x.tree w).map (Tree.ref (x.scheme w))) := by
  unfold StateTrie.rootRef
  rw [h.roots]
  cases x.tree w <;> rfl

theorem Sound.schemeAt (h : Sound store x) (w : ℕ) :
    StateTrie.schemeAt store w = .ok (x.scheme w) := by
  simp only [StateTrie.schemeAt, h.schemes, bind, Except.bind]
  rfl

theorem Sound.latestBase (h : Sound store x) {v : ℕ} {t : Tree} (hb : x.base = some t)
    (late : ∀ l, x.latest = some l → l ≤ v) (hs : ∀ e ∈ x.schemes, e.1 ≤ v) :
    latestBase store v = .ok (t.ref (x.scheme v)) ∧ t.Placed 0 0 ∧
      (∀ e, t.Holds e → isCommittedNamespace e.ns = true) ∧
      (startBatch store v (x.scheme v)).Loads Set.univ (t.live (x.scheme v) 0 0) := by
  obtain ⟨hl, rfl⟩ | ⟨l, hl, hb⟩ := Versions.base_cases hb
  · refine ⟨?_, trivial, fun e he => absurd he (holds_nil e), ?_⟩
    · simp only [StateTrie.latestBase, h.latestVersion, hl, bind, Except.bind]
      rfl
    · intro k _
      refine ⟨fun _ => ?_, fun no => absurd rfl no⟩
      exact h.above k (by rw [hl]; simp)
  · have below := late l hl
    have same : x.scheme v = x.scheme l := schemeFrom_late hs (h.schemesLe l hl)
    refine ⟨?_, h.placed l t hb, h.committed l t hb, ?_⟩
    · simp only [StateTrie.latestBase, h.latestVersion, hl, bind, Except.bind, not_lt.2 below,
        if_false, h.rootRef, hb, same]
      rfl
    · intro k _
      rw [same]
      refine ⟨fun own => ?_, fun live => (h.held l t hb k live).2⟩
      change k.version = v at own
      by_cases again : v = l
      · exact h.fresh l t hl hb k (own.trans again)
      · have blank : t.live (x.scheme l) 0 0 k = none := by
          by_contra live
          have := (h.held l t hb k live).1
          omega
        rw [blank]
        refine h.above k ?_
        intro l' hl'
        rw [hl] at hl'
        cases hl'
        omega

theorem Sound.commit (h : Sound store x) {v : ℕ} {writes : Writes} {t : Tree} (hb : x.base = some t)
    (late : ∀ l, x.latest = some l → l ≤ v) (hs : ∀ e ∈ x.schemes, e.1 ≤ v)
    (hw : Committed writes) : ∃ store',
      StateTrie.commit store v writes =
        .ok ((t.putAll v (byStem writes).entries).hash (x.scheme v), store') ∧
      Advance store store' x v x.schemes (t.putAll v (byStem writes).entries) := by
  obtain ⟨base, placed, committed, loads⟩ := h.latestBase hb late hs
  obtain ⟨b, store', run, moves, after⟩ := @commitOn_moves _ _ _ _ _ _ none _ hw base rfl placed
    (loads.sub (Set.subset_univ _) (fun _ _ => rfl))
  have data (k : DataKey) : store'.get? k.key = b.data k := by
    obtain ⟨ne, ne', -⟩ := data_ne k v
    rw [after, if_neg ne, if_neg ne']
    rfl
  have stale (w : ℕ) (k : DataKey) : store'.get? (staleKey w k.key) = b.get (staleKey w k.key) := by
    obtain ⟨ne, ne', -⟩ := stale_ne w v k
    rw [after, if_neg ne, if_neg ne']
  have log (k : DataKey) : store'.get? (staleKey v k.key) =
      if k.version ≠ v ∧ t.live (x.scheme v) 0 0 k ≠ none ∧
          (t.putAll v (byStem writes).entries).live (x.scheme v) 0 0 k = none then some .stale
      else store.get? (staleKey v k.key) := by
    have here := moves.stale k
    unfold Batch.staleAt at here
    rw [moves.same.2.1] at here
    rw [stale]
    exact here
  have placed' := Tree.placed_putAll (v := v) (byStem writes).entries placed
    (fun e he => byStem_stem he)
  have sameScheme {l : ℕ} (hl : x.latest = some l) : x.scheme l = x.scheme v :=
    schemeFrom_late (h.schemesLe l hl) hs
  have ofLatest {l : ℕ} (hl : x.latest = some l) : x.tree l = some t := by
    unfold Versions.base at hb
    rwa [hl] at hb
  refine ⟨store', ?_, ?_⟩
  · simp only [StateTrie.commit, h.schemeAt, bind, Except.bind]
    exact run
  constructor
  case late => exact late
  case alive =>
    intro l hl dead
    rw [ofLatest hl] at dead
    cases dead
  case schemes =>
    rw [← h.schemes]
    refine schemes_eq ?_
    rw [after, if_neg (by simp [schemesKey, latestKey]), if_neg (by simp [schemesKey, rootKey]),
      moves.aside _ (aside_schemes _)]
    rfl
  case schemesLe => exact hs
  case stable => exact fun _ _ _ _ => rfl
  case latest => rw [after, if_pos rfl]
  case root => rw [after, if_neg (by simp [rootKey, latestKey]), if_pos rfl]; rfl
  case roots =>
    intro w hw
    rw [after, if_neg (by simp [rootKey, latestKey]), if_neg (by simpa [rootKey] using hw),
      moves.aside _ (aside_root _ _)]
    rfl
  case placed => exact placed'
  case committed => exact holds_committed placed committed hw
  case new =>
    intro k own
    rw [data]
    by_cases inside : k ∈ Region 0 0
    · exact moves.fresh k inside own ((loads k trivial).1 own)
    · rw [moves.frame k (.inl inside)]
      change _ = (t.putAll v (byStem writes).entries).live (x.scheme v) 0 0 k
      rw [live_outside placed' inside, (loads k trivial).1 own, live_outside placed inside]
  case kept =>
    intro k other
    rw [data, moves.frame k (.inr other)]
    rfl
  case old =>
    intro k other live
    have same := moves.old k other live
    obtain ⟨-, rfl⟩ | ⟨l, hl, hb⟩ := Versions.base_cases hb
    · exact absurd same live
    · refine ⟨l, t, hl, hb, ?_⟩
      rw [sameScheme hl]
      exact same.symm
  case keys =>
    intro key some
    by_contra no
    rw [after] at some
    split_ifs at some with hlat hroot
    · exact no (hlat ▸ .latest)
    · exact no (hroot ▸ .root v)
    · rw [moves.aside key (keyed_aside no)] at some
      exact no (h.keys key some)
  case staleOther =>
    intro w k hw
    rw [stale, moves.aside _ (aside_stale hw k)]
    rfl
  case staleKept =>
    intro k some
    rw [log]
    split_ifs
    · simp
    · exact some
  case staleNew =>
    intro k some
    rw [log] at some
    split_ifs at some with gone
    · refine .inr ⟨?_, gone.2.2⟩
      obtain ⟨other, live, -⟩ := gone
      obtain ⟨-, rfl⟩ | ⟨l, hl, hb⟩ := Versions.base_cases hb
      · exact absurd rfl live
      · rw [← sameScheme hl] at live
        have := (h.held l t hb k live).1
        have := late l hl
        omega
    · exact .inl some
  case logged =>
    intro l s k hl hls live gone low
    obtain rfl := Option.some.inj (hls.symm.trans (ofLatest hl))
    rw [log, if_pos]
    · simp
    · rw [sameScheme hl] at live
      exact ⟨low.ne, live, gone⟩

end Steps

end Tenzro.StateTrie
