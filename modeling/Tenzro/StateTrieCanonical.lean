import Tenzro.StateTrieRuns

set_option autoImplicit false
set_option linter.dupNamespace false

/-!
# The incremental trie is canonical

The trie stands for a map from namespaced keys to values. Whatever the history of commits
and scheme switches, a commit's root is the root, from scratch, of the map its writes make.
-/
namespace Tenzro
open List Function SortedMap
namespace StateTrie

/-- A committed state: each namespaced key's value. -/
abbrev Contents := SortedMap (Lex (String × List ℕ)) (List ℕ)

namespace Contents

def write (c : Contents) (e : Lex (String × List ℕ) × Option (List ℕ)) : Contents :=
  match e.2 with
  | some v => c.insert e.1 v
  | none => c.erase e.1

def writeAll (c : Contents) (writes : Writes) : Contents := writes.entries.foldl write c

def entriesOf (c : Contents) : List Entry :=
  c.entries.map (fun e => ⟨(ofLex e.1).1, (ofLex e.1).2, e.2⟩)

theorem get?_write (c : Contents) (e : Lex (String × List ℕ) × Option (List ℕ))
    (k : Lex (String × List ℕ)) : (c.write e).get? k = if k = e.1 then e.2 else c.get? k := by
  unfold write
  cases h : e.2 with
  | none =>
    simp only [get?_erase]
    split_ifs <;> rfl
  | some v =>
    simp only [get?_insert]
    split_ifs <;> rfl

theorem get?_writeAll (c : Contents) (writes : Writes) (k : Lex (String × List ℕ)) :
    (c.writeAll writes).get? k = (writes.get? k).elim (c.get? k) id := by
  have fold (l : List (Lex (String × List ℕ) × Option (List ℕ)))
      (sorted : l.Pairwise (fun a b => a.1 < b.1)) (c : Contents) :
      (l.foldl write c).get? k = (SortedMap.find l k).elim (c.get? k) id := by
    induction l generalizing c with
    | nil => rfl
    | cons e l ih =>
      obtain ⟨above, sorted⟩ := pairwise_cons.1 sorted
      rw [foldl_cons, ih sorted, get?_write, SortedMap.find]
      by_cases here : k = e.1
      · have later : SortedMap.find l k = none := by
          refine find_eq_none.2 ?_
          intro x hx same
          have := above x hx
          rw [same, here] at this
          exact lt_irrefl _ this
        rw [later, if_pos here, if_pos here]
        rfl
      · rw [if_neg here, if_neg here]
  exact fold writes.entries writes.sorted c

theorem mem_entriesOf {c : Contents} {e : Entry} :
    e ∈ c.entriesOf ↔ c.get? (toLex (e.ns, e.key)) = some e.value := by
  unfold entriesOf
  rw [mem_map]
  constructor
  · rintro ⟨⟨k, v⟩, mem, rfl⟩
    exact SortedMap.mem_entries.1 mem
  · intro h
    exact ⟨(toLex (e.ns, e.key), e.value), SortedMap.mem_entries.2 h, rfl⟩

theorem nodup_entriesOf (c : Contents) : c.entriesOf.Nodup := by
  refine Nodup.of_map (fun e => toLex (e.ns, e.key)) ?_
  have keys : c.entriesOf.map (fun e => toLex (e.ns, e.key)) = c.keys := by
    unfold entriesOf SortedMap.keys
    rw [map_map]
    rfl
  rw [keys]
  exact c.keys_nodup

end Contents

def Writes.keySet (writes : Writes) : Set (String × List ℕ) :=
  { k | writes.get? (toLex k) ≠ none }

variable [TrieHash]

def treeKeyOf (k : String × List ℕ) : ℕ := TrieHash.treeKey k.1 k.2

theorem treeKey_of_path {a b : String × List ℕ} (h : pathOf a.1 a.2 = pathOf b.1 b.2) :
    treeKeyOf a = treeKeyOf b := by
  unfold treeKeyOf
  rw [← joinTreeKey_split (TrieHash.treeKey a.1 a.2), ← joinTreeKey_split (TrieHash.treeKey b.1 b.2)]
  unfold pathOf at h
  rw [h]

/-- The tree holds exactly the entries of the map. -/
def Tree.Represents (t : Tree) (c : Contents) : Prop :=
  ∀ e : Entry, c.get? (toLex (e.ns, e.key)) = some e.value ↔ t.Holds e

section Represents
variable {t : Tree} {c : Contents} {keys : Set (String × List ℕ)}

theorem Tree.Represents.hash (h : t.Represents c) (placed : t.Placed 0 0) (scheme : HashScheme) :
    t.hash scheme = rootOfEntries scheme c.entriesOf := by
  refine hash_eq_rootOfEntries placed c.nodup_entriesOf ?_
  intro e
  rw [Contents.mem_entriesOf]
  exact h e

theorem represents_nil : Tree.nil.Represents .empty := by
  intro e
  simp [holds_nil]

theorem same_key (inj : Set.InjOn treeKeyOf keys) {a b : String × List ℕ} (ha : a ∈ keys)
    (hb : b ∈ keys) (h : pathOf a.1 a.2 = pathOf b.1 b.2) : a = b :=
  inj ha hb (treeKey_of_path h)

theorem Tree.Represents.commit (h : t.Represents c) (placed : t.Placed 0 0) (v : ℕ) (writes : Writes)
    (inj : Set.InjOn treeKeyOf keys) (held : ∀ k, c.get? (toLex k) ≠ none → k ∈ keys)
    (written : writes.keySet ⊆ keys) :
    (t.putAll v (byStem writes).entries).Represents (c.writeAll writes) := by
  intro e
  rw [holds_commit placed, Contents.get?_writeAll]
  -- The write a place gets is a write to the entry's own key.
  have own {write : Lex (String × List ℕ) × Option (List ℕ)} (mem : write ∈ writes.entries)
      (place : placeOf write = e.path) (mine : (e.ns, e.key) ∈ keys) :
      ofLex write.1 = (e.ns, e.key) := by
    have named : ofLex write.1 ∈ keys := by
      refine written ?_
      change writes.get? write.1 ≠ none
      rw [SortedMap.mem_entries.1 mem]
      simp
    exact same_key inj named mine place
  cases found : ((byStem writes).getD e.path.1 .empty).get? e.path.2 with
  | none =>
    have untouched : writes.get? (toLex (e.ns, e.key)) = none := by
      by_contra hit
      obtain ⟨o, ho⟩ := Option.ne_none_iff_exists'.1 hit
      exact byStem_none found _ (SortedMap.mem_entries.2 ho) rfl
    rw [untouched]
    exact h e
  | some o =>
    obtain ⟨write, mem, place, same⟩ := byStem_some found
    change _ ↔ o = some e
    constructor
    · intro value
      have mine : (e.ns, e.key) ∈ keys := by
        cases hit : writes.get? (toLex (e.ns, e.key)) with
        | none =>
          rw [hit] at value
          exact held _ (by
            rw [show c.get? (toLex (e.ns, e.key)) = some e.value from value]
            simp)
        | some o' =>
          exact written (by
            change writes.get? (toLex (e.ns, e.key)) ≠ none
            rw [hit]
            simp)
      have key := own mem place mine
      have hit : writes.get? (toLex (e.ns, e.key)) = some write.2 := by
        rw [← key]
        exact SortedMap.mem_entries.1 mem
      rw [hit] at value
      have value : write.2 = some e.value := value
      rw [← same, updateOf, value, key]
      rfl
    · intro here
      have : updateOf write = some e := same.trans here
      unfold updateOf at this
      obtain ⟨value, hv, rfl⟩ := Option.map_eq_some_iff.1 this
      have hit : writes.get? (toLex ((ofLex write.1).1, (ofLex write.1).2)) = some (some value) := by
        rw [← hv]
        exact SortedMap.mem_entries.1 mem
      rw [hit]
      rfl

theorem Tree.Represents.recommit (h : t.Represents c) (placed : t.Placed 0 0) (v : ℕ) :
    (Tree.nil.putAll v (byStem (writesOf t.entries)).entries).Represents c := by
  intro e
  rw [h e, holds_commit (t := .nil) trivial]
  have write {k : Lex (String × List ℕ)} {o : Option (List ℕ)}
      (mem : (k, o) ∈ (writesOf t.entries).entries) :
      ∃ e', t.Holds e' ∧ k = toLex (e'.ns, e'.key) ∧ o = some e'.value := by
    obtain ⟨e', he', key, value⟩ := mem_writesOf (SortedMap.mem_entries.1 mem)
    exact ⟨e', (mem_entries placed e').1 he', key, value⟩
  cases found : ((byStem (writesOf t.entries)).getD e.path.1 .empty).get? e.path.2 with
  | none =>
    constructor
    · intro holds
      have listed := (mem_entries placed e).2 holds
      have hit : ∃ o, (toLex (e.ns, e.key), o) ∈ (writesOf t.entries).entries := by
        have fold (l : List Entry) (m : Writes)
            (hl : e ∈ l ∨ ∃ o, m.get? (toLex (e.ns, e.key)) = some o) :
            ∃ o, (l.foldl (fun writes e => writes.insert (toLex (e.ns, e.key)) (some e.value)) m).get?
              (toLex (e.ns, e.key)) = some o := by
          induction l generalizing m with
          | nil =>
            cases hl with
            | inl no => cases no
            | inr some => exact some
          | cons a l ih =>
            refine ih _ ?_
            by_cases same : toLex (e.ns, e.key) = toLex (a.ns, a.key)
            · exact .inr ⟨some a.value, by rw [get?_insert, if_pos same]⟩
            · cases hl with
              | inl mem =>
                cases mem_cons.1 mem with
                | inl here => exact absurd (by rw [here]) same
                | inr later => exact .inl later
              | inr some =>
                obtain ⟨o, ho⟩ := some
                exact .inr ⟨o, by rw [get?_insert, if_neg same, ho]⟩
        obtain ⟨o, ho⟩ := fold t.entries .empty (.inl listed)
        exact ⟨o, SortedMap.mem_entries.2 ho⟩
      obtain ⟨o, ho⟩ := hit
      exact absurd rfl (byStem_none found _ ho)
    · intro no
      exact absurd no (holds_nil e)
  | some o =>
    obtain ⟨⟨k, value⟩, mem, place, same⟩ := byStem_some found
    obtain ⟨e', holds', rfl, rfl⟩ := write mem
    have made : o = some e' := same.symm
    change _ ↔ o = some e
    rw [made]
    constructor
    · intro holds
      rw [holds.unique holds' place.symm]
    · intro here
      rw [← Option.some.inj here]
      exact holds'

end Represents

namespace Op

def version? : Op → Option ℕ
  | commit v _ => some v
  | recommitUnder v _ => some v
  | prune _ => none

def contents (c : Contents) : Op → Contents
  | commit _ writes => c.writeAll writes
  | recommitUnder .. => c
  | prune _ => c

def keySet : Op → Set (String × List ℕ)
  | commit _ writes => writes.keySet
  | recommitUnder .. => ∅
  | prune _ => ∅

end Op

/-- The map all the writes of a history make. -/
def contentsOf (ops : List Op) : Contents := ops.foldl Op.contents .empty

def keysOf (ops : List Op) : Set (String × List ℕ) := { k | ∃ op ∈ ops, k ∈ op.keySet }

/-- Versions that never decrease, over committed namespaces; a switch follows the latest
version, and no more than what precedes it is pruned. -/
def Follows : Option ℕ → List Op → Prop
  | _, [] => True
  | latest, .commit v writes :: ops =>
    (∀ l, latest = some l → l ≤ v) ∧ Committed writes ∧ Follows (some v) ops
  | latest, .recommitUnder v _ :: ops => (∃ l, latest = some l ∧ l < v) ∧ Follows (some v) ops
  | latest, .prune k :: ops => (∀ l, latest = some l → k ≤ l) ∧ Follows latest ops

section Histories
variable {store : Store} {x : Versions} {c : Contents} {t : Tree}

omit [TrieHash] in
theorem base_grow (x : Versions) (v : ℕ) (schemes : List (ℕ × HashScheme)) (t : Tree) :
    (x.grow v schemes t).base = some t := by
  unfold Versions.base Versions.grow
  simp

theorem Sound.base_placed (h : Sound store x) (hb : x.base = some t) : t.Placed 0 0 := by
  unfold Versions.base at hb
  cases hl : x.latest with
  | none =>
    rw [hl] at hb
    cases hb
    trivial
  | some l =>
    rw [hl] at hb
    exact h.placed l t hb

theorem base_prune {k : ℕ} (bound : ∀ l, x.latest = some l → k ≤ l) :
    (x.step (.prune k)).base = x.base := by
  unfold Versions.base Versions.step
  cases hl : x.latest with
  | none => rfl
  | some l => simp [not_lt.2 (bound l hl)]

omit [TrieHash] in
theorem keys_writeAll {keys : Set (String × List ℕ)} {writes : Writes}
    (held : ∀ k, c.get? (toLex k) ≠ none → k ∈ keys) (written : writes.keySet ⊆ keys) :
    ∀ k, (c.writeAll writes).get? (toLex k) ≠ none → k ∈ keys := by
  intro k found
  rw [Contents.get?_writeAll] at found
  cases hit : writes.get? (toLex k) with
  | none =>
    rw [hit] at found
    exact held k found
  | some o =>
    refine written ?_
    change writes.get? (toLex k) ≠ none
    rw [hit]
    simp

/-- From a sound store whose latest tree stands for `c`, each operation of a history that
follows it returns the root of the map so far. -/
theorem roots_canonical {keys : Set (String × List ℕ)} (inj : Set.InjOn treeKeyOf keys)
    {ops : List Op} (follows : Follows x.latest ops) (written : ∀ op ∈ ops, op.keySet ⊆ keys)
    (h : Sound store x) (begun : x.Begun) (hb : x.base = some t) (represents : t.Represents c)
    (held : ∀ k, c.get? (toLex k) ≠ none → k ∈ keys) :
    ∀ pre op post, ops = pre ++ op :: post → ∀ v, op.version? = some v →
      ∃ scheme, schemeAt (op.next (runOps store pre)) v = .ok scheme ∧
        op.root (runOps store pre) = some (.ok
          (rootOfEntries scheme ((pre ++ [op]).foldl Op.contents c).entriesOf)) := by
  induction ops generalizing store x c t with
  | nil =>
    intro pre op post split
    simp at split
  | cons first ops ih =>
    intro pre op post split v hv
    have rest := fun op hop => written op (mem_cons_of_mem first hop)
    have placed := h.base_placed hb
    -- What the first operation does, and what it leaves for the others.
    have here : ∃ x' t', Sound (first.next store) x' ∧ x'.Begun ∧ x'.base = some t' ∧
        Follows x'.latest ops ∧ t'.Represents (first.contents c) ∧
        (∀ k, (first.contents c).get? (toLex k) ≠ none → k ∈ keys) ∧
        (∀ v, first.version? = some v → ∃ scheme, schemeAt (first.next store) v = .ok scheme ∧
          first.root store = some (.ok (rootOfEntries scheme (first.contents c).entriesOf))) := by
      cases first with
      | commit v writes =>
        obtain ⟨late, committed, follows⟩ := follows
        have named : writes.keySet ⊆ keys := written (.commit v writes) (by simp)
        obtain ⟨store', run, advance⟩ := h.commit hb late (h.schemes_le begun late) committed
        have sound := advance.sound h
        have next : (Op.commit v writes).next store = store' := by simp only [Op.next, run]
        have stands := represents.commit placed v writes inj held named
        refine ⟨_, _, next ▸ sound, (fun none => by cases none), base_grow _ _ _ _, follows, stands,
          keys_writeAll held named, ?_⟩
        intro v' hv'
        obtain rfl : v = v' := Option.some.inj hv'
        refine ⟨x.scheme v, next ▸ sound.schemeAt v, ?_⟩
        rw [Op.root, run, Op.contents, ← stands.hash advance.placed]
        rfl
      | recommitUnder v scheme =>
        obtain ⟨⟨l, hl, later⟩, follows⟩ := follows
        have tree : x.tree l = some t := by
          unfold Versions.base at hb
          rw [hl] at hb
          exact hb
        obtain ⟨switched, store', run, advance⟩ := h.recommitUnder scheme hl tree later
        have sound := advance.sound h
        have next : (Op.recommitUnder v scheme).next store = store' := by simp only [Op.next, run]
        have stands := represents.recommit placed v
        refine ⟨_, _, next ▸ sound, (fun none => by cases none), base_grow _ _ _ _, follows, stands,
          held, ?_⟩
        intro v' hv'
        obtain rfl : v = v' := Option.some.inj hv'
        have own : schemeFrom v (x.schemes ++ [(v, scheme)]) = scheme :=
          schemeFrom_append_self scheme
            (fun e he => (h.schemesLe l hl e he).trans later.le)
        refine ⟨scheme, ?_, ?_⟩
        · rw [next, sound.schemeAt v]
          exact congrArg Except.ok own
        · rw [Op.root, run, Op.contents, ← stands.hash advance.placed]
          rfl
      | prune k =>
        obtain ⟨bound, follows⟩ := follows
        refine ⟨_, t, h.prune k, begun, (base_prune bound).trans hb, follows, represents, held, ?_⟩
        intro v' hv'
        cases hv'
    obtain ⟨x', t', sound, begun', hb', follows', stands, held', answer⟩ := here
    cases pre with
    | nil =>
      obtain ⟨rfl, rfl⟩ : first = op ∧ ops = post := by simpa using split
      exact answer v hv
    | cons other pre =>
      obtain ⟨rfl, rfl⟩ : first = other ∧ ops = pre ++ op :: post := by simpa using split
      exact ih follows' rest sound begun' hb' stands held' pre op post rfl v hv

/-- Every root a history of commits and switches returns is the root, from scratch and under the
version's scheme, of the map all writes so far make. -/
theorem incremental_root_canonical (ops : List Op) (follows : Follows none ops)
    (inj : Set.InjOn treeKeyOf (keysOf ops)) (pre post : List Op) (op : Op)
    (split : ops = pre ++ op :: post) (v : ℕ) (hv : op.version? = some v) :
    ∃ scheme, schemeAt (op.next (runOps .empty pre)) v = .ok scheme ∧
      op.root (runOps .empty pre) = some (.ok
        (rootOfEntries scheme (contentsOf (pre ++ [op])).entriesOf)) :=
  roots_canonical inj follows (fun op hop k hk => ⟨op, hop, hk⟩) sound_empty (fun _ => rfl) rfl
    represents_nil (by simp) pre op post split v hv

end Histories

/-- The trie as a versioned map: the latest version and the state of each retained one. -/
structure Snapshots where
  latest : Option ℕ
  state : ℕ → Option Contents

namespace Snapshots

def empty : Snapshots := ⟨none, fun _ => none⟩

def base (m : Snapshots) : Option Contents :=
  match m.latest with
  | none => some .empty
  | some l => m.state l

def grow (m : Snapshots) (v : ℕ) (c : Contents) : Snapshots :=
  ⟨some v, update m.state v (some c)⟩

open Classical in
/-- A commit writes the latest state as its own version, a switch copies it, pruning drops the
versions before a bound; what cannot be made changes nothing. -/
noncomputable def step (m : Snapshots) : Op → Snapshots
  | .commit v writes =>
    match m.base with
    | none => m
    | some c =>
      if (∀ l, m.latest = some l → l ≤ v) ∧ Committed writes then m.grow v (c.writeAll writes) else m
  | .recommitUnder v _ =>
    match m.latest.bind m.state with
    | none => m
    | some c => if ∀ l, m.latest = some l → l < v then m.grow v c else m
  | .prune keepFrom => { m with state := fun w => if w < keepFrom then none else m.state w }

noncomputable def run (m : Snapshots) (ops : List Op) : Snapshots := ops.foldl step m

end Snapshots

/-- The trees stand for the states, over keys of `keys`. -/
structure Mirrors (keys : Set (String × List ℕ)) (x : Versions) (m : Snapshots) : Prop where
  latest : x.latest = m.latest
  retained : ∀ w, x.tree w = none ↔ m.state w = none
  represents : ∀ w t c, x.tree w = some t → m.state w = some c → t.Represents c
  held : ∀ w c, m.state w = some c → ∀ k, c.get? (toLex k) ≠ none → k ∈ keys

section Mirrors
variable {keys : Set (String × List ℕ)} {store : Store} {x : Versions} {m : Snapshots}

theorem Mirrors.base (h : Mirrors keys x m) :
    x.base = none ∧ m.base = none ∨ ∃ t c, x.base = some t ∧ m.base = some c ∧ t.Represents c ∧
      ∀ k, c.get? (toLex k) ≠ none → k ∈ keys := by
  unfold Versions.base Snapshots.base
  rw [← h.latest]
  cases x.latest with
  | none => exact .inr ⟨.nil, .empty, rfl, rfl, represents_nil, by simp⟩
  | some l =>
    cases ht : x.tree l with
    | none => exact .inl ⟨ht, (h.retained l).1 ht⟩
    | some t =>
      cases hc : m.state l with
      | none =>
        rw [(h.retained l).2 hc] at ht
        cases ht
      | some c => exact .inr ⟨t, c, ht, hc, h.represents l t c ht hc, h.held l c hc⟩

theorem Mirrors.grow (h : Mirrors keys x m) (v : ℕ) (schemes : List (ℕ × HashScheme)) {t : Tree}
    {c : Contents} (represents : t.Represents c) (held : ∀ k, c.get? (toLex k) ≠ none → k ∈ keys) :
    Mirrors keys (x.grow v schemes t) (m.grow v c) where
  latest := rfl
  retained w := by
    by_cases hw : w = v
    · subst hw
      simp [Versions.grow, Snapshots.grow]
    · simpa [Versions.grow, Snapshots.grow, update_of_ne hw] using h.retained w
  represents w t' c' ht hc := by
    by_cases hw : w = v
    · subst hw
      simp only [Versions.grow, Snapshots.grow, update_self, Option.some.injEq] at ht hc
      subst ht hc
      exact represents
    · simp only [Versions.grow, Snapshots.grow, update_of_ne hw] at ht hc
      exact h.represents w t' c' ht hc
  held w c' hc := by
    by_cases hw : w = v
    · subst hw
      simp only [Snapshots.grow, update_self, Option.some.injEq] at hc
      subst hc
      exact held
    · simp only [Snapshots.grow, update_of_ne hw] at hc
      exact h.held w c' hc

theorem Mirrors.step (h : Mirrors keys x m) (inj : Set.InjOn treeKeyOf keys) (sound : Sound store x)
    (op : Op) (written : op.keySet ⊆ keys) : Mirrors keys (x.step op) (m.step op) := by
  cases op with
  | commit v writes =>
    obtain ⟨hx, hm⟩ | ⟨t, c, hx, hm, represents, held⟩ := h.base
    · simp only [Versions.step, Snapshots.step, hx, hm]
      exact h
    · simp only [Versions.step, Snapshots.step, hx, hm]
      by_cases can : (∀ l, x.latest = some l → l ≤ v) ∧ Committed writes
      · have can' := can
        rw [h.latest] at can'
        rw [if_pos can, if_pos can']
        exact h.grow v x.schemes
          (represents.commit (sound.base_placed hx) v writes inj held written)
          (keys_writeAll held written)
      · have cannot := can
        rw [h.latest] at cannot
        rw [if_neg can, if_neg cannot]
        exact h
  | recommitUnder v scheme =>
    cases ht : x.latest.bind x.tree with
    | none =>
      have hc : m.latest.bind m.state = none := by
        rw [← h.latest]
        cases hl : x.latest with
        | none => rfl
        | some l =>
          rw [hl] at ht
          exact (h.retained l).1 ht
      simp only [Versions.step, Snapshots.step, ht, hc]
      exact h
    | some t =>
      obtain ⟨l, hl, tree⟩ := Option.bind_eq_some_iff.1 ht
      cases hc : m.state l with
      | none =>
        rw [(h.retained l).2 hc] at tree
        cases tree
      | some c =>
        have bound : m.latest.bind m.state = some c := by
          rw [← h.latest, hl]
          exact hc
        simp only [Versions.step, Snapshots.step, ht, bound]
        by_cases later : ∀ l, x.latest = some l → l < v
        · have later' := later
          rw [h.latest] at later'
          rw [if_pos later, if_pos later']
          exact h.grow v _ ((h.represents l t c tree hc).recommit (sound.placed l t tree) v)
            (h.held l c hc)
        · have behind := later
          rw [h.latest] at behind
          rw [if_neg later, if_neg behind]
          exact h
  | prune keepFrom =>
    constructor
    · exact h.latest
    · intro w
      simp only [Versions.step, Snapshots.step]
      split_ifs
      · simp
      · exact h.retained w
    · intro w t c ht hc
      simp only [Versions.step, Snapshots.step] at ht hc
      split_ifs at ht hc
      exact h.represents w t c ht hc
    · intro w c hc
      simp only [Snapshots.step] at hc
      split_ifs at hc
      exact h.held w c hc

theorem Mirrors.run (h : Mirrors keys x m) (inj : Set.InjOn treeKeyOf keys) (sound : Sound store x)
    (begun : x.Begun) (ops : List Op) (written : ∀ op ∈ ops, op.keySet ⊆ keys) :
    Mirrors keys (x.run ops) (m.run ops) := by
  induction ops generalizing store x m with
  | nil => exact h
  | cons op ops ih =>
    obtain ⟨sound', begun'⟩ := sound.step begun op
    exact ih (h.step inj sound op (written op (by simp))) sound' begun'
      (fun op hop => written op (mem_cons_of_mem _ hop))

theorem mirrors_runOps (ops : List Op) (inj : Set.InjOn treeKeyOf keys) (sub : keysOf ops ⊆ keys) :
    Mirrors keys (Versions.empty.run ops) (Snapshots.empty.run ops) := by
  refine Mirrors.run ?_ inj sound_empty (fun _ => rfl) ops (fun op hop k hk => sub ⟨op, hop, hk⟩)
  exact ⟨rfl, fun w => by simp [Versions.empty, Snapshots.empty], (fun w t c ht => by cases ht),
    (fun w c hc => by cases hc)⟩

end Mirrors

end StateTrie

end Tenzro

namespace Tenzro
open List SortedMap
namespace StateTrie

def stateWrites (writes : List (List ℕ × Option (List ℕ))) : Writes :=
  writes.foldl (fun m e => m.insert (toLex ("state", e.1)) e.2) .empty

theorem committed_stateWrites (writes : List (List ℕ × Option (List ℕ))) :
    Committed (stateWrites writes) := by
  suffices held : ∀ m : Writes, Committed m →
      Committed (writes.foldl (fun m e => m.insert (toLex ("state", e.1)) e.2) m) from
    held .empty fun e mem => absurd mem not_mem_nil
  induction writes with
  | nil => exact fun m held => held
  | cons w writes ih =>
    refine fun m held => ih _ fun e mem => ?_
    rcases mem_place mem with rfl | there
    · exact (by decide : isCommittedNamespace "state" = true)
    · exact held e there

/-- Two entries, a switch of scheme, and one of them replaced and the other removed. -/
def sampleHistory : List Op :=
  [.commit 0 (stateWrites [([2 ^ 255], some [1]), ([1], some [2])]), .recommitUnder 1 .blake3,
    .commit 1 (stateWrites [([2 ^ 255], some [3]), ([1], none)])]

theorem sampleHistory_keys {k : String × List ℕ} (h : k ∈ keysOf sampleHistory) :
    k = ("state", [2 ^ 255]) ∨ k = ("state", [1]) := by
  obtain ⟨op, mem, named⟩ := h
  simp only [sampleHistory, mem_cons, not_mem_nil, or_false] at mem
  rcases mem with rfl | rfl | rfl
  · simp only [Op.keySet, Writes.keySet, stateWrites, Set.mem_ofPred_eq, foldl_cons,
      foldl_nil, get?_insert, get?_empty] at named
    split_ifs at named with second first
    · exact .inr (toLex.injective second)
    · exact .inl (toLex.injective first)
    · exact absurd rfl named
  · cases named
  · simp only [Op.keySet, Writes.keySet, stateWrites, Set.mem_ofPred_eq, foldl_cons,
      foldl_nil, get?_insert, get?_empty] at named
    split_ifs at named with second first
    · exact .inr (toLex.injective second)
    · exact .inl (toLex.injective first)
    · exact absurd rfl named

theorem treeKeys_apart :
    @treeKeyOf encodedHash ("state", [1]) ≠ @treeKeyOf encodedHash ("state", [2 ^ 255]) := by
  decide

theorem sampleHistory_injOn : Set.InjOn (@treeKeyOf encodedHash) (keysOf sampleHistory) := by
  intro a ha b hb h
  rcases sampleHistory_keys ha with rfl | rfl <;> rcases sampleHistory_keys hb with rfl | rfl
  · rfl
  · exact absurd h.symm treeKeys_apart
  · exact absurd h treeKeys_apart
  · rfl

theorem sampleHistory_follows : Follows none sampleHistory := by
  simp only [Follows, sampleHistory, and_true]
  refine ⟨by simp, ?_, ⟨0, rfl, by decide⟩, by simp, ?_⟩
  · exact committed_stateWrites _
  · exact committed_stateWrites _

/-- After the switch and the deletion the root is that of the one entry left. -/
theorem incremental_root_canonical_sample :
    ∃ scheme, @schemeAt (@Op.next encodedHash (@runOps encodedHash .empty (sampleHistory.take 2))
        (.commit 1 (stateWrites [([2 ^ 255], some [3]), ([1], none)]))) 1 = .ok scheme ∧
      @Op.root encodedHash (@runOps encodedHash .empty (sampleHistory.take 2))
          (.commit 1 (stateWrites [([2 ^ 255], some [3]), ([1], none)])) =
        some (.ok (@rootOfEntries encodedHash scheme (contentsOf sampleHistory).entriesOf)) :=
  @incremental_root_canonical encodedHash sampleHistory sampleHistory_follows sampleHistory_injOn
    (sampleHistory.take 2) [] _ rfl 1 rfl

end StateTrie

end Tenzro
