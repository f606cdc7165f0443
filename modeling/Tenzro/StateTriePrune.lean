import Tenzro.StateTrieProofSound

set_option autoImplicit false
set_option linter.dupNamespace false

/-!
# Retained versions are immutable, and what pruning leaves

Pruning leaves exactly the records the retained versions reach, unless the
lowest one was committed again and a lower bound is pruned after it.
-/
namespace Tenzro
open List Function Option SortedMap
namespace StateTrie

def reach (store : Store) : ℕ → Option NodeRef → ℕ → ℕ → List (List ℕ)
  | _, none, _, _ => []
  | 0, some r, d, p =>
    pathKey r.version d p ::
      match readNode store r d p with
      | .ok (.stem s slots) => slots.entries.map (fun e => valueKey (joinTreeKey s e.1) e.2.2)
      | _ => []
  | n + 1, some r, d, p =>
    pathKey r.version d p ::
      match readNode store r d p with
      | .ok (.stem s slots) => slots.entries.map (fun e => valueKey (joinTreeKey s e.1) e.2.2)
      | .ok (.internal left right) =>
        reach store n left (d + 1) (2 * p) ++ reach store n right (d + 1) (2 * p + 1)
      | .error _ => []

/-- A node or value record that the root of a version at or after `k` reaches. -/
def ReachableFrom (store : Store) (k : ℕ) (key : List ℕ) : Prop :=
  ∃ w, k ≤ w ∧ ∃ root, rootRef store w = .ok (some root) ∧ key ∈ reach store stemBits root 0 0

variable [TrieHash]

section Reach
variable {scheme : HashScheme} {store : Store} {d p : ℕ}

theorem slotRecords_ne_none {s : ℕ} {slots : Slots} (hs : SlotsOf s slots) {k : DataKey} :
    slotRecords s slots k ≠ none ↔
      ∃ i e w, slots.get? i = some (e, w) ∧ k = .value (joinTreeKey s i) w := by
  cases k with
  | node u e q => simp [slotRecords]
  | value tk w =>
    constructor
    · intro live
      simp only [slotRecords] at live
      split_ifs at live with stem
      · cases found : slots.get? (splitTreeKey tk).2 with
        | none => simp [found] at live
        | some e =>
          obtain ⟨e, w'⟩ := e
          rw [found] at live
          by_cases same : w' = w
          · refine ⟨_, e, w', found, ?_⟩
            rw [eq_join stem rfl, same, splitTreeKey_join (slot_lt hs found)]
          · simp [Option.filter, same] at live
      · exact absurd rfl live
    · rintro ⟨i, e, w', found, same⟩
      obtain ⟨rfl, rfl⟩ : tk = joinTreeKey s i ∧ w = w' := by simpa using same
      rw [slotRecords_join (slot_lt hs found), found]
      simp

theorem mem_reach {t : Tree} {n : ℕ} (room : d + n = stemBits) (placed : t.Placed d p)
    (h : Has store (t.live scheme d p)) (key : List ℕ) :
    key ∈ reach store n (t.ref scheme) d p ↔ ∃ k : DataKey, key = k.key ∧ t.live scheme d p k ≠ none := by
  induction t generalizing d p n with
  | nil => cases n <;> simp [reach, Tree.ref, Tree.live]
  | stem v s slots =>
    have read := h.readStem (r := ⟨v, (Tree.stem v s slots).hash scheme, true⟩) rfl
    have slotsOf := placed.2.2.2
    have unfolded : reach store n ((Tree.stem v s slots).ref scheme) d p =
        pathKey v d p :: (storedSlots scheme slots).entries.map
          (fun e => valueKey (joinTreeKey s e.1) e.2.2) := by
      cases n <;> simp [Tree.ref, reach, read]
    rw [unfolded, live_stem, mem_cons]
    constructor
    · rintro (rfl | mem)
      · exact ⟨.node v d p, rfl, by simp⟩
      · obtain ⟨⟨i, hash, w⟩, entry, rfl⟩ := mem_map.1 mem
        have found := mem_entries.1 entry
        rw [storedSlots, get?_map] at found
        obtain ⟨e, he, same⟩ := map_eq_some_iff.1 found
        refine ⟨.value (joinTreeKey s i) w, rfl, ?_⟩
        rw [update_of_ne (by simp)]
        refine (slotRecords_ne_none slotsOf).2 ⟨i, e.1, w, ?_, rfl⟩
        have : e.2 = w := congrArg Prod.snd same
        rw [he, ← this]
    · rintro ⟨k, rfl, live⟩
      by_cases here : k = .node v d p
      · rw [here]
        exact .inl rfl
      · rw [update_of_ne here] at live
        obtain ⟨i, e, w, found, rfl⟩ := (slotRecords_ne_none slotsOf).1 live
        refine .inr (mem_map.2 ⟨(i, leafHash scheme e.value, w), ?_, rfl⟩)
        refine mem_entries.2 ?_
        rw [storedSlots, get?_map, found]
        rfl
  | node v l r ihl ihr =>
    obtain ⟨hd, hl, hr, -⟩ := placed
    obtain ⟨n, rfl⟩ : ∃ m, n = m + 1 := ⟨n - 1, by omega⟩
    have read := h.readInternal (r := ⟨v, (Tree.node v l r).hash scheme, false⟩) rfl
    have left := ihl (n := n) (by omega) hl (h.left hl)
    have right := ihr (n := n) (by omega) hr (h.right hl hr)
    rw [Tree.ref_node, live_node]
    simp only [reach, read, mem_cons, mem_append, left, right]
    constructor
    · rintro (rfl | ⟨k, rfl, live⟩ | ⟨k, rfl, live⟩)
      · exact ⟨.node v d p, rfl, by simp⟩
      · refine ⟨k, rfl, ?_⟩
        have inside := live_region hl live
        have apart : k ≠ .node v d p := fun same => node_not_below v d p _ (same ▸ inside)
        rw [update_of_ne apart, pairLive_left hr inside]
        exact live
      · refine ⟨k, rfl, ?_⟩
        have inside := live_region hr live
        have apart : k ≠ .node v d p := fun same => node_not_below v d p _ (same ▸ inside)
        rw [update_of_ne apart, pairLive_right hl inside]
        exact live
    · rintro ⟨k, rfl, live⟩
      by_cases here : k = .node v d p
      · rw [here]
        exact .inl rfl
      · rw [update_of_ne here, pairLive] at live
        cases hk : l.live scheme (d + 1) (2 * p) k with
        | some x => exact .inr (.inl ⟨k, rfl, by rw [hk]; simp⟩)
        | none =>
          rw [hk, none_or] at live
          exact .inr (.inr ⟨k, rfl, live⟩)

theorem Sound.reachable {x : Versions} (h : Sound store x) (k : ℕ) (key : List ℕ) :
    ReachableFrom store k key ↔ ∃ w t, k ≤ w ∧ x.tree w = some t ∧
      ∃ y : DataKey, key = y.key ∧ t.live (x.scheme w) 0 0 y ≠ none := by
  have at' {w : ℕ} {t : Tree} (ht : x.tree w = some t) :=
    mem_reach (n := stemBits) (by omega) (h.placed w t ht) (fun y live => (h.held w t ht y live).2) key
  constructor
  · rintro ⟨w, low, root, found, mem⟩
    rw [h.rootRef] at found
    cases ht : x.tree w with
    | none =>
      rw [ht] at found
      cases found
    | some t =>
      rw [ht] at found
      have same : t.ref (x.scheme w) = root := by simpa using found
      subst same
      exact ⟨w, t, low, ht, (at' ht).1 mem⟩
  · rintro ⟨w, t, low, ht, live⟩
    refine ⟨w, low, t.ref (x.scheme w), ?_, (at' ht).2 live⟩
    rw [h.rootRef, ht]
    rfl

end Reach

/-- What a history has committed and pruned, and whether the version at the largest bound was
committed again since. -/
structure Track where
  latest : Option ℕ
  floor : ℕ
  reopened : Bool

namespace Track

def start : Track := ⟨none, 0, false⟩

def step (track : Track) : Op → Track
  | .commit v _ => { track with latest := some v, reopened := track.reopened || v == track.floor }
  | .recommitUnder v _ => { track with latest := some v }
  | .prune k => if track.floor ≤ k then { track with floor := k, reopened := false } else track

/-- Commits at consecutive versions, the latest possibly again; switches at the next one; bounds
at most the latest version. -/
def Admits (track : Track) : Op → Prop
  | .commit v writes => (∀ l, track.latest = some l → v = l ∨ v = l + 1) ∧ Committed writes
  | .recommitUnder v _ => ∃ l, track.latest = some l ∧ v = l + 1
  | .prune k => ∃ l, track.latest = some l ∧ k ≤ l

/-- A bound below an earlier one comes only while that version has not been committed again. -/
def Orders (track : Track) : Op → Prop
  | .prune k => track.floor ≤ k ∨ track.reopened = false
  | _ => True

def run (track : Track) (ops : List Op) : Track := ops.foldl step track

end Track

/-- Every operation of a history is admitted where it stands. -/
def Consecutive : Track → List Op → Prop
  | _, [] => True
  | track, op :: ops => track.Admits op ∧ Consecutive (track.step op) ops

def Ordered : Track → List Op → Prop
  | _, [] => True
  | track, op :: ops => track.Orders op ∧ Ordered (track.step op) ops

/-- The retained trees have no gap, from the floor or the first version on. -/
structure Tended (x : Versions) (track : Track) : Prop where
  latest : x.latest = track.latest
  first : x.latest = none → track.floor = 0
  floorLe : ∀ l, x.latest = some l → track.floor ≤ l
  alive : ∀ l, x.latest = some l → x.tree l ≠ none
  above : ∀ w t, x.tree w = some t → track.floor ≤ w
  full : ∀ w w' l t, x.tree w = some t → x.latest = some l → w ≤ w' → w' ≤ l → x.tree w' ≠ none

/-- The records of the latest tree that an earlier version wrote are also an earlier tree's. -/
def Shared (x : Versions) (floor : ℕ) : Prop :=
  ∀ l t (k : DataKey), x.latest = some l → x.tree l = some t → t.live (x.scheme l) 0 0 k ≠ none →
    k.version < l → floor = l ∨
      ∃ w t', w < l ∧ x.tree w = some t' ∧ t'.live (x.scheme w) 0 0 k ≠ none

/-- Every record is some retained tree's, or was retired since the lowest version was pruned. -/
def Tidy (store : Store) (x : Versions) (track : Track) : Prop :=
  ∀ k : DataKey, store.get? k.key ≠ none →
    (∃ w t, x.tree w = some t ∧ t.live (x.scheme w) 0 0 k ≠ none) ∨
      track.reopened = true ∧ store.get? (staleKey track.floor k.key) ≠ none

/-- The log below the floor is empty until the version there is committed again. -/
def Cleared (store : Store) (track : Track) : Prop :=
  track.reopened = false → ∀ v (k : DataKey), store.get? (staleKey v k.key) ≠ none → track.floor < v

section Tended
variable {store store' : Store} {x : Versions} {track : Track} {v : ℕ}
  {schemes' : List (ℕ × HashScheme)} {t' : Tree}

omit [TrieHash] in
theorem Tended.base (h : Tended x track) : ∃ t, x.base = some t := by
  unfold Versions.base
  cases hl : x.latest with
  | none => exact ⟨.nil, rfl⟩
  | some l => exact ne_none_iff_exists'.1 (h.alive l hl)

omit [TrieHash] in
theorem Tended.floor_le (h : Tended x track) (next : ∀ l, x.latest = some l → v = l ∨ v = l + 1) :
    track.floor ≤ v := by
  cases hl : x.latest with
  | none =>
    rw [h.first hl]
    exact Nat.zero_le _
  | some l =>
    have := h.floorLe l hl
    rcases next l hl with rfl | rfl <;> omega

theorem Tended.grow (h : Tended x track) (sound : Sound store x)
    (next : ∀ l, x.latest = some l → v = l ∨ v = l + 1) {track' : Track}
    (latest : track'.latest = some v) (floor : track'.floor = track.floor) :
    Tended (x.grow v schemes' t') track' where
  latest := latest.symm
  first none := by cases none
  floorLe l hl := by
    cases hl
    rw [floor]
    exact h.floor_le next
  alive l hl := by
    cases hl
    rw [Advance.tree_grow_self]
    simp
  above w t ht := by
    rw [floor]
    by_cases hw : w = v
    · rw [hw]
      exact h.floor_le next
    · rw [Advance.tree_grow hw] at ht
      exact h.above w t ht
  full w w' l t ht hl low high := by
    cases hl
    by_cases hw' : w' = v
    · subst hw'
      rw [Advance.tree_grow_self]
      simp
    · by_cases hw : w = v
      · omega
      · rw [Advance.tree_grow hw] at ht
        rw [Advance.tree_grow hw']
        obtain ⟨l, hl, -⟩ := sound.bounded w t ht
        refine h.full w w' l t ht hl low ?_
        rcases next l hl with rfl | rfl <;> omega

theorem Advance.other {w : ℕ} {t : Tree} (h : Advance store store' x v schemes' t') (hw : w ≠ v)
    (ht : x.tree w = some t) {k : DataKey} (live : t.live (x.scheme w) 0 0 k ≠ none) :
    (x.grow v schemes' t').tree w = some t ∧
      t.live ((x.grow v schemes' t').scheme w) 0 0 k ≠ none := by
  rw [Advance.tree_grow hw, h.scheme_grow hw ht]
  exact ⟨ht, live⟩

theorem Advance.shared (h : Advance store store' x v schemes' t') (shared : Shared x track.floor) :
    Shared (x.grow v schemes' t') track.floor := by
  intro l t k hl ht live low
  cases hl
  rw [Advance.tree_grow_self] at ht
  cases ht
  obtain ⟨l, t, hl, ht, same⟩ := h.old k low.ne live
  have was : t.live (x.scheme l) 0 0 k ≠ none := by
    rw [same]
    exact live
  have late := h.late l hl
  by_cases again : l = v
  · subst again
    rcases shared l t k hl ht was low with floor | ⟨w, t'', lt, ht'', live''⟩
    · exact .inl floor
    · obtain ⟨kept, live''⟩ := h.other lt.ne ht'' live''
      exact .inr ⟨w, t'', lt, kept, live''⟩
  · obtain ⟨kept, was⟩ := h.other again ht was
    exact .inr ⟨l, t, by omega, kept, was⟩

theorem Advance.tidy (h : Advance store store' x v schemes' t') (sound : Sound store x)
    (shared : Shared x track.floor) (tidy : Tidy store x track) {track' : Track}
    (floor : track'.floor = track.floor) (kept : track.reopened = true → track'.reopened = true)
    (reopens : ∀ l, x.latest = some l → v = l → v = track.floor → track'.reopened = true) :
    Tidy store' (x.grow v schemes' t') track' := by
  intro k found
  by_cases own : k.version = v
  · rw [h.new k own] at found
    exact .inl ⟨v, t', Advance.tree_grow_self, found⟩
  · rw [h.kept k own] at found
    rw [floor]
    rcases tidy k found with ⟨w, t, ht, live⟩ | ⟨reopened, log⟩
    · by_cases hw : w = v
      · subst hw
        -- The tree of this same version is replaced: what it drops is an older tree's, or logged.
        obtain ⟨l, hl, bound⟩ := sound.bounded w t ht
        obtain rfl : l = w := by
          have := h.late l hl
          omega
        have low : k.version < l := by
          have := (sound.held l t ht k live).1
          omega
        by_cases dropped : t'.live (schemeFrom l schemes') 0 0 k = none
        · rcases shared l t k hl ht live low with same | ⟨w, t'', lt, ht'', live''⟩
          · refine .inr ⟨reopens l hl rfl same.symm, ?_⟩
            rw [same]
            exact h.logged l t k hl ht live dropped low
          · obtain ⟨kept, live''⟩ := h.other lt.ne ht'' live''
            exact .inl ⟨w, t'', kept, live''⟩
        · exact .inl ⟨l, t', Advance.tree_grow_self, dropped⟩
      · obtain ⟨kept, live⟩ := h.other hw ht live
        exact .inl ⟨w, t, kept, live⟩
    · refine .inr ⟨kept reopened, ?_⟩
      by_cases same : track.floor = v
      · rw [same] at log ⊢
        exact h.staleKept k log
      · rw [h.staleOther _ k same]
        exact log

theorem Advance.cleared (h : Advance store store' x v schemes' t') (tended : Tended x track)
    (next : ∀ l, x.latest = some l → v = l ∨ v = l + 1) (cleared : Cleared store track)
    {track' : Track} (floor : track'.floor = track.floor)
    (before : track'.reopened = false → track.reopened = false ∧ v ≠ track.floor) :
    Cleared store' track' := by
  intro still w k found
  obtain ⟨was, apart⟩ := before still
  rw [floor]
  by_cases own : w = v
  · have := tended.floor_le next
    omega
  · rw [h.staleOther w k own] at found
    exact cleared was w k found

end Tended

section Runs
variable {store : Store} {x : Versions} {track : Track}

/-- What a run of admitted operations keeps. -/
structure Kept (store : Store) (x : Versions) (track : Track) : Prop where
  sound : Sound store x
  begun : x.Begun
  tended : Tended x track

/-- What a run whose bounds are in order keeps besides. -/
structure Neat (store : Store) (x : Versions) (track : Track) : Prop where
  shared : Shared x track.floor
  tidy : Tidy store x track
  cleared : Cleared store track

theorem Kept.commit (h : Kept store x track) {v : ℕ} {writes : Writes}
    (admits : track.Admits (.commit v writes)) : ∃ (t : Tree) (store' : Store),
      x.step (.commit v writes) = x.grow v x.schemes (t.putAll v (byStem writes).entries) ∧
      (Op.commit v writes).next store = store' ∧
      Advance store store' x v x.schemes (t.putAll v (byStem writes).entries) := by
  obtain ⟨t, hb⟩ := h.tended.base
  have late : ∀ l, x.latest = some l → l ≤ v := by
    intro l hl
    rw [h.tended.latest] at hl
    rcases admits.1 l hl with rfl | rfl <;> omega
  obtain ⟨store', run, advance⟩ := h.sound.commit hb late (h.sound.schemes_le h.begun late) admits.2
  refine ⟨t, store', ?_, by simp only [Op.next, run], advance⟩
  simp only [Versions.step, hb]
  exact if_pos ⟨late, admits.2⟩

theorem Kept.recommit (h : Kept store x track) {v : ℕ} {scheme : HashScheme}
    (admits : track.Admits (.recommitUnder v scheme)) : ∃ t store',
      x.step (.recommitUnder v scheme) = x.grow v (x.schemes ++ [(v, scheme)]) t ∧
      (Op.recommitUnder v scheme).next store = store' ∧
      Advance store store' x v (x.schemes ++ [(v, scheme)]) t := by
  obtain ⟨l, hl, rfl⟩ := admits
  rw [← h.tended.latest] at hl
  obtain ⟨t, ht⟩ := ne_none_iff_exists'.1 (h.tended.alive l hl)
  obtain ⟨switched, store', run, advance⟩ := h.sound.recommitUnder scheme hl ht (Nat.lt_succ_self l)
  refine ⟨_, store', ?_, by simp only [Op.next, run], advance⟩
  have found : x.latest.bind x.tree = some t := by
    rw [hl]
    exact ht
  simp only [Versions.step, found]
  refine if_pos ?_
  intro l' hl'
  rw [hl] at hl'
  cases hl'
  exact Nat.lt_succ_self l

theorem Tended.prune (h : Tended x track) {k : ℕ} (admits : track.Admits (.prune k)) :
    Tended (x.step (.prune k)) (track.step (.prune k)) := by
  obtain ⟨l, hl, bound⟩ := admits
  rw [← h.latest] at hl
  have tree (w : ℕ) (t : Tree) (ht : (x.step (.prune k)).tree w = some t) :
      k ≤ w ∧ x.tree w = some t := by
    change (if w < k then none else x.tree w) = some t at ht
    split_ifs at ht with low
    exact ⟨not_lt.1 low, ht⟩
  have floor : (track.step (.prune k)).floor = max track.floor k := by
    simp only [Track.step]
    split_ifs with low
    · exact (max_eq_right low).symm
    · exact (max_eq_left (by omega)).symm
  have latest : (track.step (.prune k)).latest = track.latest := by
    simp only [Track.step]
    split_ifs <;> rfl
  constructor
  case latest => exact h.latest.trans latest.symm
  case first =>
    intro none
    rw [show (x.step (.prune k)).latest = x.latest from rfl, hl] at none
    cases none
  case floorLe =>
    intro l' hl'
    have := h.floorLe l' hl'
    have same : l' = l := Option.some.inj (hl'.symm.trans hl)
    rw [floor]
    exact max_le this (same ▸ bound)
  case alive =>
    intro l' hl'
    have same : l' = l := Option.some.inj (hl'.symm.trans hl)
    subst same
    change (if l' < k then none else x.tree l') ≠ none
    rw [if_neg (by omega)]
    exact h.alive l' hl
  case above =>
    intro w t ht
    obtain ⟨low, ht⟩ := tree w t ht
    rw [floor]
    exact max_le (h.above w t ht) low
  case full =>
    intro w w' l' t ht hl' low high
    obtain ⟨above, ht⟩ := tree w t ht
    change (if w' < k then none else x.tree w') ≠ none
    rw [if_neg (by omega)]
    exact h.full w w' l' t ht hl' low high

theorem Kept.step (h : Kept store x track) {op : Op} (admits : track.Admits op) :
    Kept (op.next store) (x.step op) (track.step op) := by
  obtain ⟨sound, begun⟩ := h.sound.step h.begun op
  refine ⟨sound, begun, ?_⟩
  cases op with
  | commit v writes =>
    obtain ⟨t, store', step, -, -⟩ := h.commit admits
    rw [step]
    refine h.tended.grow h.sound ?_ rfl rfl
    rw [h.tended.latest]
    exact admits.1
  | recommitUnder v scheme =>
    obtain ⟨t, store', step, -, -⟩ := h.recommit admits
    rw [step]
    refine h.tended.grow h.sound ?_ rfl rfl
    rw [h.tended.latest]
    obtain ⟨l, hl, rfl⟩ := admits
    intro l' hl'
    rw [hl] at hl'
    cases hl'
    exact .inr rfl
  | prune k => exact h.tended.prune admits

theorem Sound.between (h : Sound store x) {a b c : ℕ} {s t u : Tree} {k : DataKey}
    (ha : x.tree a = some s) (hb : x.tree b = some t) (hc : x.tree c = some u) (ab : a ≤ b)
    (bc : b ≤ c) (first : s.live (x.scheme a) 0 0 k ≠ none)
    (last : u.live (x.scheme c) 0 0 k ≠ none) : t.live (x.scheme b) 0 0 k ≠ none := by
  intro gone
  by_cases same : a = b
  · subst same
    rw [ha] at hb
    cases hb
    exact first gone
  · obtain ⟨v, bound, log⟩ := h.staleFull a b s t k ha hb (by omega) first gone
    exact last ((h.staleSound v k log).2.2 c u hc (bound.trans bc))

theorem Neat.prune (h : Kept store x track) (neat : Neat store x track) {k : ℕ}
    (admits : track.Admits (.prune k)) (orders : track.Orders (.prune k)) :
    Neat ((Op.prune k).next store) (x.step (.prune k)) (track.step (.prune k)) ∧
      (∀ y : DataKey, ((Op.prune k).next store).get? y.key ≠ none → ∃ w t, k ≤ w ∧
        (x.step (.prune k)).tree w = some t ∧
          t.live ((x.step (.prune k)).scheme w) 0 0 y ≠ none) := by
  obtain ⟨l, hl, bound⟩ := admits
  rw [← h.tended.latest] at hl
  have sound := h.sound
  have keeps {w : ℕ} {t : Tree} (low : k ≤ w) (ht : x.tree w = some t) :
      (x.step (.prune k)).tree w = some t := by
    change (if w < k then none else x.tree w) = some t
    rw [if_neg (by omega), ht]
  have tree (w : ℕ) (t : Tree) (ht : (x.step (.prune k)).tree w = some t) :
      k ≤ w ∧ x.tree w = some t := by
    change (if w < k then none else x.tree w) = some t at ht
    split_ifs at ht with low
    exact ⟨not_lt.1 low, ht⟩
  -- What is left was not logged at or below the bound.
  have left {y : DataKey} (found : ((Op.prune k).next store).get? y.key ≠ none) :
      store.get? y.key ≠ none ∧ ∀ v, v ≤ k → store.get? (staleKey v y.key) = none := by
    have unlogged : ∀ v, v ≤ k → store.get? (staleKey v y.key) = none := by
      intro v low
      by_contra log
      exact found (sound.pruned_gone low log)
    refine ⟨?_, unlogged⟩
    rw [← sound.pruned_data unlogged]
    exact found
  have after (low : track.floor ≤ k) :
      track.step (.prune k) = { track with floor := k, reopened := false } := by
    simp only [Track.step, if_pos low]
  -- A lower bound finds nothing to delete.
  have kept (low : ¬ track.floor ≤ k) : track.reopened = false ∧ track.step (.prune k) = track ∧
      ∀ w t, x.tree w = some t → k ≤ w := by
    refine ⟨orders.resolve_left low, by simp only [Track.step, if_neg low], fun w t ht => ?_⟩
    have := h.tended.above w t ht
    omega
  have reached {y : DataKey} (found : ((Op.prune k).next store).get? y.key ≠ none) :
      ∃ w t, k ≤ w ∧ (x.step (.prune k)).tree w = some t ∧
        t.live ((x.step (.prune k)).scheme w) 0 0 y ≠ none := by
    obtain ⟨was, unlogged⟩ := left found
    rcases neat.tidy y was with ⟨w, t, ht, live⟩ | ⟨reopened, log⟩
    · by_cases high : k ≤ w
      · exact ⟨w, t, high, keeps high ht, live⟩
      · obtain ⟨t', ht'⟩ := ne_none_iff_exists'.1
          (h.tended.full w k l t ht hl (by omega) bound)
        refine ⟨k, t', le_refl k, keeps (le_refl k) ht', ?_⟩
        intro gone
        obtain ⟨v, small, log⟩ := sound.staleFull w k t t' y ht ht' (by omega) live gone
        exact log (unlogged v small)
    · by_cases low : track.floor ≤ k
      · exact absurd (unlogged _ low) log
      · rw [(kept low).1] at reopened
        cases reopened
  refine ⟨⟨?_, fun y found => ?_, ?_⟩, fun y found => reached found⟩
  · intro l' t y hl' ht live young
    obtain ⟨-, ht⟩ := tree l' t ht
    by_cases low : track.floor ≤ k
    · rw [after low]
      have same : l' = l := Option.some.inj (hl'.symm.trans hl)
      subst same
      by_cases top : k = l'
      · exact .inl top
      rcases neat.shared l' t y hl ht live young with floor | ⟨w, t', lt, ht', live'⟩
      · exact .inl (by change k = l'; omega)
      · right
        by_cases high : k ≤ w
        · exact ⟨w, t', lt, keeps high ht', live'⟩
        · -- An older tree shares it, so the one just before the latest does as well.
          obtain ⟨s, hs⟩ := ne_none_iff_exists'.1
            (h.tended.full w (l' - 1) l' t' ht' hl (by omega) (by omega))
          exact ⟨l' - 1, s, by omega, keeps (by omega) hs,
            sound.between ht' hs ht (by omega) (by omega) live' live⟩
    · obtain ⟨-, step, high⟩ := kept low
      rw [step]
      rcases neat.shared l' t y hl' ht live young with floor | ⟨w, t', lt, ht', live'⟩
      · exact .inl floor
      · exact .inr ⟨w, t', lt, keeps (high w t' ht') ht', live'⟩
  · obtain ⟨w, t, -, ht, live⟩ := reached found
    exact .inl ⟨w, t, ht, live⟩
  · intro _ v y found
    change (StateTrie.prune store k).2.get? _ ≠ none at found
    rw [sound.pruned_stale] at found
    split_ifs at found with small
    · exact absurd rfl found
    · by_cases low : track.floor ≤ k
      · rw [after low]
        exact not_le.1 small
      · rw [(kept low).2.1]
        exact neat.cleared (kept low).1 v y found

theorem Neat.step (h : Kept store x track) (neat : Neat store x track) {op : Op}
    (admits : track.Admits op) (orders : track.Orders op) :
    Neat (op.next store) (x.step op) (track.step op) := by
  cases op with
  | commit v writes =>
    obtain ⟨t, store', step, next, advance⟩ := h.commit admits
    have along : ∀ l, x.latest = some l → v = l ∨ v = l + 1 := by
      rw [h.tended.latest]
      exact admits.1
    rw [step, next]
    refine ⟨advance.shared neat.shared, ?_, ?_⟩
    · refine advance.tidy h.sound neat.shared neat.tidy rfl ?_ ?_
      · intro was
        simp [Track.step, was]
      · intro l _ _ same
        simp [Track.step, same]
    · refine advance.cleared h.tended along neat.cleared rfl ?_
      intro none
      simpa [Track.step] using none
  | recommitUnder v scheme =>
    obtain ⟨t, store', step, next, advance⟩ := h.recommit admits
    obtain ⟨l, hl, rfl⟩ := admits
    rw [← h.tended.latest] at hl
    have only : ∀ l', x.latest = some l' → l' = l :=
      fun l' hl' => Option.some.inj (hl'.symm.trans hl)
    have floor := h.tended.floorLe l hl
    rw [step, next]
    refine ⟨advance.shared neat.shared, ?_, ?_⟩
    · refine advance.tidy h.sound neat.shared neat.tidy rfl id ?_
      intro l' hl' same
      have := only l' hl'
      omega
    · refine advance.cleared h.tended ?_ neat.cleared rfl ?_
      · intro l' hl'
        exact .inr (by rw [only l' hl'])
      · intro none
        exact ⟨none, by omega⟩
  | prune k => exact (Neat.prune h neat admits orders).1

end Runs

section Histories
variable {store : Store} {x : Versions} {track : Track}

theorem kept_empty : Kept .empty Versions.empty Track.start where
  sound := sound_empty
  begun := fun _ => rfl
  tended :=
    { latest := rfl
      first := fun _ => rfl
      floorLe := fun l hl => by cases hl
      alive := fun l hl => by cases hl
      above := fun w t ht => by cases ht
      full := fun w w' l t ht => by cases ht }

theorem neat_empty : Neat .empty Versions.empty Track.start where
  shared := fun l t k hl => by cases hl
  tidy := fun k found => absurd rfl found
  cleared := fun _ v k found => absurd rfl found

theorem Kept.run (h : Kept store x track) (ops : List Op) (consecutive : Consecutive track ops) :
    Kept (runOps store ops) (x.run ops) (track.run ops) := by
  induction ops generalizing store x track with
  | nil => exact h
  | cons op ops ih => exact ih (h.step consecutive.1) consecutive.2

theorem Neat.run (h : Kept store x track) (neat : Neat store x track) (ops : List Op)
    (consecutive : Consecutive track ops) (ordered : Ordered track ops) :
    Neat (runOps store ops) (x.run ops) (track.run ops) := by
  induction ops generalizing store x track with
  | nil => exact neat
  | cons op ops ih =>
    exact ih (h.step consecutive.1) (neat.step h consecutive.1 ordered.1) consecutive.2 ordered.2

omit [TrieHash] in
theorem Consecutive.append {a b : List Op} (h : Consecutive track (a ++ b)) :
    Consecutive track a ∧ Consecutive (track.run a) b := by
  induction a generalizing track with
  | nil => exact ⟨trivial, h⟩
  | cons op a ih =>
    obtain ⟨first, rest⟩ := ih h.2
    exact ⟨⟨h.1, first⟩, rest⟩

omit [TrieHash] in
theorem Ordered.append {a b : List Op} (h : Ordered track (a ++ b)) :
    Ordered track a ∧ Ordered (track.run a) b := by
  induction a generalizing track with
  | nil => exact ⟨trivial, h⟩
  | cons op a ih =>
    obtain ⟨first, rest⟩ := ih h.2
    exact ⟨⟨h.1, first⟩, rest⟩

theorem Sound.tree_step (h : Sound store x) {op : Op} {w : ℕ} {t : Tree}
    (other : op.version? ≠ some w) (bound : ∀ k, op = .prune k → k ≤ w) (ht : x.tree w = some t) :
    (x.step op).tree w = some t ∧ (x.step op).scheme w = x.scheme w := by
  cases op with
  | commit v writes =>
    have apart : w ≠ v := fun same => other (by rw [same]; rfl)
    simp only [Versions.step]
    cases x.base with
    | none => exact ⟨ht, rfl⟩
    | some s =>
      simp only
      split_ifs
      · exact ⟨(Advance.tree_grow apart).trans ht, rfl⟩
      · exact ⟨ht, rfl⟩
  | recommitUnder v scheme =>
    have apart : w ≠ v := fun same => other (by rw [same]; rfl)
    simp only [Versions.step]
    cases x.latest.bind x.tree with
    | none => exact ⟨ht, rfl⟩
    | some s =>
      simp only
      split_ifs with later
      · obtain ⟨l, hl, low⟩ := h.bounded w t ht
        exact ⟨(Advance.tree_grow apart).trans ht,
          schemeFrom_append_lt scheme (low.trans_lt (later l hl))⟩
      · exact ⟨ht, rfl⟩
  | prune k =>
    refine ⟨?_, rfl⟩
    change (if w < k then none else x.tree w) = some t
    rw [if_neg (not_lt.2 (bound k rfl)), ht]

theorem Sound.tree_run (h : Sound store x) (begun : x.Begun) (ops : List Op) {w : ℕ} {t : Tree}
    (others : ∀ op ∈ ops, op.version? ≠ some w) (bounds : ∀ k, Op.prune k ∈ ops → k ≤ w)
    (ht : x.tree w = some t) :
    (x.run ops).tree w = some t ∧ (x.run ops).scheme w = x.scheme w := by
  induction ops generalizing store x with
  | nil => exact ⟨ht, rfl⟩
  | cons op ops ih =>
    obtain ⟨sound, begun'⟩ := h.step begun op
    obtain ⟨tree, scheme⟩ := h.tree_step (others op (by simp))
      (fun k hk => bounds k (by rw [hk]; simp)) ht
    obtain ⟨tree', scheme'⟩ := ih sound begun' (fun op hop => others op (mem_cons_of_mem _ hop))
      (fun k hk => bounds k (mem_cons_of_mem _ hk)) tree
    exact ⟨tree', scheme'.trans scheme⟩

theorem Sound.forEachEntry (h : Sound store x) {w : ℕ} {t : Tree} (ht : x.tree w = some t)
    (depth pre : ℕ) : StateTrie.forEachEntry store w depth pre = .ok (t.entriesUnder depth pre 0) := by
  have read := walk_eq (n := stemBits) depth pre (by omega) (h.placed w t ht)
    (fun k live => (h.held w t ht k live).2)
  simp only [StateTrie.forEachEntry, requireRoot, h.rootRef, ht, bind, Except.bind]
  exact read

omit [TrieHash] in
theorem version_grow {op : Op} {w : ℕ} (h : op.version? = some w) :
    (∃ writes, op = .commit w writes) ∨ ∃ scheme, op = .recommitUnder w scheme := by
  cases op with
  | commit v writes =>
    cases h
    exact .inl ⟨writes, rfl⟩
  | recommitUnder v scheme =>
    cases h
    exact .inr ⟨scheme, rfl⟩
  | prune k => cases h

theorem Kept.committed (h : Kept store x track) {op : Op} (admits : track.Admits op) {w : ℕ}
    (version : op.version? = some w) : ∃ t, (x.step op).tree w = some t := by
  rcases version_grow version with ⟨writes, rfl⟩ | ⟨scheme, rfl⟩
  · obtain ⟨t, store', step, -, -⟩ := h.commit admits
    rw [step]
    exact ⟨_, Advance.tree_grow_self⟩
  · obtain ⟨t, store', step, -, -⟩ := h.recommit admits
    rw [step]
    exact ⟨_, Advance.tree_grow_self⟩

theorem runOps_append (a b : List Op) : runOps store (a ++ b) = runOps (runOps store a) b :=
  foldl_append

/-- In every run whose bounds are in order, a retained version answers as when it was last
committed, and pruning leaves exactly the records the versions from its bound on reach. -/
theorem retained_immutable_pruning_exact (ops : List Op) (consecutive : Consecutive Track.start ops)
    (ordered : Ordered Track.start ops) :
    (∀ pre op post w, ops = pre ++ op :: post → op.version? = some w →
      (∀ later ∈ post, later.version? ≠ some w) → (∀ k, Op.prune k ∈ ops → k ≤ w) →
        (∃ root, rootAt (runOps .empty (pre ++ [op])) w = .ok (some root) ∧
          rootAt (runOps .empty ops) w = .ok (some root)) ∧
        (∀ ns key, ∃ value proof,
          prove (runOps .empty (pre ++ [op])) w ns key = .ok (value, proof) ∧
          prove (runOps .empty ops) w ns key = .ok (value, proof) ∧
          get (runOps .empty (pre ++ [op])) w ns key = .ok value ∧
          get (runOps .empty ops) w ns key = .ok value) ∧
        ∀ depth start, ∃ entries,
          forEachEntry (runOps .empty (pre ++ [op])) w depth start = .ok entries ∧
          forEachEntry (runOps .empty ops) w depth start = .ok entries) ∧
    ∀ pre k post, ops = pre ++ .prune k :: post → ∀ key : List ℕ,
      key.head? = some 78 ∨ key.head? = some 86 →
        ((runOps .empty (pre ++ [.prune k])).get? key ≠ none ↔
          ReachableFrom (runOps .empty (pre ++ [.prune k])) k key) := by
  constructor
  · rintro pre op post w rfl version others bounds
    obtain ⟨before, after⟩ := consecutive.append
    have kept := kept_empty.run pre before
    obtain ⟨t, ht⟩ := kept.committed after.1 version
    have here := kept.step after.1
    obtain ⟨tree, scheme⟩ := here.sound.tree_run here.begun post others
      (fun k hk => bounds k (by simp [hk])) ht
    have last := here.run post after.2
    have first : runOps .empty (pre ++ [op]) = op.next (runOps .empty pre) := runOps_append pre [op]
    have final : runOps .empty (pre ++ op :: post) = runOps (op.next (runOps .empty pre)) post :=
      runOps_append pre (op :: post)
    rw [first, final]
    have proved := here.sound.prove ht
    have proved' := last.sound.prove tree
    rw [scheme] at proved'
    refine ⟨⟨t.hash (((Versions.empty.run pre).step op).scheme w), ?_, ?_⟩, ?_, ?_⟩
    · rw [here.sound.rootAt, ht]
      rfl
    · rw [last.sound.rootAt, tree, scheme]
      rfl
    · intro ns key
      refine ⟨_, _, proved ns key, proved' ns key, ?_, ?_⟩
      · simp only [StateTrie.get, proved ns key, bind, Except.bind]
        rfl
      · simp only [StateTrie.get, proved' ns key, bind, Except.bind]
        rfl
    · intro depth start
      exact ⟨_, here.sound.forEachEntry ht depth start, last.sound.forEachEntry tree depth start⟩
  · rintro pre k post rfl key tag
    obtain ⟨before, after⟩ := consecutive.append
    obtain ⟨earlier, later⟩ := ordered.append
    have kept := kept_empty.run pre before
    have neat := Neat.run kept_empty neat_empty pre before earlier
    obtain ⟨-, reached⟩ := Neat.prune kept neat after.1 later.1
    have sound := (kept.step after.1).sound
    have last : runOps .empty (pre ++ [.prune k]) = (Op.prune k).next (runOps .empty pre) :=
      runOps_append pre [.prune k]
    rw [last, sound.reachable]
    constructor
    · intro found
      obtain ⟨y, rfl⟩ := (sound.keys key found).of_tag tag
      obtain ⟨w, t, low, ht, live⟩ := reached y found
      exact ⟨w, t, low, ht, y, rfl, live⟩
    · rintro ⟨w, t, -, ht, y, rfl, live⟩
      rw [(sound.held w t ht y live).2]
      exact live

end Histories

end StateTrie

end Tenzro

namespace Tenzro
namespace StateTrie

def reopenedHistory : List Op :=
  [.commit 0 (stateWrites [([2 ^ 255], some [1]), ([1], some [2])]),
    .commit 1 (stateWrites [([2 ^ 255], some [3])]), .prune 1,
    .commit 1 (stateWrites [([1], some [4])]), .prune 0]

/-- The root left is that of version 1, and the replaced value is there but not under it. -/
theorem reopened :
    (∀ key ∈ (@runOps encodedHash .empty reopenedHistory).keys,
      key.head? = some 82 → key = rootKey 1) ∧
    (match rootRef (@runOps encodedHash .empty reopenedHistory) 1 with
      | .ok (some root) =>
        decide (valueKey 1 0 ∉ reach (@runOps encodedHash .empty reopenedHistory) stemBits root 0 0)
      | _ => true) = true ∧
    (@runOps encodedHash .empty reopenedHistory).contains (valueKey 1 0) = true :=
  ⟨by decide +kernel, by decide +kernel, by decide +kernel⟩

/-- The value the second commit of version 1 replaced stays, though no root reaches it. -/
theorem pruning_leaves_unreachable : Consecutive Track.start reopenedHistory ∧
    (@runOps encodedHash .empty reopenedHistory).get? (valueKey 1 0) ≠ none ∧
    ¬ ReachableFrom (@runOps encodedHash .empty reopenedHistory) 0 (valueKey 1 0) := by
  have committed := committed_stateWrites
  refine ⟨?_, ?_, ?_⟩
  · simp only [reopenedHistory, Consecutive, Track.Admits, Track.step, Track.start]
    exact ⟨⟨by simp, committed _⟩, ⟨by simp, committed _⟩, by simp, ⟨by simp, committed _⟩, by simp,
      trivial⟩
  · intro gone
    have := reopened.2.2
    rw [SortedMap.contains, gone] at this
    cases this
  · rintro ⟨w, -, root, found, mem⟩
    have listed : rootKey w ∈ (@runOps encodedHash .empty reopenedHistory).keys := by
      refine SortedMap.mem_keys.2 ?_
      unfold rootRef at found
      split at found
      · exact ⟨_, by assumption⟩
      · cases found
      · cases found
    obtain rfl : w = 1 := by simpa [rootKey] using reopened.1 _ listed rfl
    have unreached := reopened.2.1
    rw [found] at unreached
    exact of_decide_eq_true unreached mem

def orderedHistory : List Op :=
  [.commit 0 (stateWrites [([2 ^ 255], some [1]), ([1], some [2])]),
    .commit 1 (stateWrites [([2 ^ 255], some [3])]), .prune 1]

/-- In order, the kept value is reached and the overwritten one is gone. -/
theorem retained_immutable_pruning_exact_ordered :
    ReachableFrom (@runOps encodedHash .empty orderedHistory) 1 (valueKey 1 0) ∧
      ¬ ReachableFrom (@runOps encodedHash .empty orderedHistory) 1 (valueKey (2 ^ 255) 0) := by
  have consecutive : Consecutive Track.start orderedHistory := by
    simp only [orderedHistory, Consecutive, Track.Admits, Track.step, Track.start]
    exact ⟨⟨by simp, committed_stateWrites _⟩, ⟨by simp, committed_stateWrites _⟩, by simp, trivial⟩
  have ordered : Ordered Track.start orderedHistory := by
    simp only [orderedHistory, Ordered, Track.Orders, Track.step, Track.start]
    simp
  have exact' := (@retained_immutable_pruning_exact encodedHash orderedHistory consecutive
    ordered).2 (orderedHistory.take 2) 1 [] rfl
  obtain ⟨kept, gone⟩ : ((@runOps encodedHash .empty orderedHistory).get? (valueKey 1 0)).isSome =
      true ∧ (@runOps encodedHash .empty orderedHistory).get? (valueKey (2 ^ 255) 0) = none := by
    decide +kernel
  constructor
  · exact (exact' (valueKey 1 0) (.inr rfl)).1 (Option.isSome_iff_ne_none.1 kept)
  · exact fun reached => (exact' (valueKey (2 ^ 255) 0) (.inr rfl)).2 reached gone

end StateTrie

end Tenzro
