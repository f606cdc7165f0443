import Mathlib

set_option autoImplicit false

/-!
# Trees built level by level

Each level joins neighbours into the level above; a last one without a neighbour is joined with
itself. A path gives the sibling at every level, and the index tells on which side.
-/
namespace LevelTree
open List Function

variable {α : Type}

/-- Neighbours, the last one with itself where it has none. -/
def pairsOf : List α → List (α × α)
  | [] => []
  | [a] => [(a, a)]
  | a :: b :: l => (a, b) :: pairsOf l

theorem length_pairsOf (level : List α) : (pairsOf level).length = (level.length + 1) / 2 := by
  induction level using pairsOf.induct with
  | case1 => simp [pairsOf]
  | case2 a => simp [pairsOf]
  | case3 a b l ih =>
    simp only [pairsOf, length_cons, ih]
    omega

theorem mem_pairsOf {level : List α} {p : α × α} (mem : p ∈ pairsOf level) :
    p.1 ∈ level ∧ p.2 ∈ level := by
  induction level using pairsOf.induct with
  | case1 => cases mem
  | case2 a =>
    rw [mem_singleton.1 mem]
    simp
  | case3 a b l ih =>
    rcases mem_cons.1 mem with rfl | mem
    · simp
    · simp [ih mem]

section
variable (node : α → α → α)

def next (level : List α) : List α := (pairsOf level).map fun p => node p.1 p.2

theorem length_next (level : List α) : (next node level).length = (level.length + 1) / 2 := by
  rw [next, length_map, length_pairsOf]

theorem length_next_lt {level : List α} (many : 1 < level.length) :
    (next node level).length < level.length := by
  rw [length_next]
  omega

def inOrder (index : ℕ) (a s : α) : α × α := if index % 2 = 0 then (a, s) else (s, a)

def join (index : ℕ) (a s : α) : α := node (inOrder index a s).1 (inOrder index a s).2

def climb (a : α) : ℕ → List α → α
  | _, [] => a
  | index, s :: path => climb (join node index a s) (index / 2) path

def climbPairs (a : α) : ℕ → List α → List (α × α)
  | _, [] => []
  | index, s :: path => inOrder index a s :: climbPairs (join node index a s) (index / 2) path

theorem climb_append (a : α) (index : ℕ) (path : List α) (s : α) :
    climb node a index (path ++ [s]) =
      join node (index / 2 ^ path.length) (climb node a index path) s := by
  induction path generalizing a index with
  | nil => simp [climb]
  | cons u path ih =>
    rw [cons_append, climb, ih, climb, length_cons, Nat.div_div_eq_div_mul, Nat.pow_succ']

theorem climbPairs_append (a : α) (index : ℕ) (path : List α) (s : α) :
    climbPairs node a index (path ++ [s]) = climbPairs node a index path ++
      [inOrder (index / 2 ^ path.length) (climb node a index path) s] := by
  induction path generalizing a index with
  | nil => simp [climb, climbPairs]
  | cons u path ih =>
    rw [cons_append, climbPairs, ih, climbPairs, climb, length_cons,
      Nat.div_div_eq_div_mul, Nat.pow_succ', cons_append]

def pairs (level : List α) : List (α × α) :=
  if 1 < level.length then pairsOf level ++ pairs (next node level) else []
termination_by level.length
decreasing_by exact length_next_lt node ‹_›

def depth (level : List α) : ℕ :=
  if 1 < level.length then depth (next node level) + 1 else 0
termination_by level.length
decreasing_by exact length_next_lt node ‹_›

theorem pairsOf_subset {level : List α} {i : ℕ} (below : i < depth node level) {p : α × α}
    (mem : p ∈ pairsOf ((next node)^[i] level)) : p ∈ pairs node level := by
  induction i generalizing level with
  | zero =>
    rw [depth] at below
    split_ifs at below with many
    · rw [pairs, if_pos many]
      exact mem_append_left _ mem
    · omega
  | succ i ih =>
    rw [depth] at below
    split_ifs at below with many
    · rw [pairs, if_pos many]
      exact mem_append_right _ (ih (Nat.lt_of_succ_lt_succ below) mem)
    · omega

end

section
variable [Inhabited α] (node : α → α → α)

def root (level : List α) : α :=
  if 1 < level.length then root (next node level) else level.getD 0 default
termination_by level.length
decreasing_by exact length_next_lt node ‹_›

def sibling (level : List α) (index : ℕ) : α :=
  if index % 2 = 0 then
    if index + 1 < level.length then level.getD (index + 1) default else level.getD index default
  else level.getD (index - 1) default

def path (level : List α) (index : ℕ) : List α :=
  if 1 < level.length then sibling level index :: path (next node level) (index / 2) else []
termination_by level.length
decreasing_by exact length_next_lt node ‹_›

variable {node} {level : List α} {index : ℕ}

theorem getD_pairsOf (inside : index < level.length) :
    (pairsOf level).getD (index / 2) (default, default) =
      inOrder index (level.getD index default) (sibling level index) := by
  induction level using pairsOf.induct generalizing index with
  | case1 => cases inside
  | case2 a =>
    obtain rfl : index = 0 := by simpa using inside
    rfl
  | case3 a b l ih =>
    match index, inside with
    | 0, _ => simp [pairsOf, inOrder, sibling]
    | 1, _ => simp [pairsOf, inOrder, sibling]
    | index + 2, inside =>
      have further := @ih index (by simpa using inside)
      have half : (index + 2) / 2 = index / 2 + 1 := by omega
      rw [half, pairsOf, getD_cons_succ, further]
      have same : sibling (a :: b :: l) (index + 2) = sibling l index := by
        have shorter : index + 2 + 1 < l.length + 1 + 1 ↔ index + 1 < l.length := by omega
        unfold sibling
        simp only [Nat.add_mod_right, length_cons, getD_cons_succ, shorter]
        by_cases even : index % 2 = 0
        · simp only [if_pos even]
        · obtain ⟨i, rfl⟩ : ∃ i, index = i + 1 := ⟨index - 1, by omega⟩
          simp only [if_neg even]
          rfl
      simp [inOrder, same]

theorem getD_next (inside : index < level.length) : (next node level).getD (index / 2) default =
    join node index (level.getD index default) (sibling level index) := by
  have within : index / 2 < (pairsOf level).length := by
    rw [length_pairsOf]
    omega
  have pair := getD_pairsOf inside
  rw [getD_eq_getElem _ _ within] at pair
  rw [next, getD_eq_getElem _ _ (by rwa [length_map]), getElem_map, pair]
  rfl

omit [Inhabited α] in
theorem div_two_lt (inside : index < level.length) : index / 2 < (next node level).length := by
  rw [length_next]
  omega

theorem climb_path (inside : index < level.length) :
    climb node (level.getD index default) index (path node level index) = root node level := by
  induction level using root.induct node generalizing index with
  | case1 level many ih =>
    rw [path, if_pos many, root, if_pos many, climb, ← getD_next inside]
    exact ih (div_two_lt inside)
  | case2 level few =>
    rw [path, if_neg few, root, if_neg few, climb]
    obtain rfl : index = 0 := by omega
    rfl

theorem length_path : (path node level index).length = depth node level := by
  induction level using root.induct node generalizing index with
  | case1 level many ih => rw [path, if_pos many, depth, if_pos many, length_cons, ih]
  | case2 level few => rw [path, if_neg few, depth, if_neg few, length_nil]

theorem root_mem (some_leaf : level ≠ []) :
    root node level ∈ (next node)^[depth node level] level := by
  induction level using root.induct node with
  | case1 level many ih =>
    rw [root, if_pos many, depth, if_pos many, iterate_succ_apply]
    refine ih fun nothing => ?_
    have size := length_next node level
    rw [nothing, length_nil] at size
    omega
  | case2 level few =>
    rw [root, if_neg few, depth, if_neg few, iterate_zero, id]
    have pos := length_pos_of_ne_nil some_leaf
    rw [getD_eq_getElem _ _ pos]
    exact getElem_mem _

/-! ### Binding -/

/-- Joining does not confuse what the path joins with what the tree joins, nor a leaf with what
is joined. -/
structure Apart (node : α → α → α) (level : List α) (a : α) (index : ℕ) (way : List α) : Prop where
  joined : ∀ p ∈ climbPairs node a index way, ∀ q ∈ pairs node level,
    node p.1 p.2 = node q.1 q.2 → p = q
  bottom : ∀ q ∈ pairs node level, node q.1 q.2 ≠ a
  leaves : ∀ p ∈ climbPairs node a index way, node p.1 p.2 ∉ level

variable {a : α} {way : List α}

omit [Inhabited α] in
theorem mem_of_inOrder {p : α × α} {s : α} (same : inOrder index a s = p) {l : List α}
    (mem : p.1 ∈ l ∧ p.2 ∈ l) : a ∈ l := by
  subst same
  unfold inOrder at mem
  split_ifs at mem
  · exact mem.1
  · exact mem.2

omit [Inhabited α] in
theorem length_of_mem (apart : Apart node level a index way) {j : ℕ}
    (low : j ≤ depth node level) (meets : climb node a index way ∈ (next node)^[j] level) :
    way.length = j := by
  induction way using reverseRecOn generalizing j with
  | nil =>
    cases j with
    | zero => rfl
    | succ j =>
      rw [iterate_succ_apply'] at meets
      obtain ⟨q, mem, same⟩ := mem_map.1 meets
      exact absurd same (apart.bottom q (pairsOf_subset node low mem))
  | append_singleton way s ih =>
    have last : inOrder (index / 2 ^ way.length) (climb node a index way) s ∈
        climbPairs node a index (way ++ [s]) := by
      rw [climbPairs_append]
      exact mem_append_right _ mem_cons_self
    rw [climb_append] at meets
    cases j with
    | zero => exact absurd meets (apart.leaves _ last)
    | succ j =>
      rw [iterate_succ_apply'] at meets
      obtain ⟨q, mem, same⟩ := mem_map.1 meets
      have pair := apart.joined _ last q (pairsOf_subset node low mem) same.symm
      have below : Apart node level a index way := by
        have sub {p : α × α} (mem : p ∈ climbPairs node a index way) :
            p ∈ climbPairs node a index (way ++ [s]) := by
          rw [climbPairs_append]
          exact mem_append_left _ mem
        exact ⟨fun p hp => apart.joined p (sub hp), apart.bottom, fun p hp => apart.leaves p (sub hp)⟩
      rw [length_append, ih below (Nat.le_of_succ_le low) (mem_of_inOrder pair (mem_pairsOf mem))]
      rfl

omit [Inhabited α] in
theorem inOrder_inj {s b u : α} (same : inOrder index a s = inOrder index b u) :
    a = b ∧ s = u := by
  unfold inOrder at same
  split_ifs at same
  · exact Prod.mk.inj same
  · exact (Prod.mk.inj same).symm

theorem eq_of_length (inside : index < level.length)
    (joined : ∀ p ∈ climbPairs node a index way, ∀ q ∈ pairs node level,
      node p.1 p.2 = node q.1 q.2 → p = q)
    (size : way.length = depth node level) (reaches : climb node a index way = root node level) :
    level.getD index default = a ∧ way = path node level index := by
  induction way generalizing level a index with
  | nil =>
    rw [depth] at size
    split_ifs at size with many
    rw [path, if_neg many]
    rw [root, if_neg many, climb] at reaches
    obtain rfl : index = 0 := by omega
    exact ⟨reaches.symm, rfl⟩
  | cons s way ih =>
    rw [depth] at size
    split_ifs at size with many
    rw [root, if_pos many, climb] at reaches
    rw [pairs, if_pos many] at joined
    obtain ⟨above, rest⟩ := ih (div_two_lt inside)
      (fun p hp q hq => joined p (mem_cons_of_mem _ hp) q (mem_append_right _ hq))
      (Nat.succ.inj size) reaches
    rw [getD_next inside] at above
    have within : index / 2 < (pairsOf level).length := by
      rw [length_pairsOf]
      omega
    have own : inOrder index (level.getD index default) (sibling level index) ∈ pairsOf level := by
      rw [← getD_pairsOf inside, getD_eq_getElem _ _ within]
      exact getElem_mem _
    obtain ⟨leaf, neighbour⟩ := inOrder_inj (joined _ mem_cons_self _
      (mem_append_left _ own) above.symm)
    rw [path, if_pos many, rest, neighbour, leaf]
    exact ⟨rfl, rfl⟩

theorem climb_binds (inside : index < level.length) (apart : Apart node level a index way)
    (reaches : climb node a index way = root node level) :
    level.getD index default = a ∧ way = path node level index := by
  have some_leaf : level ≠ [] := ne_nil_of_length_pos (by omega)
  exact eq_of_length inside apart.joined
    (length_of_mem apart le_rfl (reaches ▸ root_mem some_leaf)) reaches

/-! ### Paths that do not double a last one -/

/-- No step has the value itself on its left. -/
def Undoubled (node : α → α → α) : α → ℕ → List α → Prop
  | _, _, [] => True
  | a, index, s :: path =>
    (index % 2 = 1 → s ≠ a) ∧ Undoubled node (join node index a s) (index / 2) path

theorem getD_pairsOf_last (odd : level.length % 2 = 1) :
    ∃ x, (pairsOf level).getD (level.length / 2) (default, default) = (x, x) := by
  have pair : (pairsOf level).getD ((level.length - 1) / 2) (default, default) =
      inOrder (level.length - 1) (level.getD (level.length - 1) default)
        (sibling level (level.length - 1)) := getD_pairsOf (by omega)
  have half : (level.length - 1) / 2 = level.length / 2 := by omega
  rw [half] at pair
  refine ⟨level.getD (level.length - 1) default, pair.trans ?_⟩
  unfold inOrder sibling
  rw [if_pos (by omega), if_pos (by omega), if_neg (by omega)]

theorem inside_of_climb (some_leaf : level ≠ [])
    (joined : ∀ p ∈ climbPairs node a index way, ∀ q ∈ pairs node level,
      node p.1 p.2 = node q.1 q.2 → p = q)
    (size : way.length = depth node level) (low : index / 2 ^ way.length = 0)
    (undoubled : Undoubled node a index way)
    (reaches : climb node a index way = root node level) : index < level.length := by
  induction way generalizing level a index with
  | nil =>
    rw [length_nil, Nat.pow_zero, Nat.div_one] at low
    rw [low]
    exact length_pos_of_ne_nil some_leaf
  | cons s way ih =>
    rw [depth] at size
    split_ifs at size with many
    rw [root, if_pos many, climb] at reaches
    rw [pairs, if_pos many] at joined
    have above : ∀ p ∈ climbPairs node (join node index a s) (index / 2) way,
        ∀ q ∈ pairs node (next node level), node p.1 p.2 = node q.1 q.2 → p = q :=
      fun p hp q hq => joined p (mem_cons_of_mem _ hp) q (mem_append_right _ hq)
    have some_next : next node level ≠ [] := ne_nil_of_length_pos (by
      rw [length_next]
      omega)
    rw [length_cons, Nat.pow_succ', ← Nat.div_div_eq_div_mul] at low
    have within := ih some_next above (Nat.succ.inj size) low undoubled.2 reaches
    have here := (eq_of_length within above (Nat.succ.inj size) reaches).1
    rw [length_next] at within
    by_contra past
    obtain ⟨x, last⟩ : ∃ x, (pairsOf level).getD (level.length / 2) (default, default) = (x, x) :=
      getD_pairsOf_last (by omega)
    have half : level.length / 2 = index / 2 := by omega
    rw [half] at last
    have own : (x, x) ∈ pairsOf level := by
      rw [← last, getD_eq_getElem _ _ (by rwa [length_pairsOf])]
      exact getElem_mem _
    have top : (next node level).getD (index / 2) default = node x x := by
      rw [next, getD_eq_getElem _ _ (by rwa [length_map, length_pairsOf]),
        getElem_map]
      rw [getD_eq_getElem _ _ (by rwa [length_pairsOf])] at last
      rw [last]
    have same := joined _ mem_cons_self _ (mem_append_left _ own) (here.symm.trans top)
    unfold inOrder at same
    rw [if_neg (by omega)] at same
    obtain ⟨rfl, rfl⟩ := Prod.mk.inj same
    exact undoubled.1 (by omega) rfl

theorem climb_binds_undoubled (some_leaf : level ≠ []) (apart : Apart node level a index way)
    (low : index / 2 ^ way.length = 0) (undoubled : Undoubled node a index way)
    (reaches : climb node a index way = root node level) :
    index < level.length ∧ level.getD index default = a ∧ way = path node level index := by
  have size := length_of_mem apart le_rfl (reaches ▸ root_mem some_leaf)
  have inside := inside_of_climb some_leaf apart.joined size low undoubled reaches
  exact ⟨inside, climb_binds inside apart reaches⟩

omit [Inhabited α] in
theorem length_le_depth (level : List α) : level.length ≤ 2 ^ depth node level := by
  induction level using root.induct node with
  | case1 level many ih =>
    rw [depth, if_pos many, Nat.pow_succ]
    rw [length_next] at ih
    omega
  | case2 level few =>
    rw [depth, if_neg few]
    omega

omit [Inhabited α] in
theorem nodup_pairsOf (nodup : level.Nodup) : (pairsOf level).Nodup := by
  refine Nodup.of_map Prod.fst (nodup.sublist ?_)
  clear nodup
  induction level using pairsOf.induct with
  | case1 => exact Sublist.slnil
  | case2 a => exact Sublist.refl _
  | case3 a b l ih => exact (ih.cons b).cons_cons a

theorem undoubled_path (nodup : level.Nodup)
    (joined : ∀ p ∈ pairs node level, ∀ q ∈ pairs node level,
      node p.1 p.2 = node q.1 q.2 → p = q) (inside : index < level.length) :
    Undoubled node (level.getD index default) index (path node level index) := by
  induction level using root.induct node generalizing index with
  | case1 level many ih =>
    rw [pairs, if_pos many] at joined
    rw [path, if_pos many]
    constructor
    · intro odd same
      unfold sibling at same
      rw [if_neg (by omega), getD_eq_getElem _ _ (by omega),
        getD_eq_getElem _ _ inside] at same
      have places := nodup.getElem_inj_iff.1 same
      omega
    · rw [← getD_next inside]
      refine ih (Nodup.map_on (fun p hp q hq => joined p (mem_append_left _ hp) q
        (mem_append_left _ hq)) (nodup_pairsOf nodup)) (fun p hp q hq =>
        joined p (mem_append_right _ hp) q (mem_append_right _ hq)) (div_two_lt inside)
  | case2 level few =>
    rw [path, if_neg few]
    trivial

end

end LevelTree
