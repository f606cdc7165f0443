import Tenzro.HashTree
import Tenzro.ProofVerifiers

set_option autoImplicit false
set_option linter.dupNamespace false

/-!
# The Merkle tree of chain commitments

BLAKE3 over leaves after a zero byte and over pairs after a one; the last node of an odd level goes
up unchanged.
-/
namespace Tenzro.Merkle
open ByteCodec HashTree ProofVerifiers PromotedLevels List

abbrev Node := Word

structure PathStep where
  sibling : Node
  left : Bool
deriving DecidableEq

section
variable [SchemeHash]

def blake3 (b : Bytes) : Node := SchemeHash.digest .blake3 b

def emptyDomain : Bytes := utf8 "tenzro/consensus/merkle/empty"

def emptyRoot : Node := blake3 emptyDomain

def hashLeaf (leaf : Node) : Node := blake3 (0 :: leaf.1)

def hashPair (left right : Node) : Node := blake3 (1 :: (left.1 ++ right.1))

def nextLevel (level : List Node) : List Node := next hashPair level

def merkleRoot (leaves : List Node) : Node := (top hashPair (leaves.map hashLeaf)).getD emptyRoot

def merklePath (leaves : List Node) (index : ℕ) : Option (List PathStep) :=
  if index < leaves.length then
    some ((path hashPair (leaves.map hashLeaf) index).map fun s => ⟨s.1, s.2⟩)
  else none

def rootFromPath (leaf : Node) (path : List PathStep) : Node :=
  path.foldl (fun acc step =>
    if step.left then hashPair step.sibling acc else hashPair acc step.sibling) (hashLeaf leaf)

/-! ### The tree that is hashed -/

abbrev MerkleTree := HashTree.Tree Node Unit

def nodeCode : Code Node Unit where
  hash b := (blake3 b).1
  leaf a := 0 :: a.1
  before _ _ _ := [1]
  between := []

def treeOf (leaves : List Node) : Option MerkleTree := top (HashTree.Tree.node ()) (leaves.map HashTree.Tree.leaf)

def hashed (leaves : List Node) : List Bytes :=
  match treeOf leaves with
  | some t => t.subtrees.map nodeCode.written
  | none => [emptyDomain]

def stepOf (s : PathStep) : HashTree.Step :=
  if s.left then (1 :: s.sibling.1, []) else ([1], s.sibling.1)

def climbedOn (leaf : Node) (path : List PathStep) : List Bytes :=
  climbed nodeCode.hash (path.map stepOf).reverse (0 :: leaf.1)

def rootOf (t : MerkleTree) : Node := blake3 (nodeCode.written t)

theorem rootOf_val (t : MerkleTree) : (rootOf t).1 = nodeCode.root t := nodeCode.hash_written t

theorem rootOf_node (l r : MerkleTree) : rootOf (.node () l r) = hashPair (rootOf l) (rootOf r) := by
  unfold hashPair
  rw [rootOf_val, rootOf_val]
  rfl

theorem map_rootOf (leaves : List Node) :
    leaves.map hashLeaf = (leaves.map HashTree.Tree.leaf).map rootOf := by
  rw [map_map]
  rfl

omit [SchemeHash] in
theorem treeOf_leaves {leaves : List Node} {t : MerkleTree} (built : treeOf leaves = some t) :
    t.leaves = leaves := by
  rw [flatMap_top (g := HashTree.Tree.leaves) (fun _ _ => rfl) built, flatMap_map]
  exact flatMap_singleton' leaves

omit [SchemeHash] in
theorem treeOf_eq_none {leaves : List Node} (none : treeOf leaves = none) : leaves = [] := by
  by_contra some_leaf
  have reached : (treeOf leaves).isSome = true := top_isSome (by simpa using some_leaf)
  rw [none] at reached
  cases reached

theorem merkleRoot_tree {leaves : List Node} {t : MerkleTree} (built : treeOf leaves = some t) :
    merkleRoot leaves = rootOf t := by
  unfold merkleRoot
  rw [map_rootOf, top_map rootOf_node]
  change ((treeOf leaves).map rootOf).getD emptyRoot = _
  rw [built]
  rfl

/-! ### Paths -/

theorem rootFromPath_climb (leaf : Node) (path : List PathStep) :
    (rootFromPath leaf path).1 = climb nodeCode.hash (path.map stepOf).reverse (0 :: leaf.1) := by
  have up (x : Bytes) (path : List PathStep) :
      (path.foldl (fun acc step => if step.left then hashPair step.sibling acc
        else hashPair acc step.sibling) (blake3 x)).1 =
        climb nodeCode.hash (path.map stepOf).reverse x := by
    induction path generalizing x with
    | nil => rfl
    | cons s path ih =>
      rw [map_cons, reverse_cons, climb_append, ← ih, foldl_cons]
      obtain ⟨sibling, _ | _⟩ := s
      · rfl
      · simp only [stepOf, hashPair, if_true, append_nil]
        rfl
  exact up _ path

omit [SchemeHash] in
theorem stepOf_injective : Function.Injective stepOf := by
  rintro ⟨a, left⟩ ⟨b, left'⟩ same
  have some_byte (w : Word) : w.1 ≠ [] := ne_nil_of_length_pos (by rw [w.2]; decide)
  cases left <;> cases left' <;> simp only [stepOf, if_true, Bool.false_eq_true, if_false, Prod.mk.injEq,
    List.cons.injEq, true_and] at same
  · rw [Subtype.ext same]
  · exact absurd same.2 (some_byte a)
  · exact absurd same.2.symm (some_byte b)
  · rw [Subtype.ext same.1]

def treeStep (s : PromotedLevels.Step MerkleTree) : HashTree.Step := stepOf ⟨rootOf s.1, s.2⟩

theorem treeStep_left (l r : MerkleTree) : treeStep (r, false) = nodeCode.leftStep () l r := by
  unfold treeStep stepOf
  rw [rootOf_val]
  rfl

theorem treeStep_right (l r : MerkleTree) : treeStep (l, true) = nodeCode.rightStep () l r := by
  unfold treeStep stepOf
  rw [rootOf_val]
  simp [Code.rightStep, nodeCode]

theorem mem_paths_next {level : List MerkleTree} {a : Node} {j : ℕ} {q : List HashTree.Step} :
    (∃ t, (next (HashTree.Tree.node ()) level)[j]? = some t ∧ (a, q) ∈ nodeCode.paths t) ↔
      ∃ i t p, i / 2 = j ∧ level[i]? = some t ∧ (a, p) ∈ nodeCode.paths t ∧
        q = ((stepAt level i).map treeStep).reverse ++ p := by
  constructor
  · rintro ⟨t, there, mem⟩
    rw [getElem?_next] at there
    obtain ⟨l, left, rfl⟩ := Option.map_eq_some_iff.1 there
    have half : 2 * j / 2 = j := by omega
    have half' : (2 * j + 1) / 2 = j := by omega
    cases right : level[2 * j + 1]? with
    | none =>
      rw [right] at mem
      refine ⟨2 * j, l, q, half, left, mem, ?_⟩
      rw [stepAt, if_neg (by omega), right]
      rfl
    | some r =>
      rw [right] at mem
      rcases mem_append.1 mem with below | below
      · obtain ⟨p, rfl, inside⟩ := Code.mem_below.1 below
        refine ⟨2 * j, l, p, half, left, inside, ?_⟩
        rw [stepAt, if_neg (by omega), right, ← treeStep_left l r]
        rfl
      · obtain ⟨p, rfl, inside⟩ := Code.mem_below.1 below
        refine ⟨2 * j + 1, r, p, half', right, inside, ?_⟩
        rw [stepAt, if_pos (by omega), Nat.add_sub_cancel, left, ← treeStep_right l r]
        rfl
  · rintro ⟨i, t, p, rfl, there, mem, rfl⟩
    rw [getElem?_next]
    rcases Nat.even_or_odd' i with ⟨j, rfl | rfl⟩
    · have half : 2 * j / 2 = j := by omega
      rw [half, there, stepAt, if_neg (by omega)]
      cases right : level[2 * j + 1]? with
      | none => exact ⟨t, rfl, mem⟩
      | some r =>
        refine ⟨.node () t r, rfl, mem_append_left _ (Code.mem_below.2 ⟨p, ?_, mem⟩)⟩
        rw [← treeStep_left t r]
        rfl
    · have half : (2 * j + 1) / 2 = j := by omega
      obtain ⟨l, left⟩ : ∃ l, level[2 * j]? = some l :=
        ⟨_, getElem?_eq_getElem (by have := (List.getElem?_eq_some_iff.1 there).1; omega)⟩
      rw [half, there, left, stepAt, if_pos (by omega), Nat.add_sub_cancel, left]
      refine ⟨.node () l t, rfl, mem_append_right _ (Code.mem_below.2 ⟨p, ?_, mem⟩)⟩
      rw [← treeStep_right l t]
      rfl

theorem mem_paths_top {level : List MerkleTree} {t : MerkleTree} {a : Node}
    {q : List HashTree.Step} (built : top (HashTree.Tree.node ()) level = some t) :
    (a, q) ∈ nodeCode.paths t ↔ ∃ i u p, level[i]? = some u ∧ (a, p) ∈ nodeCode.paths u ∧
      q = ((path (HashTree.Tree.node ()) level i).map treeStep).reverse ++ p := by
  induction level using top.induct (HashTree.Tree.node ()) generalizing q with
  | case1 level many ih =>
    rw [top, if_pos many] at built
    have parts (i : ℕ) (p : List HashTree.Step) :
        ((path (HashTree.Tree.node ()) level i).map treeStep).reverse ++ p =
          ((path (HashTree.Tree.node ()) (next (HashTree.Tree.node ()) level) (i / 2)).map treeStep).reverse ++
            (((stepAt level i).map treeStep).reverse ++ p) := by
      rw [path, if_pos many, map_append, reverse_append, append_assoc]
    rw [ih built]
    constructor
    · rintro ⟨j, u, p, there, mem, rfl⟩
      obtain ⟨i, v, p', rfl, here, inside, rfl⟩ := mem_paths_next.1 ⟨u, there, mem⟩
      exact ⟨i, v, p', here, inside, (parts i p').symm⟩
    · rintro ⟨i, v, p, here, inside, rfl⟩
      obtain ⟨u, there, mem⟩ := mem_paths_next.2 ⟨i, v, p, rfl, here, inside, rfl⟩
      exact ⟨i / 2, u, _, there, mem, parts i p⟩
  | case2 level few =>
    rw [top, if_neg few, head?_eq_getElem?] at built
    have bare (i : ℕ) : path (HashTree.Tree.node ()) level i = [] := by rw [path, if_neg few]
    simp only [bare]
    constructor
    · intro mem
      exact ⟨0, t, q, built, mem, rfl⟩
    · rintro ⟨i, u, p, there, mem, rfl⟩
      obtain rfl : i = 0 := by
        have inside := (List.getElem?_eq_some_iff.1 there).1
        omega
      rw [built] at there
      rwa [Option.some.inj there]

theorem map_merklePath (leaves : List Node) (i : ℕ) :
    ((path hashPair (leaves.map hashLeaf) i).map fun s => (⟨s.1, s.2⟩ : PathStep)).map stepOf =
      (path (HashTree.Tree.node ()) (leaves.map HashTree.Tree.leaf) i).map treeStep := by
  rw [map_rootOf, path_map rootOf_node, map_map, map_map]
  rfl

/-! ### Collisions -/

theorem reads (leaf : Node) (t : MerkleTree) :
    nodeCode.Reads (fun s => ∃ step, s = stepOf step) (0 :: leaf.1) t where
  leaf same := by
    cases t with
    | leaf a => exact ⟨a, rfl⟩
    | node b l r => cases same
  step := by
    rintro _ y ⟨⟨sibling, left⟩, rfl⟩ same
    cases t with
    | leaf a => cases left <;> cases same
    | node b l r =>
      refine ⟨b, l, r, rfl, ?_⟩
      have size (b : Bytes) : (nodeCode.hash b).length = 32 := (blake3 b).2
      have root (u : MerkleTree) : (nodeCode.root u).length = 32 := nodeCode.hash_written u ▸ size _
      cases left
      · change [1] ++ (nodeCode.hash y ++ sibling.1) =
          [1] ++ (nodeCode.root l ++ nodeCode.root r) at same
        obtain ⟨child, other⟩ := append_inj (append_cancel_left same)
          ((size y).trans (root l).symm)
        exact .inl ⟨congrArg (fun x => ([1], x)) other, child⟩
      · change [1] ++ (sibling.1 ++ (nodeCode.hash y ++ [])) =
          [1] ++ (nodeCode.root l ++ nodeCode.root r) at same
        obtain ⟨other, child⟩ := append_inj (append_cancel_left same)
          (sibling.2.trans (root l).symm)
        rw [append_nil] at child
        refine .inr ⟨?_, child⟩
        change (1 :: sibling.1, ([] : Bytes)) = ([1] ++ (nodeCode.root l ++ []), [])
        rw [other, append_nil]
        rfl

theorem tree_injective {t u : MerkleTree} (same : nodeCode.root t = nodeCode.root u)
    (apart : Apart nodeCode.hash (t.subtrees.map nodeCode.written)
      (u.subtrees.map nodeCode.written)) : t = u := by
  have own (t u : MerkleTree) (same : nodeCode.root t = nodeCode.root u)
      (apart : Apart nodeCode.hash (t.subtrees.map nodeCode.written)
        (u.subtrees.map nodeCode.written)) : nodeCode.written t = nodeCode.written u :=
    apart _ (mem_map_of_mem t.self_mem_subtrees) _ (mem_map_of_mem u.self_mem_subtrees)
      ((nodeCode.hash_written t).trans (same.trans (nodeCode.hash_written u).symm))
  induction t generalizing u with
  | leaf a =>
    cases u with
    | leaf b => rw [Subtype.ext (List.cons.inj (own _ _ same apart)).2]
    | node b l r => cases own _ _ same apart
  | node b l r ihl ihr =>
    cases u with
    | leaf a => cases own _ _ same apart
    | node b' l' r' =>
      have size (u : MerkleTree) : (nodeCode.root u).length = 32 :=
        nodeCode.hash_written u ▸ (blake3 _).2
      have written : [1] ++ (nodeCode.root l ++ nodeCode.root r) =
          [1] ++ (nodeCode.root l' ++ nodeCode.root r') := own _ _ same apart
      obtain ⟨left, right⟩ := append_inj (append_cancel_left written)
        ((size l).trans (size l').symm)
      have inside {l r : MerkleTree} {x : Bytes} (mem : x ∈ l.subtrees.map nodeCode.written ∨
          x ∈ r.subtrees.map nodeCode.written) :
          x ∈ (HashTree.Tree.node () l r).subtrees.map nodeCode.written := by
        rw [HashTree.Tree.subtrees, map_cons, map_append]
        exact mem_cons_of_mem _ (mem_append.2 mem)
      rw [ihl left fun x hx y hy => apart x (inside (.inl hx)) y (inside (.inl hy)),
        ihr right fun x hx y hy => apart x (inside (.inr hx)) y (inside (.inr hy))]

theorem hashed_tree {leaves : List Node} {t : MerkleTree} (built : treeOf leaves = some t) :
    hashed leaves = t.subtrees.map nodeCode.written := by
  rw [hashed, built]

theorem hashed_nil : hashed [] = [emptyDomain] := by
  unfold hashed treeOf
  rw [top]
  rfl

theorem written_ne (t : MerkleTree) : nodeCode.written t ≠ emptyDomain := by
  have domain : emptyDomain.head? = some 116 := by decide
  intro same
  rw [← same] at domain
  cases t <;> cases domain

omit [SchemeHash] in
theorem genuine_steps (path : List PathStep) :
    ∀ s ∈ (path.map stepOf).reverse, ∃ step, s = stepOf step := by
  intro s mem
  obtain ⟨step, _, rfl⟩ := mem_map.1 (mem_reverse.1 mem)
  exact ⟨step, rfl⟩

theorem climb_domain (leaf : Node) (path : List PathStep) :
    ∃ y ∈ climbedOn leaf path, climb nodeCode.hash (path.map stepOf).reverse (0 :: leaf.1) =
      nodeCode.hash y ∧ y ≠ emptyDomain := by
  have domain : emptyDomain.head? = some 116 := by decide
  have genuine := genuine_steps path
  unfold climbedOn
  generalize (path.map stepOf).reverse = steps at genuine ⊢
  cases steps with
  | nil =>
    refine ⟨_, mem_cons_self, rfl, fun same => ?_⟩
    rw [← same] at domain
    cases domain
  | cons s steps =>
    refine ⟨_, mem_cons_self, rfl, fun same => ?_⟩
    rw [← same] at domain
    obtain ⟨⟨sibling, _ | _⟩, rfl⟩ := genuine s mem_cons_self <;> cases domain

theorem merkleRoot_nil : merkleRoot [] = emptyRoot := by
  rw [merkleRoot, map_nil, top]
  rfl

/-! ### The code's tree -/

theorem merklePath_root {leaves : List Node} {i : ℕ} {leaf : Node}
    (here : leaves[i]? = some leaf) :
    ∃ path, merklePath leaves i = some path ∧ rootFromPath leaf path = merkleRoot leaves := by
  have inside := (List.getElem?_eq_some_iff.1 here).1
  refine ⟨_, if_pos inside, ?_⟩
  have hashed : (leaves.map hashLeaf)[i]? = some (hashLeaf leaf) := by
    rw [getElem?_map, here]
    rfl
  rw [merkleRoot, climb_path hashed, rootFromPath, foldl_map]
  rfl

theorem merklePath_of_root {leaves : List Node} {leaf : Node} {path : List PathStep}
    (apart : Apart nodeCode.hash (climbedOn leaf path) (hashed leaves))
    (reaches : rootFromPath leaf path = merkleRoot leaves) :
    ∃ i, leaves[i]? = some leaf ∧ merklePath leaves i = some path := by
  have climbs := rootFromPath_climb leaf path
  rw [reaches] at climbs
  cases built : treeOf leaves with
  | none =>
    obtain rfl := treeOf_eq_none built
    rw [hashed_nil] at apart
    obtain ⟨y, mem, top_hash, other⟩ := climb_domain leaf path
    rw [top_hash, merkleRoot_nil] at climbs
    exact absurd (apart y mem emptyDomain (mem_singleton_self _) climbs.symm) other
  | some t =>
    rw [hashed_tree built] at apart
    rw [merkleRoot_tree built, rootOf_val] at climbs
    obtain ⟨a, mem, same⟩ := nodeCode.mem_paths (fun u _ => reads leaf u)
      (genuine_steps path) climbs.symm apart
    obtain rfl : leaf = a := Subtype.ext (List.cons.inj same).2
    obtain ⟨i, u, p, there, own, steps⟩ := (mem_paths_top built).1 mem
    rw [getElem?_map] at there
    obtain ⟨b, here, rfl⟩ := Option.map_eq_some_iff.1 there
    obtain ⟨rfl, rfl⟩ := Prod.mk.inj (mem_singleton.1 own)
    refine ⟨i, here, ?_⟩
    rw [append_nil, reverse_inj, ← map_merklePath] at steps
    rw [merklePath, if_pos (List.getElem?_eq_some_iff.1 here).1,
      ← (map_injective_iff.2 stepOf_injective) steps]

theorem emptyRoot_ne {leaves : List Node} {t : MerkleTree} (built : treeOf leaves = some t)
    (apart : Apart nodeCode.hash [emptyDomain] (hashed leaves)) : emptyRoot ≠ rootOf t := by
  rw [hashed_tree built] at apart
  intro same
  exact written_ne t (apart _ (mem_singleton_self _) _
    (mem_map_of_mem t.self_mem_subtrees) (congrArg Subtype.val same)).symm

theorem merkleRoot_injective {leaves other : List Node}
    (apart : Apart nodeCode.hash (hashed leaves) (hashed other))
    (same : merkleRoot leaves = merkleRoot other) : leaves = other := by
  cases built : treeOf leaves with
  | none =>
    obtain rfl := treeOf_eq_none built
    rw [merkleRoot_nil] at same
    rw [hashed_nil] at apart
    cases built' : treeOf other with
    | none => exact (treeOf_eq_none built').symm
    | some u =>
      rw [merkleRoot_tree built'] at same
      exact absurd same (emptyRoot_ne built' apart)
  | some t =>
    rw [merkleRoot_tree built] at same
    cases built' : treeOf other with
    | none =>
      obtain rfl := treeOf_eq_none built'
      rw [merkleRoot_nil] at same
      rw [hashed_nil] at apart
      exact absurd same.symm (emptyRoot_ne built fun x hx y hy eq => (apart y hy x hx eq.symm).symm)
    | some u =>
      rw [merkleRoot_tree built'] at same
      rw [hashed_tree built, hashed_tree built'] at apart
      have trees : t = u := tree_injective
        ((rootOf_val t).symm.trans ((congrArg Subtype.val same).trans (rootOf_val u))) apart
      rw [← treeOf_leaves built, ← treeOf_leaves built', trees]

/-- Every leaf's path leads to the root; whatever leads to the root is a leaf with its path; and
lists with one root are one list. All but the first hold as far as BLAKE3 keeps what is hashed
apart. -/
theorem merkle_binds (leaves : List Node) :
    (∀ (i : ℕ) (leaf : Node), leaves[i]? = some leaf → ∃ path,
      merklePath leaves i = some path ∧ rootFromPath leaf path = merkleRoot leaves) ∧
    (∀ (leaf : Node) (path : List PathStep),
      Apart nodeCode.hash (climbedOn leaf path) (hashed leaves) →
      rootFromPath leaf path = merkleRoot leaves →
      ∃ i, leaves[i]? = some leaf ∧ merklePath leaves i = some path) ∧
    ∀ other : List Node, Apart nodeCode.hash (hashed leaves) (hashed other) →
      merkleRoot leaves = merkleRoot other → leaves = other :=
  ⟨fun _ _ here => merklePath_root here, fun _ _ apart reaches => merklePath_of_root apart reaches,
    fun _ apart same => merkleRoot_injective apart same⟩

end

namespace Sample

@[reducible] def remainderHash : SchemeHash :=
  ⟨fun _ b => ⟨beBytes 32 (ofBeBytes b % (2 ^ 256 - 189)), length_beBytes ..⟩⟩

attribute [local instance] remainderHash

theorem length_leaf (b : UInt8) : (replicate 32 b).length = 32 := length_replicate

def leaf (b : UInt8) : Node := ⟨replicate 32 b, length_leaf b⟩

def leaves : List Node := [leaf 1, leaf 2, leaf 3]

def steps : List PathStep := [⟨hashPair (hashLeaf (leaf 1)) (hashLeaf (leaf 2)), true⟩]

def tree : MerkleTree := .node () (.node () (.leaf (leaf 1)) (.leaf (leaf 2))) (.leaf (leaf 3))

theorem treeOf_sample : treeOf leaves = some tree := by
  unfold treeOf leaves
  rw [top, if_pos (by decide)]
  change top (HashTree.Tree.node ()) [_, _] = _
  rw [top, if_pos (by decide)]
  change top (HashTree.Tree.node ()) [_] = _
  rw [top, if_neg (by decide)]
  rfl

theorem merkle_binds_three : ∃ i, leaves[i]? = some (leaf 3) ∧ merklePath leaves i = some steps := by
  have apart : Apart nodeCode.hash (climbedOn (leaf 3) steps) (hashed leaves) := by
    rw [hashed_tree treeOf_sample]
    decide +kernel
  have reaches : rootFromPath (leaf 3) steps = merkleRoot leaves := by
    rw [merkleRoot_tree treeOf_sample]
    decide +kernel
  exact (merkle_binds leaves).2.1 (leaf 3) steps apart reaches

end Sample

end Tenzro.Merkle
