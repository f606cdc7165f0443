import Tenzro.RedStuff

set_option autoImplicit false

/-!
# What a Red Stuff commitment binds

A blob and its encoding determine each other: unless two strings collide, only the encoding's own
slivers verify against its commitment, and any quorum of them gives the blob back.
-/
namespace Tenzro.RedStuff
open ByteCodec Outcome LevelTree List Nat

/-! ### What is hashed -/

def EncodedBlob.leafStrings (e : EncodedBlob) : List Bytes :=
  e.slivers.map (fun s => leafString 0 s.nodeIndex s.primary) ++
    e.slivers.map fun s => leafString 1 s.nodeIndex s.secondary

section
variable [Sha256]

def EncodedBlob.leaves (e : EncodedBlob) : List Hash := e.leafStrings.map Sha256.digest

def EncodedBlob.strings (e : EncodedBlob) : List Bytes :=
  e.leafStrings ++ ((pairs hashNode e.leaves).map (fun p => nodeString p.1 p.2) ++
    [blobString e.shape e.blobLen e.symbolLen (root hashNode e.leaves)])

def SliverPair.strings (s : SliverPair) (shape : CommitteeShape) (blobLen symbolLen : ℕ) :
    List Bytes :=
  let primary := hashLeaf 0 s.nodeIndex s.primary
  let secondary := hashLeaf 1 s.nodeIndex s.secondary
  [leafString 0 s.nodeIndex s.primary, leafString 1 s.nodeIndex s.secondary,
    blobString shape blobLen symbolLen (merkleRootFromProof primary s.nodeIndex s.primaryProof)] ++
    (climbPairs hashNode primary s.nodeIndex s.primaryProof ++
      climbPairs hashNode secondary (shape.n + s.nodeIndex) s.secondaryProof).map
        fun p => nodeString p.1 p.2

def CollisionFree (hashed : Set Bytes) : Prop :=
  ∀ x ∈ hashed, ∀ y ∈ hashed, Sha256.digest x = Sha256.digest y → x = y

/-! ### The tree -/

theorem merkleLevels_eq (level : List Hash) (proofs : List (List Hash × ℕ)) :
    merkleLevels level proofs =
      (root hashNode level, proofs.map fun p => p.1 ++ path hashNode level p.2) := by
  induction level using root.induct hashNode generalizing proofs with
  | case1 level many ih =>
    have above : root hashNode level = root hashNode (next hashNode level) := by
      rw [root, if_pos many]
    rw [merkleLevels, if_pos many, ih, above, map_map]
    refine Prod.ext rfl (map_congr_left fun p _ => ?_)
    have steps : path hashNode level p.2 =
        sibling level p.2 :: path hashNode (next hashNode level) (p.2 / 2) := by
      rw [path, if_pos many]
    rw [steps]
    simp
  | case2 level few =>
    rw [merkleLevels, if_neg few, root, if_neg few]
    refine Prod.ext rfl (map_congr_left fun p _ => ?_)
    rw [path, if_neg few, append_nil]

theorem merkleTree_eq {leaves : List Hash} (some_leaf : leaves ≠ []) : merkleTree leaves =
    (root hashNode leaves, (range leaves.length).map (path hashNode leaves)) := by
  rw [merkleTree, if_neg some_leaf, merkleLevels_eq, map_map]
  exact Prod.ext rfl (map_congr_left fun i _ => nil_append _)

theorem verifySliver_iff {s : SliverPair} {shape : CommitteeShape} {blobLen symbolLen : ℕ}
    {commitment : Hash} : verifySliver s shape blobLen symbolLen commitment = true ↔
      s.nodeIndex < shape.n ∧ s.primary.length = shape.cols * symbolLen ∧
      s.secondary.length = shape.rows * symbolLen ∧
      merkleRootFromProof (hashLeaf 0 s.nodeIndex s.primary) s.nodeIndex s.primaryProof =
        merkleRootFromProof (hashLeaf 1 s.nodeIndex s.secondary) (shape.n + s.nodeIndex)
          s.secondaryProof ∧
      blobCommitment shape blobLen symbolLen (merkleRootFromProof
        (hashLeaf 0 s.nodeIndex s.primary) s.nodeIndex s.primaryProof) = commitment := by
  unfold verifySliver
  simp only
  split_ifs with outside sizes roots
  · simp [outside]
  · simp only [false_iff]
    tauto
  · simp [roots]
  · rw [not_or, not_not, not_not] at sizes
    rw [not_not] at roots
    simp [Nat.lt_of_not_le outside, sizes.1, sizes.2, roots]

/-! ### Encodings -/

variable [ReedSolomon]

/-- What an encoding of `data` holds. -/
structure Encoded (data : Bytes) (shape : CommitteeShape) (e : EncodedBlob) : Prop where
  shaped : e.shape = shape
  blobLen : e.blobLen = data.length
  symbolLen : e.symbolLen = symbolLength data.length (shape.rows * shape.cols)
  commitment : e.commitment =
    blobCommitment shape data.length e.symbolLen (root hashNode e.leaves)
  named : e.slivers.map SliverPair.nodeIndex = range shape.n
  primary : ∀ s ∈ e.slivers, s.primary.length = shape.cols * e.symbolLen ∧
    s.primaryProof = path hashNode e.leaves s.nodeIndex
  secondary : ∀ s ∈ e.slivers, s.secondary.length = shape.rows * e.symbolLen ∧
    s.secondaryProof = path hashNode e.leaves (shape.n + s.nodeIndex)
  row : ∀ r < shape.rows, ∃ code, Codeword shape.cols (shape.n - shape.cols) code ∧
    Shards shape.n e.symbolLen code ∧
    code.take shape.cols = ((range shape.cols).map fun c =>
      (sourceMatrix e.symbolLen (shape.rows * shape.cols) data).getD (r * shape.cols + c) []) ∧
    ∀ s ∈ e.slivers, (s.secondary.drop (r * e.symbolLen)).take e.symbolLen =
      code.getD s.nodeIndex []

omit [Sha256] in
theorem extend_ok (dimension line : String) {k n len count : ℕ} (symbol : ℕ → ℕ → Bytes)
    (accepts : Accepts) (lawful : Systematic k (n - k)) (total : k + (n - k) = n) (some_data : 0 < k)
    (some_parity : 0 < n - k) (few : n ≤ 256) (pos : 0 < len)
    (size : ∀ i < count, ∀ j < k, (symbol i j).length = len) :
    ∃ ext, extend dimension line k n len
        ((range count).map fun i => (range k).map (symbol i)) = .ok ext ∧
      ext.length = count ∧ (∀ shards ∈ ext, Shards n len shards) ∧
      ∀ i (inside : i < ext.length), Codeword k (n - k) ext[i] ∧ Shards n len ext[i] ∧
        ext[i].take k = (range k).map (symbol i) := by
  have new : ReedSolomon.new k (n - k) = .ok () :=
    (accepts k (n - k)).2 ⟨some_data, some_parity, total.trans_le few⟩
  have each (i : ℕ) (inside : i < count) : ∃ code,
      ReedSolomon.encode k (n - k) ((range k).map (symbol i) ++
        replicate (n - k) (replicate len 0)) = .ok code ∧
      Shards n len code ∧ code.take k = (range k).map (symbol i) := by
    have padded : Shards (k + (n - k)) len
        ((range k).map (symbol i) ++ replicate (n - k) (replicate len 0)) := by
      refine ⟨by simp, fun s mem => ?_⟩
      rcases mem_append.1 mem with mem | mem
      · obtain ⟨j, low, rfl⟩ := mem_map.1 mem
        exact size i inside j (mem_range.1 low)
      · rw [eq_of_mem_replicate mem, length_replicate]
    obtain ⟨code, ran, shards, front⟩ := lawful.encodes pos padded
    rw [total] at shards
    refine ⟨code, ran, shards, front.trans ?_⟩
    exact take_left' (by simp)
  obtain ⟨ext, ran, all⟩ := mapM_total
    (l := ((range count).map fun i => (range k).map (symbol i)).zipIdx)
    (f := fun p => (ReedSolomon.encode k (n - k)
      (p.1 ++ replicate (n - k) (replicate len 0))).mapError fun e =>
        StorageError.generic s!"{dimension} encode {line} {p.2}: {e}")
    (P := fun p code => Codeword k (n - k) code ∧ Shards n len code ∧ code.take k = p.1)
    (by
      intro p mem
      obtain ⟨i, low, same⟩ := mem_map.1 (fst_mem_of_mem_zipIdx mem)
      obtain ⟨code, ran, shards, front⟩ := each i (mem_range.1 low)
      rw [same] at ran front
      exact ⟨code, by rw [ran]; rfl, ⟨_, ran⟩, shards, front⟩)
  obtain ⟨counted, held⟩ := forall₂_iff_get.1 all
  have held (i : ℕ) (inside : i < ext.length) := held i (counted ▸ inside) inside
  simp only [get_eq_getElem, getElem_zipIdx, getElem_map, getElem_range] at held
  refine ⟨ext, ?_, by simpa using counted.symm, fun shards mem => ?_, held⟩
  · unfold extend
    rw [new]
    exact ran
  · obtain ⟨i, inside, rfl⟩ := mem_iff_getElem.1 mem
    exact (held i inside).2.1

/-! ### What each node gets -/

section
variable {n len node : ℕ} {ext : List (List Bytes)}

omit [Sha256] [ReedSolomon] in
theorem size_getD {shards : List Bytes} (sized : Shards n len shards) (inside : node < n) :
    (shards.getD node []).length = len := by
  obtain ⟨count, size⟩ := sized
  rw [getD_eq_getElem _ _ (by omega)]
  exact size _ (getElem_mem _)

omit [Sha256] [ReedSolomon] in
theorem length_perNode (sized : ∀ shards ∈ ext, Shards n len shards) (inside : node < n) :
    ((perNode n ext).getD node []).length = ext.length * len := by
  rw [perNode, getD_map_range inside]
  induction ext with
  | nil => simp
  | cons shards ext ih =>
    obtain ⟨first, rest⟩ := forall_mem_cons.1 sized
    rw [flatMap_cons, length_append, size_getD first inside, ih rest, length_cons,
      succ_mul, Nat.add_comm]

omit [Sha256] [ReedSolomon] in
theorem slice_perNode {r : ℕ} (sized : ∀ shards ∈ ext, Shards n len shards) (inside : node < n)
    (line : r < ext.length) :
    (((perNode n ext).getD node []).drop (r * len)).take len = (ext.getD r []).getD node [] := by
  rw [perNode, getD_map_range inside, flatMap_def]
  rw [slice_flatten (fun b mem => ?_) (by rwa [length_map])]
  · rw [getD_eq_getElem _ _ (by rwa [length_map]), getElem_map,
      getD_eq_getElem _ _ line]
  · obtain ⟨shards, within, rfl⟩ := mem_map.1 mem
    exact size_getD (sized shards within) inside

end

/-! ### Encoding -/

section
variable {shape : CommitteeShape} {data : Bytes}

theorem supported_of_encode {e : EncodedBlob} (accepts : Accepts)
    (ran : encode data shape = .ok e) : shape.Supported := by
  obtain ⟨ext, extended, -⟩ := bind_ok.1 ran
  obtain ⟨_, new, -⟩ := bind_ok.1 extended
  cases opened : ReedSolomon.new shape.rows (shape.n - shape.rows) with
  | error e =>
    rw [opened] at new
    cases new
  | ok u =>
    obtain ⟨-, parity, few⟩ := (accepts _ _).1 opened
    rw [rows_add] at few
    unfold CommitteeShape.n CommitteeShape.rows at parity
    exact ⟨by omega, few⟩

theorem encode_ok (accepts : Accepts) (supported : shape.Supported)
    (primary : Systematic shape.rows (shape.n - shape.rows))
    (secondary : Systematic shape.cols (shape.n - shape.cols)) (data : Bytes) :
    ∃ e, encode data shape = .ok e ∧ Encoded data shape e := by
  obtain ⟨faults, few⟩ := supported
  let len := symbolLength data.length (shape.rows * shape.cols)
  let matrix := sourceMatrix len (shape.rows * shape.cols) data
  have pos : 0 < len := symbolLength_pos _ _
  have within {r c : ℕ} (hr : r < shape.rows) (hc : c < shape.cols) :
      r * shape.cols + c < shape.rows * shape.cols := by
    have more := Nat.mul_le_mul_right shape.cols hr
    rw [succ_mul] at more
    omega
  have symbol {r c : ℕ} (hr : r < shape.rows) (hc : c < shape.cols) :
      (matrix.getD (r * shape.cols + c) []).length = len := by
    have inside : r * shape.cols + c < matrix.length := by
      rw [length_sourceMatrix]
      exact within hr hc
    rw [getD_eq_getElem _ _ inside]
    exact sourceMatrix_size (getElem_mem _)
  obtain ⟨primaryExt, primary_ran, primary_count, primary_sized, -⟩ := extend_ok "primary" "col"
    (fun c r => matrix.getD (r * shape.cols + c) []) accepts primary (rows_add shape)
    (succ_pos _) (by unfold CommitteeShape.n CommitteeShape.rows; omega) few pos
    fun c hc r hr => symbol hr hc
  obtain ⟨secondaryExt, secondary_ran, secondary_count, secondary_sized, each⟩ := extend_ok
    "secondary" "row" (fun r c => matrix.getD (r * shape.cols + c) []) accepts secondary
    (cols_add shape) (succ_pos _) (by unfold CommitteeShape.n CommitteeShape.cols; omega) few pos
    fun r hr c hc => symbol hr hc
  let primaryRows := perNode shape.n primaryExt
  let secondaryCols := perNode shape.n secondaryExt
  let leaves := primaryRows.zipIdx.map (fun p => hashLeaf 0 p.2 p.1) ++
    secondaryCols.zipIdx.map fun p => hashLeaf 1 p.2 p.1
  let e : EncodedBlob := {
    shape
    blobLen := data.length
    symbolLen := len
    commitment := blobCommitment shape data.length len (merkleTree leaves).1
    slivers := (range shape.n).map fun node =>
      { nodeIndex := node
        primary := primaryRows.getD node []
        secondary := secondaryCols.getD node []
        primaryProof := (merkleTree leaves).2.getD node []
        secondaryProof := (merkleTree leaves).2.getD (shape.n + node) [] } }
  have ran : encode data shape = .ok e := by
    unfold encode
    simp only
    rw [primary_ran]
    change extend _ _ _ _ _ _ >>= _ = _
    rw [secondary_ran]
    rfl
  have counted (ext : List (List Bytes)) : (perNode shape.n ext).length = shape.n := by
    simp [perNode]
  have own : e.leaves = leaves := by
    have first : primaryRows.zipIdx.map (fun p => hashLeaf 0 p.2 p.1) = _ :=
      map_zipIdx (hashLeaf 0) []
    have second : secondaryCols.zipIdx.map (fun p => hashLeaf 1 p.2 p.1) = _ :=
      map_zipIdx (hashLeaf 1) []
    rw [counted] at first second
    simp only [EncodedBlob.leaves, EncodedBlob.leafStrings, leaves, first, second, e,
      map_append, map_map]
    rfl
  have size : leaves.length = shape.n + shape.n := by
    simp [leaves, primaryRows, secondaryCols, perNode]
  have some_leaf : leaves ≠ [] := ne_nil_of_length_pos (by
    rw [size]
    unfold CommitteeShape.n
    omega)
  have proofs {i : ℕ} (inside : i < shape.n + shape.n) :
      (merkleTree leaves).2.getD i [] = path hashNode leaves i := by
    rw [merkleTree_eq some_leaf, size]
    exact getD_map_range inside
  refine ⟨e, ran, rfl, rfl, rfl, ?_, ?_, ?_, ?_, ?_⟩
  · rw [own]
    change blobCommitment shape data.length len (merkleTree leaves).1 = _
    rw [merkleTree_eq some_leaf]
  · exact map_map.trans (map_id _)
  · intro s mem
    obtain ⟨node, inside, rfl⟩ := mem_map.1 mem
    have low := mem_range.1 inside
    rw [own]
    refine ⟨?_, proofs (by omega)⟩
    rw [← primary_count]
    exact length_perNode primary_sized low
  · intro s mem
    obtain ⟨node, inside, rfl⟩ := mem_map.1 mem
    have low := mem_range.1 inside
    rw [own]
    refine ⟨?_, proofs (by omega)⟩
    rw [← secondary_count]
    exact length_perNode secondary_sized low
  · intro r hr
    have line : r < secondaryExt.length := by omega
    obtain ⟨codeword, shards, front⟩ := each r line
    refine ⟨secondaryExt[r], codeword, shards, front, fun s mem => ?_⟩
    obtain ⟨node, inside, rfl⟩ := mem_map.1 mem
    refine (slice_perNode secondary_sized (mem_range.1 inside) line).trans ?_
    rw [getD_eq_getElem _ _ line]

end

/-! ### Verification -/

section
variable {shape : CommitteeShape} {data : Bytes} {e : EncodedBlob} {s : SliverPair}

theorem Encoded.getElem (encoded : Encoded data shape e) (mem : s ∈ e.slivers) :
    s.nodeIndex < shape.n ∧ e.slivers[s.nodeIndex]? = some s := by
  obtain ⟨i, inside, rfl⟩ := mem_iff_getElem.1 mem
  have names := encoded.named
  have count := congrArg List.length names
  rw [length_map, length_range] at count
  have here : (e.slivers.map SliverPair.nodeIndex)[i]? = (range shape.n)[i]? := by rw [names]
  rw [getElem?_map, getElem?_eq_getElem inside, getElem?_range (by omega)] at here
  have index : e.slivers[i].nodeIndex = i := Option.some.inj here
  rw [index]
  exact ⟨by omega, getElem?_eq_getElem inside⟩

theorem Encoded.length (encoded : Encoded data shape e) : e.slivers.length = shape.n := by
  have count := congrArg List.length encoded.named
  rwa [length_map, length_range] at count

theorem Encoded.length_leaves (encoded : Encoded data shape e) :
    e.leaves.length = shape.n + shape.n := by
  simp [EncodedBlob.leaves, EncodedBlob.leafStrings, encoded.length]

omit [ReedSolomon] in
theorem EncodedBlob.leaf_primary {i : ℕ}
    (here : e.slivers[i]? = some s) :
    e.leaves.getD i default = hashLeaf 0 s.nodeIndex s.primary := by
  obtain ⟨inside, -⟩ := List.getElem?_eq_some_iff.1 here
  rw [getD_eq_getElem?_getD, EncodedBlob.leaves, EncodedBlob.leafStrings, map_append,
    getElem?_append_left (by simpa using inside), getElem?_map, getElem?_map, here]
  rfl

theorem Encoded.leaf_secondary (encoded : Encoded data shape e) {i : ℕ}
    (here : e.slivers[i]? = some s) :
    e.leaves.getD (shape.n + i) default = hashLeaf 1 s.nodeIndex s.secondary := by
  have count : ((e.slivers.map fun s => leafString 0 s.nodeIndex s.primary).map
      Sha256.digest).length = shape.n := by simp [encoded.length]
  rw [getD_eq_getElem?_getD, EncodedBlob.leaves, EncodedBlob.leafStrings, map_append,
    getElem?_append_right (by omega), count, Nat.add_sub_cancel_left, getElem?_map,
    getElem?_map, here]
  rfl

theorem Encoded.verifies (encoded : Encoded data shape e) (mem : s ∈ e.slivers) :
    verifySliver s shape data.length e.symbolLen e.commitment = true := by
  obtain ⟨low, here⟩ := encoded.getElem mem
  obtain ⟨primary_size, primary_proof⟩ := encoded.primary s mem
  obtain ⟨secondary_size, secondary_proof⟩ := encoded.secondary s mem
  have size := encoded.length_leaves
  have primary : merkleRootFromProof (hashLeaf 0 s.nodeIndex s.primary) s.nodeIndex
      s.primaryProof = root hashNode e.leaves := by
    rw [primary_proof, ← EncodedBlob.leaf_primary here]
    exact climb_path (by omega)
  have secondary : merkleRootFromProof (hashLeaf 1 s.nodeIndex s.secondary)
      (shape.n + s.nodeIndex) s.secondaryProof = root hashNode e.leaves := by
    rw [secondary_proof, ← encoded.leaf_secondary here]
    exact climb_path (by omega)
  refine verifySliver_iff.2 ⟨low, primary_size, secondary_size, ?_, ?_⟩
  · rw [primary, secondary]
  · rw [primary, encoded.commitment]

omit [ReedSolomon] in
theorem tree_apart {hashed : Set Bytes} {kind : UInt8} {index node : ℕ} {symbols : Bytes}
    {way : List Hash} (free : CollisionFree hashed) (own : ∀ x ∈ e.strings, x ∈ hashed)
    (leaf : leafString kind node symbols ∈ hashed)
    (joined : ∀ p ∈ climbPairs hashNode (hashLeaf kind node symbols) index way,
      nodeString p.1 p.2 ∈ hashed) :
    LevelTree.Apart hashNode e.leaves (hashLeaf kind node symbols) index way := by
  have tree {q : Hash × Hash} (mem : q ∈ pairs hashNode e.leaves) :
      nodeString q.1 q.2 ∈ hashed := own _ (mem_append_right _ (mem_append_left _
    (mem_map_of_mem mem)))
  refine ⟨fun p hp q hq same => ?_, fun q hq same => ?_, fun p hp mem => ?_⟩
  · obtain ⟨left, right⟩ := nodeString_inj (free _ (joined p hp) _ (tree hq) same)
    exact Prod.ext left right
  · exact leafString_ne_nodeString _ _ _ _ _ (free _ (tree hq) _ leaf same).symm
  · obtain ⟨x, inside, same⟩ := mem_map.1 mem
    have strings := free _ (own x (mem_append_left _ inside)) _ (joined p hp) same
    rcases mem_append.1 inside with inside | inside <;>
      obtain ⟨t, -, rfl⟩ := mem_map.1 inside <;>
      exact leafString_ne_nodeString _ _ _ _ _ strings

theorem Encoded.binds {hashed : Set Bytes} {shape' : CommitteeShape} {blobLen symbolLen : ℕ}
    (encoded : Encoded data shape e) (free : CollisionFree hashed)
    (own : ∀ x ∈ e.strings, x ∈ hashed)
    (strings : ∀ x ∈ s.strings shape' blobLen symbolLen, x ∈ hashed)
    (few : shape.n ≤ 256) (long : data.length < 2 ^ 64) (f : shape'.f < 2 ^ 64)
    (lens : blobLen < 2 ^ 64) (symbols : symbolLen < 2 ^ 64)
    (verified : verifySliver s shape' blobLen symbolLen e.commitment = true) :
    shape' = shape ∧ blobLen = data.length ∧ symbolLen = e.symbolLen ∧ s ∈ e.slivers := by
  obtain ⟨low, -, -, roots, committed⟩ := verifySliver_iff.1 verified
  have own_symbols : e.symbolLen ≤ max data.length 1 := encoded.symbolLen ▸ symbolLength_le _ _
  have own_f : shape.f < 256 ^ 8 := by
    unfold CommitteeShape.n at few
    omega
  have blob : blobString shape' blobLen symbolLen (merkleRootFromProof
      (hashLeaf 0 s.nodeIndex s.primary) s.nodeIndex s.primaryProof) =
      blobString shape data.length e.symbolLen (root hashNode e.leaves) := by
    refine free _ (strings _ (by simp [SliverPair.strings])) _ (own _ ?_)
      (committed.trans encoded.commitment)
    rw [← encoded.shaped, ← encoded.blobLen]
    exact mem_append_right _ (mem_append_right _ mem_cons_self)
  obtain ⟨rfl, same_len, same_symbols, primary_root⟩ := blobString_inj (by omega) own_f (by omega)
    (by omega) (by omega) (by omega) blob
  refine ⟨rfl, same_len, same_symbols, ?_⟩
  have joined (p : Hash × Hash) (mem : p ∈
      climbPairs hashNode (hashLeaf 0 s.nodeIndex s.primary) s.nodeIndex s.primaryProof ++
        climbPairs hashNode (hashLeaf 1 s.nodeIndex s.secondary) (shape'.n + s.nodeIndex)
          s.secondaryProof) : nodeString p.1 p.2 ∈ hashed :=
    strings _ (mem_append_right _ (mem_map_of_mem mem))
  have size := encoded.length_leaves
  obtain ⟨primary_leaf, primary_proof⟩ := climb_binds (by omega)
    (tree_apart free own (strings _ (by simp [SliverPair.strings]))
      fun p mem => joined p (mem_append_left _ mem)) primary_root
  obtain ⟨secondary_leaf, secondary_proof⟩ := climb_binds (by omega)
    (tree_apart free own (strings _ (by simp [SliverPair.strings]))
      fun p mem => joined p (mem_append_right _ mem)) (roots.symm.trans primary_root)
  have inside : s.nodeIndex < e.slivers.length := encoded.length ▸ low
  obtain ⟨t, here⟩ : ∃ t, e.slivers[s.nodeIndex]? = some t :=
    ⟨_, getElem?_eq_getElem inside⟩
  have mem := mem_of_getElem? here
  have index : t.nodeIndex = s.nodeIndex := by
    obtain ⟨low', here'⟩ := encoded.getElem mem
    have names := encoded.named
    have at_index : (e.slivers.map SliverPair.nodeIndex)[s.nodeIndex]? = some t.nodeIndex := by
      rw [getElem?_map, here]
      rfl
    rw [names, getElem?_range low] at at_index
    exact (Option.some.inj at_index).symm
  rw [EncodedBlob.leaf_primary here] at primary_leaf
  rw [encoded.leaf_secondary here] at secondary_leaf
  have string (kind : UInt8) {x : Bytes} (inside : leafString kind t.nodeIndex x ∈ e.leafStrings)
      {y : Bytes} (there : leafString kind s.nodeIndex y ∈ hashed)
      (same : hashLeaf kind t.nodeIndex x = hashLeaf kind s.nodeIndex y) : x = y :=
    (leafString_inj (by omega) (by omega) (free _ (own _ (mem_append_left _ inside)) _ there
      same)).2.2
  have primary := string 0 (mem_append_left _ (mem_map_of_mem mem))
    (strings _ (by simp [SliverPair.strings])) primary_leaf
  have secondary := string 1 (mem_append_right _ (mem_map_of_mem mem))
    (strings _ (by simp [SliverPair.strings])) secondary_leaf
  have proofs := (encoded.primary t mem).2
  have proofs' := (encoded.secondary t mem).2
  have same : t = s := by
    obtain ⟨i, p, q, way, way'⟩ := s
    obtain ⟨j, p', q', way₁, way₁'⟩ := t
    simp only at index primary secondary proofs proofs' primary_proof secondary_proof
    subst index primary secondary
    rw [proofs, proofs', primary_proof, secondary_proof]
  exact same ▸ mem

end

/-! ### Reconstruction -/

section
variable {shape : CommitteeShape} {data : Bytes} {e : EncodedBlob} {slivers : List SliverPair}

/-- The verified slivers of an encoding that were supplied, each in its node's place. -/
structure Placed (e : EncodedBlob) (n : ℕ) (kept : List (Option SliverPair) × ℕ) : Prop where
  length : kept.1.length = n
  valid : kept.2 = (filled kept.1).card
  own : ∀ (i : ℕ) (s : SliverPair), kept.1[i]? = some (some s) → e.slivers[i]? = some s

omit [Sha256] [ReedSolomon] in
theorem filled_set {α : Type} {l : List (Option α)} {i : ℕ} {a : α} (inside : i < l.length) :
    filled (l.set i (some a)) = insert i (filled l) := by
  ext j
  rw [Finset.mem_insert, mem_filled, mem_filled]
  by_cases same : j = i
  · subst same
    simp [inside]
  · rw [getElem?_set_ne (Ne.symm same)]
    simp [same]

omit [ReedSolomon] in
theorem keepVerified_placed {kept : List (Option SliverPair) × ℕ} {s : SliverPair}
    {blobLen symbolLen : ℕ} {commitment : Hash} (placed : Placed e shape.n kept)
    (own : verifySliver s shape blobLen symbolLen commitment = true →
      e.slivers[s.nodeIndex]? = some s) :
    Placed e shape.n (keepVerified shape blobLen symbolLen commitment kept s) ∧
      filled kept.1 ⊆ filled (keepVerified shape blobLen symbolLen commitment kept s).1 ∧
      (verifySliver s shape blobLen symbolLen commitment = true →
        s.nodeIndex ∈ filled (keepVerified shape blobLen symbolLen commitment kept s).1) := by
  unfold keepVerified
  split_ifs with skip verified
  · refine ⟨placed, subset_rfl, fun verified => ?_⟩
    rcases skip with outside | there
    · exact absurd (verifySliver_iff.1 verified).1 (Nat.not_lt_of_le outside)
    · unfold filled
      rw [Finset.mem_filter, Finset.mem_range, placed.length]
      exact ⟨(verifySliver_iff.1 verified).1, there⟩
  · rw [not_or, Nat.not_le] at skip
    have inside : s.nodeIndex < kept.1.length := placed.length.symm ▸ skip.1
    have fresh : s.nodeIndex ∉ filled kept.1 := fun mem => skip.2 (Finset.mem_filter.1 mem).2
    refine ⟨⟨?_, ?_, fun i t there => ?_⟩, ?_, fun _ => ?_⟩
    · rw [length_set, placed.length]
    · rw [filled_set inside, Finset.card_insert_of_notMem fresh, placed.valid]
    · by_cases same : i = s.nodeIndex
      · subst same
        rw [getElem?_set_self inside] at there
        rw [← Option.some.inj (Option.some.inj there)]
        exact own verified
      · rw [getElem?_set_ne (Ne.symm same)] at there
        exact placed.own i t there
    · rw [filled_set inside]
      exact Finset.subset_insert _ _
    · rw [filled_set inside]
      exact Finset.mem_insert_self _ _
  · exact ⟨placed, subset_rfl, fun checked => absurd checked verified⟩

omit [ReedSolomon] in
theorem foldl_placed {kept : List (Option SliverPair) × ℕ} {blobLen symbolLen : ℕ}
    {commitment : Hash} (placed : Placed e shape.n kept)
    (own : ∀ s ∈ slivers, verifySliver s shape blobLen symbolLen commitment = true →
      e.slivers[s.nodeIndex]? = some s) :
    Placed e shape.n (slivers.foldl (keepVerified shape blobLen symbolLen commitment) kept) ∧
      filled kept.1 ⊆ filled
        (slivers.foldl (keepVerified shape blobLen symbolLen commitment) kept).1 ∧
      ∀ s ∈ slivers, verifySliver s shape blobLen symbolLen commitment = true → s.nodeIndex ∈
        filled (slivers.foldl (keepVerified shape blobLen symbolLen commitment) kept).1 := by
  induction slivers generalizing kept with
  | nil => exact ⟨placed, subset_rfl, fun s mem => absurd mem not_mem_nil⟩
  | cons s slivers ih =>
    obtain ⟨first, rest⟩ := forall_mem_cons.1 own
    obtain ⟨placed', grows, here⟩ := keepVerified_placed placed first
    obtain ⟨last, more, later⟩ := ih placed' rest
    refine ⟨last, grows.trans more, fun t mem verified => ?_⟩
    rcases mem_cons.1 mem with rfl | mem
    · exact more (here verified)
    · exact later t mem verified

theorem Encoded.decodeRow (encoded : Encoded data shape e)
    (mds : Mds shape.cols (shape.n - shape.cols)) {kept : List (Option SliverPair) × ℕ}
    (placed : Placed e shape.n kept) (enough : shape.cols ≤ kept.2) {r : ℕ} (hr : r < shape.rows) :
    decodeRow shape e.symbolLen kept.1 r = .ok ((range shape.cols).map fun c =>
      (sourceMatrix e.symbolLen (shape.rows * shape.cols) data).getD (r * shape.cols + c) []) := by
  obtain ⟨code, codeword, sized, front, slices⟩ := encoded.row r hr
  have pos : 0 < e.symbolLen := encoded.symbolLen ▸ symbolLength_pos _ _
  have within := cols_le_n shape
  have same : filled (rowShards kept.1 e.symbolLen r) = filled kept.1 := by
    ext i
    rw [mem_filled, mem_filled, rowShards, getElem?_map]
    cases kept.1[i]? with
    | none => simp
    | some slot => cases slot <;> simp
  have count : (rowShards kept.1 e.symbolLen r).length = shape.cols + (shape.n - shape.cols) := by
    rw [rowShards, length_map, placed.length, cols_add]
  have whole := mds.reconstructs pos ((cols_add shape).symm ▸ sized) codeword count
    (fun i x there => by
      rw [rowShards, getElem?_map] at there
      obtain ⟨slot, at_node, sliced⟩ := Option.map_eq_some_iff.1 there
      obtain ⟨s, rfl, rfl⟩ := Option.map_eq_some_iff.1 sliced
      have own := placed.own i s at_node
      have mem := mem_of_getElem? own
      obtain ⟨inside, -⟩ := List.getElem?_eq_some_iff.1 own
      have index : s.nodeIndex = i := by
        have names : (e.slivers.map SliverPair.nodeIndex)[i]? = some s.nodeIndex := by
          rw [getElem?_map, own]
          rfl
        rw [encoded.named, getElem?_range (encoded.length ▸ inside)] at names
        exact (Option.some.inj names).symm
      have low : i < code.length := by
        rw [sized.1, ← encoded.length]
        exact inside
      rw [slices s mem, index, getD_eq_getElem _ _ low, getElem?_eq_getElem low])
    (by rw [same, ← placed.valid]; exact enough)
  unfold RedStuff.decodeRow
  rw [whole]
  change mapM _ _ = _
  rw [mapM_eq_map (g := fun c => code.getD c []), map_range_getD (by rw [sized.1]; exact within),
    front]
  intro c mem
  have low : c < code.length := by
    rw [sized.1]
    exact Nat.lt_of_lt_of_le (mem_range.1 mem) within
  have found : (code.map some).getD c none = some (code.getD c []) := by
    rw [getD_eq_getElem _ _ (by rwa [length_map]), getElem_map,
      getD_eq_getElem _ _ low]
  have size : (code.getD c []).length = e.symbolLen := by
    rw [getD_eq_getElem _ _ low]
    exact sized.2 _ (getElem_mem _)
  simp only [found, if_pos size]

theorem Encoded.reconstruct (encoded : Encoded data shape e) (ran : encode data shape = .ok e)
    (accepts : Accepts) (mds : Mds shape.cols (shape.n - shape.cols))
    (own : ∀ s ∈ slivers, verifySliver s shape data.length e.symbolLen e.commitment = true →
      s ∈ e.slivers)
    (enough : shape.quorum ≤ (slivers.toFinset ∩ e.slivers.toFinset).card) :
    reconstruct slivers shape data.length e.symbolLen e.commitment = .ok data := by
  have empty : filled (replicate shape.n (none : Option SliverPair)) = ∅ := by
    ext i
    rw [mem_filled]
    simp [getElem?_replicate]
  have start : Placed e shape.n (replicate shape.n none, 0) :=
    ⟨length_replicate, by rw [empty, Finset.card_empty], fun i s found => by
      simp [getElem?_replicate] at found⟩
  obtain ⟨placed, -, there⟩ := foldl_placed start fun s mem verified =>
    (encoded.getElem (own s mem verified)).2
  let kept := slivers.foldl (keepVerified shape data.length e.symbolLen e.commitment)
    (replicate shape.n none, 0)
  have valid : shape.cols ≤ kept.2 := by
    rw [placed.valid]
    refine enough.trans (Finset.card_le_card_of_injOn SliverPair.nodeIndex (fun s mem => ?_)
      fun s hs t ht same => ?_)
    · rw [Finset.mem_coe, Finset.mem_inter, mem_toFinset, mem_toFinset] at mem
      exact there s mem.1 (encoded.verifies mem.2)
    · rw [Finset.mem_coe, Finset.mem_inter, mem_toFinset, mem_toFinset] at hs ht
      have first := (encoded.getElem hs.2).2
      rw [same, (encoded.getElem ht.2).2] at first
      exact (Option.some.inj first).symm
  have new : ReedSolomon.new shape.cols (shape.n - shape.cols) = .ok () := by
    obtain ⟨faults, few⟩ := supported_of_encode accepts ran
    refine (accepts _ _).2 ⟨succ_pos _, ?_, (cols_add shape).trans_le few⟩
    unfold CommitteeShape.n CommitteeShape.cols
    omega
  have fits : data.length ≤ shape.rows * shape.cols * e.symbolLen := by
    rw [encoded.symbolLen]
    exact le_symbolLength (Nat.mul_pos (succ_pos _) (succ_pos _))
  have matrix : (range shape.rows).mapM (RedStuff.decodeRow shape e.symbolLen kept.1) = _ :=
    mapM_eq_map fun r mem => encoded.decodeRow mds placed valid (mem_range.1 mem)
  have joined : ((range shape.rows).map fun r => (range shape.cols).map fun c =>
      (sourceMatrix e.symbolLen (shape.rows * shape.cols) data).getD (r * shape.cols + c)
        []).flatten.flatten.take data.length = data := by
    rw [flatten_rows length_sourceMatrix, take_flatten_sourceMatrix fits]
  unfold RedStuff.reconstruct
  simp only
  rw [(ensure_ok (u := ())).2 valid, new]
  change mapM (RedStuff.decodeRow shape e.symbolLen kept.1) _ >>= _ = _
  rw [matrix]
  change encode _ shape >>= _ = _
  rw [joined, ran]
  change ensure (e.commitment = e.commitment) _ >>= _ = _
  rw [(ensure_ok (u := ())).2 rfl]
  rfl

end

/-! ### Main result -/

section
variable {shape : CommitteeShape} {slivers : List SliverPair} {blobLen symbolLen : ℕ}
  {commitment : Hash} {out : Bytes}

theorem reconstruct_ok (ran : reconstruct slivers shape blobLen symbolLen commitment = .ok out) :
    out.length ≤ blobLen ∧ ∃ e, encode out shape = .ok e ∧ e.commitment = commitment := by
  unfold reconstruct at ran
  simp only at ran
  simp only [bind_ok] at ran
  obtain ⟨_, -, _, -, matrix, -, e, encoded, _, same, ran⟩ := ran
  obtain rfl := pure_ok.1 ran
  exact ⟨length_take_le _ _, e, encoded, ensure_ok.1 same⟩

/-- Every blob is encoded, its slivers verify and nothing else does, and a quorum of them gives it
back; under any commitment two quorums of slivers that verify give one blob or none. -/
theorem redStuff_binds {hashed : Set Bytes} (free : CollisionFree hashed) (accepts : Accepts)
    (primary : shape.Supported → Systematic shape.rows (shape.n - shape.rows))
    (secondary : shape.Supported → Mds shape.cols (shape.n - shape.cols)) :
    (∀ data : Bytes, shape.Supported → data.length < 2 ^ 64 → ∃ e, encode data shape = .ok e ∧
      (∀ s ∈ e.slivers, verifySliver s shape e.blobLen e.symbolLen e.commitment = true) ∧
      ((∀ x ∈ e.strings, x ∈ hashed) →
        (∀ slivers : List SliverPair,
          (∀ s ∈ slivers, ∀ x ∈ s.strings shape e.blobLen e.symbolLen, x ∈ hashed) →
          shape.quorum ≤ (slivers.toFinset ∩ e.slivers.toFinset).card →
          reconstruct slivers shape e.blobLen e.symbolLen e.commitment = .ok data) ∧
        ∀ (s : SliverPair) (shape' : CommitteeShape) (blobLen symbolLen : ℕ),
          shape'.f < 2 ^ 64 → blobLen < 2 ^ 64 → symbolLen < 2 ^ 64 →
          (∀ x ∈ s.strings shape' blobLen symbolLen, x ∈ hashed) →
          verifySliver s shape' blobLen symbolLen e.commitment = true →
          ∃ own ∈ e.slivers, own.nodeIndex = s.nodeIndex ∧ own.primary = s.primary ∧
            own.secondary = s.secondary)) ∧
    ∀ (commitment : Hash) (blobLen symbolLen : ℕ), blobLen < 2 ^ 64 → symbolLen < 2 ^ 64 →
      ∀ (first second : List SliverPair) (out : Bytes),
        reconstruct first shape blobLen symbolLen commitment = .ok out →
        (∀ e, encode out shape = .ok e → ∀ x ∈ e.strings, x ∈ hashed) →
        (∀ s ∈ second, ∀ x ∈ s.strings shape blobLen symbolLen, x ∈ hashed) →
        shape.quorum ≤ (second.filter fun s =>
          verifySliver s shape blobLen symbolLen commitment).toFinset.card →
        reconstruct second shape blobLen symbolLen commitment = .ok out := by
  refine ⟨fun data supported long => ?_, ?_⟩
  · have mds := secondary supported
    obtain ⟨e, ran, encoded⟩ := encode_ok accepts supported (primary supported) mds.toSystematic data
    have low : shape.f < 2 ^ 64 := by
      have few := supported.2
      unfold CommitteeShape.n at few
      omega
    have symbols : e.symbolLen < 2 ^ 64 := by
      have short : e.symbolLen ≤ max data.length 1 := encoded.symbolLen ▸ symbolLength_le _ _
      omega
    refine ⟨e, ran, ?_⟩
    rw [encoded.blobLen]
    refine ⟨fun s mem => encoded.verifies mem, fun own => ⟨fun slivers strings enough => ?_,
      fun s shape' blobLen symbolLen f lens few strings verified => ?_⟩⟩
    · refine encoded.reconstruct ran accepts mds (fun s mem verified => ?_) enough
      exact (encoded.binds free own (strings s mem) supported.2 long low long symbols verified).2.2.2
    · have mem := (encoded.binds free own strings supported.2 long f lens few verified).2.2.2
      exact ⟨s, mem, rfl, rfl, rfl⟩
  · intro commitment blobLen symbolLen lens symbols first second out ran own strings enough
    obtain ⟨short, e, encodes, rfl⟩ := reconstruct_ok ran
    have supported := supported_of_encode accepts encodes
    have mds := secondary supported
    obtain ⟨e', encodes', encoded⟩ := encode_ok accepts supported (primary supported)
      mds.toSystematic out
    obtain rfl := Except.ok.inj (encodes.symm.trans encodes')
    have low : shape.f < 2 ^ 64 := by
      have few := supported.2
      unfold CommitteeShape.n at few
      omega
    have binds (s : SliverPair) (mem : s ∈ second)
        (verified : verifySliver s shape blobLen symbolLen e.commitment = true) :=
      encoded.binds free (own e encodes) (strings s mem) supported.2 (short.trans_lt lens) low lens
        symbols verified
    obtain ⟨s, mem⟩ : ∃ s, s ∈ (second.filter fun s =>
        verifySliver s shape blobLen symbolLen e.commitment).toFinset :=
      Finset.card_pos.1 (Nat.lt_of_lt_of_le (succ_pos _) enough)
    obtain ⟨inside, verified⟩ := mem_filter.1 (mem_toFinset.1 mem)
    obtain ⟨-, rfl, rfl, -⟩ := binds s inside verified
    refine encoded.reconstruct encodes accepts mds (fun s mem verified =>
      (binds s mem verified).2.2.2) (enough.trans (Finset.card_le_card fun t mem => ?_))
    obtain ⟨inside, verified⟩ := mem_filter.1 (mem_toFinset.1 mem)
    exact Finset.mem_inter.2 ⟨mem_toFinset.2 inside,
      mem_toFinset.2 (binds t inside verified).2.2.2⟩

end

end

/-! A committee of four, whose row code adds one parity symbol. -/

namespace ParityCode

def weight (b : Bytes) : ℕ := b.foldl (fun n x => n * 257 + x.toNat + 1) 7 % (2 ^ 255 - 19)

@[reducible] def sums : Sha256 where
  digest b := ⟨beBytes 32 (weight b), length_beBytes ..⟩

def parity : List Bytes → Bytes
  | [] => []
  | [a] => a
  | a :: b :: l => zipWith (· ^^^ ·) a (parity (b :: l))

@[reducible] def code : ReedSolomon where
  new k m := if 0 < k ∧ 0 < m ∧ k + m ≤ 256 then .ok () else .error "bad shard counts"
  encode k m shards := .ok (shards.take k ++ replicate m (parity (shards.take k)))
  reconstruct _ _ given := .ok (given.map fun o => some (o.getD (parity (given.filterMap id))))

attribute [local instance] sums code

theorem accepts : Accepts := by
  intro k m
  change (if 0 < k ∧ 0 < m ∧ k + m ≤ 256 then _ else _) = _ ↔ _
  split_ifs with counts <;> simp [counts]

theorem length_parity {len : ℕ} {l : List Bytes} (some_shard : l ≠ [])
    (size : ∀ b ∈ l, b.length = len) : (parity l).length = len := by
  induction l using parity.induct with
  | case1 => exact absurd rfl some_shard
  | case2 a => exact size a mem_cons_self
  | case3 a b l ih =>
    obtain ⟨first, rest⟩ := forall_mem_cons.1 size
    rw [parity, length_zipWith, first, ih (cons_ne_nil _ _) rest, min_self]

theorem systematic {k m : ℕ} (some_data : 0 < k) : Systematic k m where
  encodes := by
    rintro len shards - ⟨count, size⟩
    have data (b : Bytes) (mem : b ∈ shards.take k) : b.length = len :=
      size b (mem_of_mem_take mem)
    have front : (shards.take k).length = k := length_take_of_le (by omega)
    have some_shard : shards.take k ≠ [] := ne_nil_of_length_pos (by omega)
    refine ⟨_, rfl, ⟨by simp [count], fun b mem => ?_⟩, ?_⟩
    · rcases mem_append.1 mem with mem | mem
      · exact data b mem
      · rw [eq_of_mem_replicate mem]
        exact length_parity some_shard data
    · rw [take_append_of_le_length front.ge, take_take, min_self]

section
variable {len : ℕ} {a b c : Bytes}

theorem zip_comm : zipWith (· ^^^ ·) a b = zipWith (· ^^^ ·) b a := by
  rw [zipWith_comm]
  simp only [UInt8.xor_comm]

theorem zip_left_comm : zipWith (· ^^^ ·) a (zipWith (· ^^^ ·) b c) =
    zipWith (· ^^^ ·) b (zipWith (· ^^^ ·) a c) := by
  apply ext_getElem
  · simp only [length_zipWith]
    omega
  · intro i low low'
    simp only [getElem_zipWith, ← UInt8.xor_assoc]
    have inside : i < a.length := by
      simp at low
      omega
    rw [UInt8.xor_comm a[i]]

theorem zip_cancel (ha : a.length = len) (hb : b.length = len) :
    zipWith (· ^^^ ·) a (zipWith (· ^^^ ·) a b) = b := by
  apply ext_getElem
  · simp [ha, hb]
  · intro i low low'
    simp

end

theorem mds : Mds 3 1 where
  toSystematic := systematic (by decide)
  reconstructs := by
    rintro len code given - ⟨count, size⟩ ⟨shards, ran⟩ total agree enough
    have built : code = shards.take 3 ++ [parity (shards.take 3)] := (Except.ok.inj ran).symm
    have three : (shards.take 3).length = 3 := by
      rw [built, length_append, length_singleton] at count
      omega
    obtain ⟨a, b, c, data⟩ := length_eq_three.1 three
    rw [data] at built
    subst built
    obtain ⟨ha, hb, hc, -⟩ : a.length = len ∧ b.length = len ∧ c.length = len ∧ _ :=
      ⟨size a (by simp), size b (by simp), size c (by simp), trivial⟩
    have inner : zipWith (· ^^^ ·) c (zipWith (· ^^^ ·) b c) = b := by
      rw [zip_comm (a := b), zip_cancel hc hb]
    have missing_a : parity [b, c, parity [a, b, c]] = a := by
      change zipWith _ b (zipWith _ c (zipWith _ a (zipWith _ b c))) = a
      rw [zip_left_comm (a := c), inner, zip_comm (a := a), zip_cancel hb ha]
    have missing_b : parity [a, c, parity [a, b, c]] = b := by
      change zipWith _ a (zipWith _ c (zipWith _ a (zipWith _ b c))) = b
      rw [zip_left_comm (a := c), inner, zip_cancel ha hb]
    have missing_c : parity [a, b, parity [a, b, c]] = c := by
      change zipWith _ a (zipWith _ b (zipWith _ a (zipWith _ b c))) = c
      rw [zip_left_comm (a := b), zip_cancel hb hc, zip_cancel ha hc]
    match given, total with
    | [g₀, g₁, g₂, g₃], _ =>
      have at₀ (x : Bytes) (here : g₀ = some x) : x = a := by
        have same := agree 0 x (by rw [here]; rfl)
        exact (Option.some.inj same).symm
      have at₁ (x : Bytes) (here : g₁ = some x) : x = b := by
        have same := agree 1 x (by rw [here]; rfl)
        exact (Option.some.inj same).symm
      have at₂ (x : Bytes) (here : g₂ = some x) : x = c := by
        have same := agree 2 x (by rw [here]; rfl)
        exact (Option.some.inj same).symm
      have at₃ (x : Bytes) (here : g₃ = some x) : x = parity [a, b, c] := by
        have same := agree 3 x (by rw [here]; rfl)
        exact (Option.some.inj same).symm
      simp only [filled, Finset.card_filter, length_cons, length_nil, Nat.zero_add,
        reduceAdd, Finset.sum_range_succ, Finset.sum_range_zero, getD_cons_zero,
        getD_cons_succ] at enough
      change Except.ok (List.map _ _) = Except.ok [some a, some b, some c, some (parity [a, b, c])]
      rcases g₀ with _ | x₀ <;> rcases g₁ with _ | x₁ <;> rcases g₂ with _ | x₂ <;>
        rcases g₃ with _ | x₃
      case none.some.some.some =>
        rw [at₁ x₁ rfl, at₂ x₂ rfl, at₃ x₃ rfl]
        change Except.ok [some (parity [b, c, parity [a, b, c]]), _, _, _] = _
        rw [missing_a]
        rfl
      case some.none.some.some =>
        rw [at₀ x₀ rfl, at₂ x₂ rfl, at₃ x₃ rfl]
        change Except.ok [_, some (parity [a, c, parity [a, b, c]]), _, _] = _
        rw [missing_b]
        rfl
      case some.some.none.some =>
        rw [at₀ x₀ rfl, at₁ x₁ rfl, at₃ x₃ rfl]
        change Except.ok [_, _, some (parity [a, b, parity [a, b, c]]), _] = _
        rw [missing_c]
        rfl
      case some.some.some.none =>
        rw [at₀ x₀ rfl, at₁ x₁ rfl, at₂ x₂ rfl]
        rfl
      case some.some.some.some =>
        rw [at₀ x₀ rfl, at₁ x₁ rfl, at₂ x₂ rfl, at₃ x₃ rfl]
        rfl
      all_goals simp at enough

def shape : CommitteeShape := ⟨1⟩

def data : Bytes := [1, 2, 3, 4, 5, 6, 7]

def encoded : EncodedBlob :=
  match encode data shape with
  | .ok e => e
  | .error _ => ⟨shape, 0, 0, default, []⟩

def forged (s : SliverPair) : SliverPair := { s with secondary := s.secondary.set 0 9 }

def supplied : List SliverPair := encoded.slivers.map forged ++ encoded.slivers.drop 1

def strings : List Bytes :=
  encoded.strings ++ supplied.flatMap fun s => s.strings shape encoded.blobLen encoded.symbolLen

theorem first_of_weight :
    ∀ x ∈ strings, strings.find? (fun y => decide (weight y = weight x)) = some x := by
  decide +kernel

theorem collision_free : CollisionFree {x | x ∈ strings} := by
  have small (b : Bytes) : weight b < 256 ^ 32 :=
    (mod_lt _ (by decide)).trans (by decide : 2 ^ 255 - 19 < 256 ^ 32)
  intro x hx y hy same
  have weights : weight x = weight y := by
    have read := congrArg (fun h : Hash => ofBeBytes h.1) same
    change ofBeBytes (beBytes 32 (weight x)) = ofBeBytes (beBytes 32 (weight y)) at read
    rwa [ofBeBytes_beBytes (small x), ofBeBytes_beBytes (small y)] at read
  have first := first_of_weight x hx
  rw [weights, first_of_weight y hy] at first
  exact (Option.some.inj first).symm

/-- Every sliver is supplied forged, and three of the four honest: the blob comes back. -/
theorem redStuff_binds_forged : reconstruct supplied shape encoded.blobLen encoded.symbolLen
    encoded.commitment = .ok data := by
  obtain ⟨honest, -⟩ := redStuff_binds collision_free accepts
    (fun _ : shape.Supported => systematic (by decide)) fun _ => mds
  obtain ⟨e, ran, -, bound⟩ := honest data ⟨by decide, by decide⟩ (by decide)
  have same : encoded = e := by
    unfold encoded
    rw [ran]
  subst same
  exact (bound fun x mem => mem_append_left _ mem).1 supplied
    (fun s mem x inside => mem_append_right _ (mem_flatMap.2 ⟨s, mem, inside⟩))
    (by decide +kernel)

end ParityCode

end Tenzro.RedStuff
