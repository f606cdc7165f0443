import Tenzro.ByteCodec
import Tenzro.LevelTree
import Tenzro.Outcome

set_option autoImplicit false

/-!
# The symbols and strings of Red Stuff

A blob is a matrix of symbols whose columns and rows are each extended to one
symbol a node; a Merkle root over all slivers commits to it, and a quorum of
slivers gives it back.
-/
namespace Tenzro.RedStuff
open ByteCodec Outcome List

abbrev Hash := {b : Bytes // b.length = 32}

instance : Inhabited Hash := ⟨⟨replicate 32 0, length_replicate⟩⟩

class Sha256 where
  digest : Bytes → Hash

/-- The erasure codes of the Reed-Solomon crate, by data and parity shards. -/
class ReedSolomon where
  new : ℕ → ℕ → Except String Unit
  /-- All shards, the parity shards overwritten. -/
  encode : ℕ → ℕ → List Bytes → Except String (List Bytes)
  /-- All shards, those missing filled in. -/
  reconstruct : ℕ → ℕ → List (Option Bytes) → Except String (List (Option Bytes))

inductive StorageError where
  | invalidValue (what : String)
  | generic (what : String)
deriving DecidableEq, Repr

/-! ### Shapes -/

structure CommitteeShape where
  f : ℕ
deriving DecidableEq, Repr

namespace CommitteeShape

def fromFaultBound (f : ℕ) : Except StorageError CommitteeShape :=
  if f = 0 then .error (.invalidValue "Red Stuff fault bound f must be >= 1") else .ok ⟨f⟩

def fromCommitteeSize (n : ℕ) : Except StorageError CommitteeShape :=
  if n < 4 then .error (.invalidValue s!"Red Stuff committee needs n >= 4, got {n}")
  else fromFaultBound ((n - 1) / 3)

variable (shape : CommitteeShape)

def n : ℕ := 3 * shape.f + 1

def rows : ℕ := shape.f + 1

def cols : ℕ := 2 * shape.f + 1

def quorum : ℕ := 2 * shape.f + 1

end CommitteeShape

/-! ### Hashes -/

def leafTag : Bytes := "tenzro/redstuff/sliver".toByteArray.data.toList

def nodeTag : Bytes := "tenzro/redstuff/node".toByteArray.data.toList

def blobTag : Bytes := "tenzro/redstuff/blob".toByteArray.data.toList

def leafString (kind : UInt8) (nodeIndex : ℕ) (symbols : Bytes) : Bytes :=
  leafTag ++ (kind :: (leBytes 8 nodeIndex ++ symbols))

def nodeString (left right : Hash) : Bytes := nodeTag ++ (left.1 ++ right.1)

def blobString (shape : CommitteeShape) (blobLen symbolLen : ℕ) (sliverRoot : Hash) : Bytes :=
  blobTag ++ (leBytes 8 shape.f ++ (leBytes 8 blobLen ++ (leBytes 8 symbolLen ++ sliverRoot.1)))

section
variable [Sha256]

def hashLeaf (kind : UInt8) (nodeIndex : ℕ) (symbols : Bytes) : Hash :=
  Sha256.digest (leafString kind nodeIndex symbols)

def hashNode (left right : Hash) : Hash := Sha256.digest (nodeString left right)

def blobCommitment (shape : CommitteeShape) (blobLen symbolLen : ℕ) (sliverRoot : Hash) : Hash :=
  Sha256.digest (blobString shape blobLen symbolLen sliverRoot)

def merkleLevels (level : List Hash) (proofs : List (List Hash × ℕ)) : Hash × List (List Hash) :=
  if 1 < level.length then
    merkleLevels (LevelTree.next hashNode level)
      (proofs.map fun p => (p.1 ++ [LevelTree.sibling level p.2], p.2 / 2))
  else (level.getD 0 default, proofs.map Prod.fst)
termination_by level.length
decreasing_by exact LevelTree.length_next_lt hashNode ‹_›

/-- The root, and the path of each leaf. -/
def merkleTree (leaves : List Hash) : Hash × List (List Hash) :=
  if leaves = [] then (default, [])
  else merkleLevels leaves ((range leaves.length).map fun i => ([], i))

def merkleRootFromProof (leaf : Hash) (index : ℕ) (proof : List Hash) : Hash :=
  LevelTree.climb hashNode leaf index proof

end

/-! ### Slivers -/

structure SliverPair where
  nodeIndex : ℕ
  primary : Bytes
  secondary : Bytes
  primaryProof : List Hash
  secondaryProof : List Hash
deriving DecidableEq

structure EncodedBlob where
  shape : CommitteeShape
  blobLen : ℕ
  symbolLen : ℕ
  commitment : Hash
  slivers : List SliverPair
deriving DecidableEq

def symbolLength (len sourceSymbols : ℕ) : ℕ := max ((len + sourceSymbols - 1) / sourceSymbols) 1

/-- Symbols of the same length, the tail filled with zeros. -/
def sourceMatrix (symbolLen : ℕ) : ℕ → Bytes → List Bytes
  | 0, _ => []
  | count + 1, data =>
    (data.take symbolLen).rightpad symbolLen 0 ::
      sourceMatrix symbolLen count (data.drop symbolLen)

section
variable [ReedSolomon]

def extend (dimension line : String) (k n symbolLen : ℕ) (lines : List (List Bytes)) :
    Except StorageError (List (List Bytes)) := do
  (ReedSolomon.new k (n - k)).mapError fun e => .generic s!"{dimension} RS init: {e}"
  lines.zipIdx.mapM fun (symbols, i) =>
    (ReedSolomon.encode k (n - k) (symbols ++ replicate (n - k) (replicate symbolLen 0))
      ).mapError fun e => .generic s!"{dimension} encode {line} {i}: {e}"

def perNode (n : ℕ) (ext : List (List Bytes)) : List Bytes :=
  (range n).map fun node => ext.flatMap fun shards => shards.getD node []

variable [Sha256]

def encode (data : Bytes) (shape : CommitteeShape) : Except StorageError EncodedBlob := do
  let rows := shape.rows
  let cols := shape.cols
  let n := shape.n
  let symbolLen := symbolLength data.length (rows * cols)
  let matrix := sourceMatrix symbolLen (rows * cols) data
  let primaryExt ← extend "primary" "col" rows n symbolLen
    ((range cols).map fun c => (range rows).map fun r => matrix.getD (r * cols + c) [])
  let primaryRows := perNode n primaryExt
  let secondaryExt ← extend "secondary" "row" cols n symbolLen
    ((range rows).map fun r => (range cols).map fun c => matrix.getD (r * cols + c) [])
  let secondaryCols := perNode n secondaryExt
  let leaves := primaryRows.zipIdx.map (fun p => hashLeaf 0 p.2 p.1) ++
    secondaryCols.zipIdx.map fun p => hashLeaf 1 p.2 p.1
  let (sliverRoot, proofs) := merkleTree leaves
  return {
    shape
    blobLen := data.length
    symbolLen
    commitment := blobCommitment shape data.length symbolLen sliverRoot
    slivers := (range n).map fun node =>
      { nodeIndex := node
        primary := primaryRows.getD node []
        secondary := secondaryCols.getD node []
        primaryProof := proofs.getD node []
        secondaryProof := proofs.getD (n + node) [] } }

end

section
variable [Sha256]

def verifySliver (s : SliverPair) (shape : CommitteeShape) (blobLen symbolLen : ℕ)
    (commitment : Hash) : Bool :=
  let n := shape.n
  if n ≤ s.nodeIndex then false
  else if s.primary.length ≠ shape.cols * symbolLen ∨
      s.secondary.length ≠ shape.rows * symbolLen then false
  else
    let primaryRoot := merkleRootFromProof (hashLeaf 0 s.nodeIndex s.primary) s.nodeIndex
      s.primaryProof
    let secondaryRoot := merkleRootFromProof (hashLeaf 1 s.nodeIndex s.secondary)
      (n + s.nodeIndex) s.secondaryProof
    if primaryRoot ≠ secondaryRoot then false
    else blobCommitment shape blobLen symbolLen primaryRoot = commitment

def keepVerified (shape : CommitteeShape) (blobLen symbolLen : ℕ) (commitment : Hash)
    (kept : List (Option SliverPair) × ℕ) (s : SliverPair) : List (Option SliverPair) × ℕ :=
  if shape.n ≤ s.nodeIndex ∨ (kept.1.getD s.nodeIndex none).isSome then kept
  else if verifySliver s shape blobLen symbolLen commitment then
    (kept.1.set s.nodeIndex (some s), kept.2 + 1)
  else kept

variable [ReedSolomon]

def rowShards (present : List (Option SliverPair)) (symbolLen r : ℕ) : List (Option Bytes) :=
  present.map fun slot => slot.map fun s => (s.secondary.drop (r * symbolLen)).take symbolLen

def decodeRow (shape : CommitteeShape) (symbolLen : ℕ) (present : List (Option SliverPair)) (r : ℕ) :
    Except StorageError (List Bytes) := do
  let shards ← (ReedSolomon.reconstruct shape.cols (shape.n - shape.cols)
    (rowShards present symbolLen r)).mapError fun e => .generic s!"secondary reconstruct row {r}: {e}"
  (range shape.cols).mapM fun c =>
    match shards.getD c none with
    | none => .error (.generic "row symbol missing after decode")
    | some symbol =>
      -- a copy between slices of different lengths panics
      if symbol.length = symbolLen then .ok symbol
      else .error (.generic "source slice length does not match destination slice length")

def reconstruct (slivers : List SliverPair) (shape : CommitteeShape) (blobLen symbolLen : ℕ)
    (commitment : Hash) : Except StorageError Bytes := do
  let cols := shape.cols
  let n := shape.n
  let (present, valid) := slivers.foldl (keepVerified shape blobLen symbolLen commitment)
    (replicate n none, 0)
  ensure (cols ≤ valid) (StorageError.invalidValue
    s!"Red Stuff reconstruct needs {cols} valid secondary slivers, have {valid}")
  (ReedSolomon.new cols (n - cols)).mapError fun e => .generic s!"secondary RS init: {e}"
  let matrix ← (range shape.rows).mapM (decodeRow shape symbolLen present)
  let out := matrix.flatten.flatten.take blobLen
  let re ← encode out shape
  ensure (re.commitment = commitment) (StorageError.invalidValue
    "Red Stuff reconstruct: re-encoded commitment does not match")
  return out

end

open LevelTree

/-! ### Codes -/

def Shards (count len : ℕ) (shards : List Bytes) : Prop :=
  shards.length = count ∧ ∀ s ∈ shards, s.length = len

def filled {α : Type} (l : List (Option α)) : Finset ℕ :=
  (Finset.range l.length).filter fun i => (l.getD i none).isSome

theorem mem_filled {α : Type} {l : List (Option α)} {i : ℕ} :
    i ∈ filled l ↔ ∃ a, l[i]? = some (some a) := by
  unfold filled
  rw [Finset.mem_filter, Finset.mem_range, getD_eq_getElem?_getD]
  constructor
  · rintro ⟨inside, here⟩
    rw [getElem?_eq_getElem inside, Option.getD_some] at here
    obtain ⟨a, found⟩ := Option.isSome_iff_exists.1 here
    exact ⟨a, by rw [getElem?_eq_getElem inside, found]⟩
  · rintro ⟨a, found⟩
    obtain ⟨inside, -⟩ := List.getElem?_eq_some_iff.1 found
    exact ⟨inside, by simp [found]⟩

section
variable [ReedSolomon]

def Codeword (k m : ℕ) (code : List Bytes) : Prop :=
  ∃ shards, ReedSolomon.encode k m shards = .ok code

/-- Encoding keeps the data shards. -/
structure Systematic (k m : ℕ) : Prop where
  encodes : ∀ {len : ℕ} {shards : List Bytes}, 0 < len → Shards (k + m) len shards →
    ∃ code, ReedSolomon.encode k m shards = .ok code ∧ Shards (k + m) len code ∧
      code.take k = shards.take k

/-- Any `k` shards of a codeword give all of it. -/
structure Mds (k m : ℕ) : Prop extends Systematic k m where
  reconstructs : ∀ {len : ℕ} {code : List Bytes} {given : List (Option Bytes)}, 0 < len →
    Shards (k + m) len code → Codeword k m code → given.length = k + m →
    (∀ (i : ℕ) (s : Bytes), given[i]? = some (some s) → code[i]? = some s) → k ≤ (filled given).card →
    ReedSolomon.reconstruct k m given = .ok (code.map some)

/-- The shard counts the crate takes. -/
def Accepts : Prop :=
  ∀ k m, ReedSolomon.new k m = .ok () ↔ 0 < k ∧ 0 < m ∧ k + m ≤ 256

end

/-! ### Shapes -/

/-- A shape whose two codes the crate takes. -/
def CommitteeShape.Supported (shape : CommitteeShape) : Prop := 0 < shape.f ∧ shape.n ≤ 256

section
variable (shape : CommitteeShape)

theorem rows_add : shape.rows + (shape.n - shape.rows) = shape.n := by
  unfold CommitteeShape.rows CommitteeShape.n
  omega

theorem cols_add : shape.cols + (shape.n - shape.cols) = shape.n := by
  unfold CommitteeShape.cols CommitteeShape.n
  omega

theorem cols_le_n : shape.cols ≤ shape.n := by
  unfold CommitteeShape.cols CommitteeShape.n
  omega

end

/-! ### Strings -/

theorem leBytes_inj {w n m : ℕ} (low : n < 256 ^ w) (low' : m < 256 ^ w)
    (same : leBytes w n = leBytes w m) : n = m := by
  have read := congrArg ofLeBytes same
  rwa [ofLeBytes_leBytes, ofLeBytes_leBytes, Nat.mod_eq_of_lt low, Nat.mod_eq_of_lt low'] at read

theorem nodeString_inj {a b c d : Hash} (same : nodeString a b = nodeString c d) :
    a = c ∧ b = d := by
  have rest := append_cancel_left same
  obtain ⟨left, right⟩ := append_inj rest (a.2.trans c.2.symm)
  exact ⟨Subtype.ext left, Subtype.ext right⟩

theorem leafString_ne_nodeString (kind : UInt8) (i : ℕ) (symbols : Bytes) (a b : Hash) :
    leafString kind i symbols ≠ nodeString a b := by
  intro same
  have leaf : (leafString kind i symbols).take 17 = leafTag.take 17 :=
    take_append_of_le_length (by decide)
  have node : (nodeString a b).take 17 = nodeTag.take 17 :=
    take_append_of_le_length (by decide)
  have tags : leafTag.take 17 = nodeTag.take 17 := by rw [← leaf, ← node, same]
  exact absurd tags (by decide)

theorem leafString_inj {kind kind' : UInt8} {i j : ℕ} {x y : Bytes} (low : i < 256 ^ 8)
    (low' : j < 256 ^ 8) (same : leafString kind i x = leafString kind' j y) :
    kind = kind' ∧ i = j ∧ x = y := by
  obtain ⟨kinds, rest⟩ := List.cons.inj (append_cancel_left same)
  obtain ⟨indexes, symbols⟩ := append_inj rest ((length_leBytes 8 i).trans
    (length_leBytes 8 j).symm)
  exact ⟨kinds, leBytes_inj low low' indexes, symbols⟩

theorem blobString_inj {shape shape' : CommitteeShape} {n m l k : ℕ} {a b : Hash}
    (f : shape.f < 256 ^ 8) (f' : shape'.f < 256 ^ 8) (hn : n < 256 ^ 8) (hm : m < 256 ^ 8)
    (hl : l < 256 ^ 8) (hk : k < 256 ^ 8)
    (same : blobString shape n l a = blobString shape' m k b) :
    shape = shape' ∧ n = m ∧ l = k ∧ a = b := by
  have size (x y : ℕ) : (leBytes 8 x).length = (leBytes 8 y).length :=
    (length_leBytes 8 x).trans (length_leBytes 8 y).symm
  obtain ⟨bounds, rest⟩ := append_inj (append_cancel_left same) (size _ _)
  obtain ⟨lens, rest⟩ := append_inj rest (size _ _)
  obtain ⟨symbols, roots⟩ := append_inj rest (size _ _)
  have faults := leBytes_inj f f' bounds
  obtain ⟨f₁⟩ := shape
  obtain ⟨f₂⟩ := shape'
  obtain rfl : f₁ = f₂ := faults
  exact ⟨rfl, leBytes_inj hn hm lens, leBytes_inj hl hk symbols, Subtype.ext roots⟩

/-! ### Matrices -/

theorem le_symbolLength {len count : ℕ} (some_symbol : 0 < count) :
    len ≤ count * symbolLength len count := by
  have up := Nat.lt_mul_div_succ (len + count - 1) some_symbol
  have more : count * ((len + count - 1) / count) ≤ count * symbolLength len count :=
    Nat.mul_le_mul_left count (le_max_left _ _)
  rw [Nat.mul_add, Nat.mul_one] at up
  omega

theorem symbolLength_pos (len count : ℕ) : 0 < symbolLength len count :=
  Nat.lt_of_lt_of_le Nat.zero_lt_one (le_max_right _ _)

theorem symbolLength_le (len count : ℕ) : symbolLength len count ≤ max len 1 := by
  refine max_le_max_right 1 ?_
  rcases Nat.eq_zero_or_pos count with rfl | pos
  · simp
  · rcases Nat.eq_zero_or_pos len with rfl | some_byte
    · rw [Nat.zero_add, Nat.div_eq_of_lt (by omega)]
    · rw [Nat.div_le_iff_le_mul_add_pred pos]
      have less := Nat.le_mul_of_pos_left len pos
      omega

section
variable {len count : ℕ} {data : Bytes}

theorem length_sourceMatrix : (sourceMatrix len count data).length = count := by
  induction count generalizing data with
  | zero => rfl
  | succ count ih => rw [sourceMatrix, length_cons, ih]

theorem sourceMatrix_size {s : Bytes} (mem : s ∈ sourceMatrix len count data) :
    s.length = len := by
  induction count generalizing data with
  | zero => cases mem
  | succ count ih =>
    rcases mem_cons.1 mem with rfl | mem
    · rw [length_rightpad, length_take]
      omega
    · exact ih mem

theorem flatten_sourceMatrix (fits : data.length ≤ count * len) :
    (sourceMatrix len count data).flatten = data.rightpad (count * len) 0 := by
  induction count generalizing data with
  | zero =>
    obtain rfl : data = [] := length_eq_zero_iff.1 (by omega)
    simp [sourceMatrix, rightpad]
  | succ count ih =>
    have total : (count + 1) * len = count * len + len := Nat.succ_mul ..
    have rest : (data.drop len).length ≤ count * len := by
      rw [length_drop]
      omega
    rw [sourceMatrix, flatten_cons, ih rest]
    by_cases long : len ≤ data.length
    · have first : (data.take len).length = len := length_take_of_le long
      have zeros : count * len - (data.length - len) = (count + 1) * len - data.length := by omega
      simp only [rightpad, first, Nat.sub_self, replicate_zero, append_nil,
        length_drop, zeros]
      rw [← append_assoc, take_append_drop]
    · have whole : data.take len = data := take_of_length_le (by omega)
      have nothing : data.drop len = [] := drop_of_length_le (by omega)
      have zeros : len - data.length + count * len = (count + 1) * len - data.length := by omega
      simp only [rightpad, whole, nothing, nil_append, length_nil, Nat.sub_zero,
        append_assoc, replicate_append_replicate, zeros]

theorem take_flatten_sourceMatrix (fits : data.length ≤ count * len) :
    (sourceMatrix len count data).flatten.take data.length = data := by
  rw [flatten_sourceMatrix fits, rightpad, take_left]

end

section
variable {α β : Type} {l : List α} {n i : ℕ}

theorem getD_map_range {f : ℕ → β} {d : β} (inside : i < n) :
    ((range n).map f).getD i d = f i := by
  simp [getD_eq_getElem?_getD, getElem?_range inside]

theorem map_range_getD {d : α} (within : n ≤ l.length) :
    (range n).map (fun i => l.getD i d) = l.take n := by
  apply ext_getElem
  · simp [within]
  · intro i low low'
    rw [length_map, length_range] at low
    rw [getElem_map, getElem_range, getElem_take,
      getD_eq_getElem _ _ (by omega)]

theorem flatten_rows {rows cols : ℕ} {d : α} (size : l.length = rows * cols) :
    ((range rows).map fun r => (range cols).map fun c =>
      l.getD (r * cols + c) d).flatten = l := by
  induction rows generalizing l with
  | zero =>
    obtain rfl : l = [] := length_eq_zero_iff.1 (by omega)
    rfl
  | succ rows ih =>
    have total : (rows + 1) * cols = rows * cols + cols := Nat.succ_mul ..
    have rest := ih (l := l.drop cols) (by rw [length_drop]; omega)
    have later (r c : ℕ) : l.getD ((r + 1) * cols + c) d = (l.drop cols).getD (r * cols + c) d := by
      rw [getD_eq_getElem?_getD, getD_eq_getElem?_getD, getElem?_drop, Nat.succ_mul]
      congr 2
      omega
    rw [range_succ_eq_map, map_cons, map_map, flatten_cons]
    simp only [Function.comp_def, Nat.succ_eq_add_one, later, rest, Nat.zero_mul, Nat.zero_add]
    rw [map_range_getD (by omega), take_append_drop]

theorem slice_flatten {blocks : List Bytes} {len r : ℕ} (size : ∀ b ∈ blocks, b.length = len)
    (inside : r < blocks.length) :
    (blocks.flatten.drop (r * len)).take len = blocks.getD r [] := by
  induction blocks generalizing r with
  | nil => cases inside
  | cons b blocks ih =>
    obtain ⟨first, rest⟩ := forall_mem_cons.1 size
    cases r with
    | zero => simp [← first]
    | succ r =>
      have skip : (r + 1) * len = b.length + r * len := by rw [first, Nat.succ_mul, Nat.add_comm]
      rw [flatten_cons, skip, ← drop_drop, drop_left, getD_cons_succ]
      exact ih rest (Nat.lt_of_succ_lt_succ inside)

theorem map_zipIdx {γ : Type} (f : ℕ → α → γ) (d : α) : l.zipIdx.map (fun p => f p.2 p.1) =
    (range l.length).map fun i => f i (l.getD i d) := by
  apply ext_getElem
  · simp
  · intro i low low'
    rw [length_map, length_zipIdx] at low
    simp [low]

end

theorem mapM_total {ε α β : Type} {f : α → Except ε β} {P : α → β → Prop} {l : List α}
    (each : ∀ a ∈ l, ∃ b, f a = .ok b ∧ P a b) :
    ∃ out, l.mapM f = .ok out ∧ Forall₂ P l out := by
  induction l with
  | nil => exact ⟨[], by rw [mapM_nil]; rfl, .nil⟩
  | cons a l ih =>
    obtain ⟨here, later⟩ := forall_mem_cons.1 each
    obtain ⟨b, first, holds⟩ := here
    obtain ⟨out, rest, all⟩ := ih later
    refine ⟨b :: out, ?_, .cons holds all⟩
    rw [mapM_cons, first]
    change l.mapM f >>= _ = _
    rw [rest]
    rfl

theorem mapM_eq_map {ε α β : Type} {f : α → Except ε β} {g : α → β} {l : List α}
    (each : ∀ a ∈ l, f a = .ok (g a)) : l.mapM f = .ok (l.map g) := by
  obtain ⟨out, ran, all⟩ := mapM_total (P := fun a b => b = g a)
    fun a mem => ⟨g a, each a mem, rfl⟩
  have same : out = l.map g := by
    clear ran
    induction all with
    | nil => rfl
    | cons first _ ih => rw [first, map_cons, ih fun a mem => each a (mem_cons_of_mem _ mem)]
  rw [ran, same]

end Tenzro.RedStuff
