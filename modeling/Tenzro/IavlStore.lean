import Tenzro.HashTree
import Tenzro.Tendermint

set_option autoImplicit false
set_option linter.dupNamespace false

/-!
# The stores of an IBC chain

An IAVL tree of entries with its nodes' heights, sizes and versions, the
multistore that commits to the root of each store, and the existence proofs
both serve.
-/
namespace Tenzro.Bridge
open ByteCodec Outcome Protobuf

namespace Tendermint

def maxPath : ℕ := 64

/-- The stores a proof goes through. -/
inductive Spec where
  | iavl
  | tendermint
deriving DecidableEq, Repr

/-- The integer a zigzag varint stands for. -/
def unzigzag (v : ℕ) : ℤ := if v % 2 = 0 then (v / 2 : ℕ) else -(v / 2 : ℕ) - 1

def zigzagFrom : ℕ → ℕ → ℕ → Read ℤ
  | 0, _, _ => fail (refusal "varint too long")
  | turns + 1, i, v => do
    let b ← readBe 1
    let v := (v + b % 128 * 2 ^ (7 * i)) % 2 ^ 64
    if b < 128 then
      require (¬ (b = 0 ∧ 0 < i)) (refusal "non-minimal varint")
      return unzigzag v
    else zigzagFrom turns (i + 1) v

def zigzag : Read ℤ := zigzagFrom 10 0 0

def nodeStart : Read (ℤ × ℤ × ℤ) := do
  let height ← zigzag
  let size ← zigzag
  let version ← zigzag
  return (height, size, version)

/-- The bytes before and after the child's hash. -/
abbrev PathStep := Bytes × Bytes

def checkInner (spec : Spec) (layer : ℤ) (step : PathStep) : Except String Unit :=
  match spec with
  | .iavl => do
    let ((height, size, version), r) ← nodeStart ⟨0, step.1⟩
    ensure (layer ≤ height ∧ 2 ≤ size ∧ 1 ≤ version) (refusal "IAVL inner node")
    ensure ((r.rest.length = 1 ∧ step.2.length = 33 ∧ r.rest.head? = some 32 ∧
        step.2.head? = some 32) ∨
      (r.rest.length = 34 ∧ step.2.length = 0 ∧ r.rest.head? = some 32 ∧ r.rest[33]? = some 32))
      (refusal "IAVL inner node children")
  | .tendermint =>
    ensure (step.1.head? = some 1 ∧ ((step.1.length = 1 ∧ step.2.length = 32) ∨
      (step.1.length = 33 ∧ step.2.length = 0))) (refusal "multistore inner node")

structure ExistenceProof where
  key : Bytes
  value : Bytes
  leafPrefix : Bytes
  path : List PathStep
deriving DecidableEq, Repr

namespace ExistenceProof

def read : Read ExistenceProof := do
  let key ← readBeBytes 1024
  let value ← readBeBytes 1024
  let leafPrefix ← readBeBytes 64
  let n ← readBe 1
  require (n ≤ maxPath) (refusal "ICS-23 path too long")
  let path ← repeated (do
    let before ← readBeBytes 128
    let after ← readBeBytes 128
    return (before, after)) n
  return { key, value, leafPrefix, path }

def write (p : ExistenceProof) : Bytes :=
  writeBeBytes p.key ++ writeBeBytes p.value ++ writeBeBytes p.leafPrefix ++
    beBytes 1 p.path.length ++ p.path.flatMap fun s => writeBeBytes s.1 ++ writeBeBytes s.2

def checkLeaf (p : ExistenceProof) (spec : Spec) : Except String Unit :=
  match spec with
  | .iavl => do
    let ((height, size, version), r) ← nodeStart ⟨0, p.leafPrefix⟩
    ensure (height = 0 ∧ size = 1 ∧ 1 ≤ version) (refusal "IAVL leaf prefix")
    ensure (r.rest = []) (refusal "IAVL leaf prefix")
  | .tendermint => ensure (p.leafPrefix = [0]) (refusal "multistore leaf prefix")

section
variable [RouteCrypto]

def leaf (p : ExistenceProof) : Bytes :=
  p.leafPrefix ++ (uvarint p.key.length ++ (p.key ++ (uvarint 32 ++ sha256 p.value)))

def climb (spec : Spec) : ℕ → List PathStep → Bytes → Except String Bytes
  | _, [], node => .ok node
  | layer, step :: path, node => do
    checkInner spec layer step
    climb spec (layer + 1) path (sha256 (step.1 ++ (node ++ step.2)))

def root (p : ExistenceProof) (spec : Spec) : Except String Bytes := do
  p.checkLeaf spec
  climb spec 1 p.path (sha256 p.leaf)

end

end ExistenceProof

/-! ### Neighbours -/

def iavlSide (step : PathStep) : ℕ := if step.2 = [] then 1 else 0

def rightmost (path : List PathStep) : Bool := path.all fun s => iavlSide s = 1

def leftmost (path : List PathStep) : Bool := path.all fun s => iavlSide s = 0

def partedRight : List PathStep → List PathStep → Bool
  | l :: left, r :: right =>
    if l = r then partedRight left right
    else iavlSide l = 0 && iavlSide r = 1 && rightmost left && leftmost right
  | [], _ => false
  | _ :: _, [] => false

/-- Whether two paths from leaf to root end at adjacent leaves. -/
def leftNeighbour (left right : List PathStep) : Bool := partedRight left.reverse right.reverse

inductive StoreEntryProof where
  | present (p : ExistenceProof)
  | absent (key : Bytes) (left right : Option ExistenceProof)
deriving DecidableEq, Repr

/-- A proof of one entry of the route's store at a height of its chain. -/
structure EntryProof where
  height : ℕ
  entry : StoreEntryProof
  store : ExistenceProof
deriving DecidableEq, Repr

namespace EntryProof

def writeSide : Option ExistenceProof → Bytes
  | some p => beBytes 1 1 ++ p.write
  | none => beBytes 1 0

def encode (p : EntryProof) : Bytes :=
  beBytes 8 p.height ++ (match p.entry with
    | .present e => beBytes 1 0 ++ e.write
    | .absent key left right =>
      beBytes 1 1 ++ (writeBeBytes key ++ (writeSide left ++ writeSide right))) ++ p.store.write

def readSide : Read (Option ExistenceProof) := do
  let flag ← readBe 1
  if flag = 0 then return none
  else if flag = 1 then return some (← ExistenceProof.read)
  else fail (refusal "a neighbour flag is 0 or 1")

def readEntry : Read StoreEntryProof := do
  let kind ← readBe 1
  if kind = 0 then return .present (← ExistenceProof.read)
  else if kind = 1 then
    let key ← readBeBytes 1024
    let left ← readSide
    let right ← readSide
    return .absent key left right
  else fail (refusal "unknown entry proof kind")

def decode (b : Bytes) : Except String EntryProof :=
  decodeWith (do
    let height ← readBe 8
    let entry ← readEntry
    let store ← ExistenceProof.read
    return { height, entry, store }) b

end EntryProof

section
variable [RouteCrypto]

def storeName (route : BridgeRoute) : Bytes := route.ramp.takeWhile (· ≠ 0)

def checkStoreRoot (route : BridgeRoute) (cs : ConsensusState) (storeRoot : Bytes)
    (store : ExistenceProof) : Except String Unit := do
  ensure (store.key = storeName route ∧ store.value = storeRoot)
    (refusal "the multistore proof is not of the route's store root")
  let r ← store.root .tendermint
  ensure (r = cs.appHash) (refusal "the proof does not reach the header's app hash")

def enclose (key : Bytes) : Option ExistenceProof → Option ExistenceProof → Bool
  | some l, some r => l.key < key && key < r.key && leftNeighbour l.path r.path
  | some l, none => l.key < key && rightmost l.path
  | none, some r => key < r.key && leftmost r.path
  | none, none => false

def StoreEntryProof.root (key : Bytes) : StoreEntryProof → Option Bytes → Except String Bytes
  | .present e, some v => do
    ensure (e.key = key ∧ e.value = v) (refusal "the IAVL proof is not of the expected entry")
    e.root .iavl
  | .absent named left right, none => do
    ensure (named = key) (refusal "the absence proof is for another key")
    let roots ← (left.toList ++ right.toList).mapM fun n => n.root .iavl
    match roots with
    | [] => refuse (refusal "an absence proof needs a neighbour")
    | root :: others => do
      ensure (∀ r ∈ root :: others, r = root) (refusal "the neighbours prove different roots")
      ensure (enclose key left right = true) (refusal "the neighbours do not enclose the key")
      return root
  | _, _ => refuse (refusal "the proof does not show what is claimed")

def verifyStoreEntry (s : RouteState) (route : BridgeRoute) (key : Bytes) (value : Option Bytes)
    (proof : Bytes) : Except String ℤ :=
  match route.lightClient with
  | none => refuse (refusal "the route has no light client")
  | some anchor => do
    let a ← anchorParts anchor
    let _ ← checkNotExpired s route anchor a
    let p ← EntryProof.decode proof
    let root ← p.entry.root key value
    let cs ← consensusAt s route anchor p.height s!"no verified header at height {p.height}"
    checkStoreRoot route cs root p.store
    return cs.timeNs

end

end Tendermint

open HashTree

namespace Tendermint

structure IavlLeaf where
  key : Bytes
  value : Bytes
  version : ℕ
deriving DecidableEq, Repr

abbrev IavlTree := Tree IavlLeaf ℕ

namespace IavlTree

def height : IavlTree → ℕ
  | .leaf _ => 0
  | .node _ l r => max (height l) (height r) + 1

def size : IavlTree → ℕ
  | .leaf _ => 1
  | .node _ l r => size l + size r

def version : IavlTree → ℕ
  | .leaf a => a.version
  | .node v _ _ => v

def Fits : IavlTree → Prop
  | .leaf a => 1 ≤ a.version ∧ a.version < 2 ^ 63
  | .node v l r => (1 ≤ v ∧ v < 2 ^ 63 ∧ size l + size r < 2 ^ 63) ∧ Fits l ∧ Fits r

def Fits.decidable : (t : IavlTree) → Decidable (Fits t)
  | .leaf a => inferInstanceAs (Decidable (1 ≤ a.version ∧ a.version < 2 ^ 63))
  | .node v l r =>
    have := Fits.decidable l
    have := Fits.decidable r
    inferInstanceAs (Decidable ((1 ≤ v ∧ v < 2 ^ 63 ∧ size l + size r < 2 ^ 63) ∧ Fits l ∧ Fits r))

instance (t : IavlTree) : Decidable (Fits t) := Fits.decidable t

end IavlTree

def writeStart (height size version : ℕ) : Bytes :=
  uvarint (2 * height) ++ (uvarint (2 * size) ++ uvarint (2 * version))

/-- One store's root in the multistore. -/
structure StoreRoot where
  name : Bytes
  root : Bytes
deriving DecidableEq, Repr

abbrev Multistore := Tree StoreRoot Unit

section
variable [RouteCrypto]

def writeEntry (key value : Bytes) : Bytes :=
  uvarint key.length ++ (key ++ (uvarint 32 ++ sha256 value))

def iavlCode : Code IavlLeaf ℕ where
  hash := sha256
  leaf a := writeStart 0 1 a.version ++ writeEntry a.key a.value
  before v l r := writeStart (IavlTree.height (.node v l r)) (IavlTree.size (.node v l r)) v ++ [32]
  between := [32]

def multistoreCode : Code StoreRoot Unit where
  hash := sha256
  leaf a := 0 :: writeEntry a.name a.root
  before _ _ _ := [1]
  between := []

def Multistore.hashed (m : Multistore) : List Bytes :=
  m.subtrees.map multistoreCode.written ++ m.leaves.map StoreRoot.root

/-! ### IAVL stores -/

/-- A store with its keys in order; an empty one has no tree. -/
structure IavlStore where
  tree : Option IavlTree
  ordered : ∀ t ∈ tree, (t.leaves.map IavlLeaf.key).Pairwise (· < ·)
  fits : ∀ t ∈ tree, IavlTree.Fits t

namespace IavlStore
variable (s : IavlStore)

def leaves : List IavlLeaf := s.tree.elim [] Tree.leaves

def lookup (key : Bytes) : Option Bytes :=
  (s.leaves.find? fun a => a.key = key).map IavlLeaf.value

def root : Bytes := s.tree.elim (sha256 []) iavlCode.root

def hashed : List Bytes :=
  s.tree.elim [[]] (fun t => t.subtrees.map iavlCode.written) ++ s.leaves.map IavlLeaf.value

end IavlStore

/-! ### The proofs the stores serve -/

def iavlProof (x : IavlLeaf × List Step) : ExistenceProof where
  key := x.1.key
  value := x.1.value
  leafPrefix := writeStart 0 1 x.1.version
  path := x.2.reverse

def multistoreProof (x : StoreRoot × List Step) : ExistenceProof where
  key := x.1.name
  value := x.1.root
  leafPrefix := [0]
  path := x.2.reverse

def IavlTree.proofs (t : IavlTree) : List ExistenceProof := (iavlCode.paths t).map iavlProof

def IavlTree.leftOf (t : IavlTree) (key : Bytes) : Option ExistenceProof :=
  ((IavlTree.proofs t).filter fun p => p.key < key).getLast?

def IavlTree.rightOf (t : IavlTree) (key : Bytes) : Option ExistenceProof :=
  ((IavlTree.proofs t).filter fun p => key < p.key).head?

end

end Tendermint
end Tenzro.Bridge
