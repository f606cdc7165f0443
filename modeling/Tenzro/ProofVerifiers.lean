import Tenzro.ByteCodec
import Tenzro.StateTrieHash

set_option autoImplicit false
set_option linter.dupNamespace false

/-!
# Three verifiers of state proofs

The node checks a state proof as a value; the finality verifier and the contract of other chains
each read it from its encoding. Here words and stems are byte strings, as the three hash them.
-/
namespace Tenzro.ProofVerifiers
open ByteCodec List
open StateTrie (HashScheme)

abbrev Fixed (n : ℕ) := { b : Bytes // b.length = n }

abbrev Word := Fixed 32

abbrev Stem := Fixed 31

class SchemeHash where
  digest : HashScheme → Bytes → Word

def sha [SchemeHash] (b : Bytes) : Word := SchemeHash.digest .sha256 b

theorem length_empty : (replicate 32 (0 : UInt8)).length = 32 := length_replicate

def empty : Word := ⟨replicate 32 0, length_empty⟩

def stemBits : ℕ := 31 * 8

def utf8 (s : String) : Bytes := s.toList.flatMap String.utf8EncodeChar

def treeKeyDomain : Bytes := utf8 "tenzro.state-trie.key"

/-! ### The node -/

namespace Storage

inductive ProofTerminal where
  | empty
  | otherStem (stem : Stem) (slotsRoot : Word)
  | stem (slotSiblings : { l : List Word // l.length = 8 })

structure StateProof where
  siblings : List Word
  terminal : ProofTerminal

inductive ProofError where
  | tooDeep (levels : ℕ)
  | presenceMismatch
  | stemOffPath
  | rootMismatch (computed expected : String)
deriving DecidableEq, Repr

def flat (words : List Word) : Bytes := words.flatMap Subtype.val

def ProofTerminal.encode : ProofTerminal → Bytes
  | empty => [0]
  | otherStem other slotsRoot => 1 :: (other.1 ++ slotsRoot.1)
  | stem slotSiblings => 2 :: flat slotSiblings.1

def StateProof.encode (p : StateProof) : Bytes :=
  beBytes 2 p.siblings.length ++ flat p.siblings ++ p.terminal.encode

def stemBit (stem : Stem) (depth : ℕ) : UInt8 :=
  (stem.1.getD (depth / 8) 0 >>> UInt8.ofNat (7 - depth % 8)) &&& 1

def sharesPrefix (a b : Stem) (depth : ℕ) : Bool :=
  (range depth).all fun d => stemBit a d = stemBit b d

def splitTreeKey (tk : Word) : Stem × UInt8 :=
  (⟨tk.1.take 31, by rw [length_take, tk.2]; rfl⟩, tk.1.getD 31 0)

section
variable [SchemeHash] (scheme : HashScheme)

def treeKey (ns : String) (key : Bytes) : Word :=
  sha (treeKeyDomain ++ leBytes 2 (utf8 ns).length ++ utf8 ns ++ key)

def leafHash (value : Bytes) : Word := SchemeHash.digest scheme (0 :: value)

def slotPair (left right : Word) : Word :=
  if left = empty ∧ right = empty then empty
  else SchemeHash.digest scheme (3 :: (left.1 ++ right.1))

def stemHash (stem : Stem) (slotsRoot : Word) : Word :=
  SchemeHash.digest scheme (2 :: (stem.1 ++ slotsRoot.1))

def internalHash (left right : Word) : Word :=
  SchemeHash.digest scheme (1 :: (left.1 ++ right.1))

def slotsRootFromPath (slot : UInt8) (slotHash : Word) (siblings : List Word) : Word :=
  (siblings.foldl (fun (acc, index) sibling =>
    (if index % 2 = 0 then slotPair scheme acc sibling else slotPair scheme sibling acc,
      index / 2)) (slotHash, slot.toNat)).1

def verifyUnder (root tk : Word) (value : Option Bytes) (proof : StateProof) :
    Except ProofError Unit := do
  let depth := proof.siblings.length
  if stemBits < depth then .error (.tooDeep depth)
  else
    let (stem, slot) := splitTreeKey tk
    let start ← match proof.terminal with
      | .empty => if value.isSome then .error .presenceMismatch else .ok empty
      | .otherStem other slotsRoot =>
        if value.isSome then .error .presenceMismatch
        else if other = stem ∨ !sharesPrefix other stem depth then .error .stemOffPath
        else .ok (stemHash scheme other slotsRoot)
      | .stem slotSiblings =>
        let slotHash := (value.map (leafHash scheme)).getD empty
        let slots := slotsRootFromPath scheme slot slotHash slotSiblings.1
        if slots = empty then .error .presenceMismatch else .ok (stemHash scheme stem slots)
    let acc := (range depth).reverse.foldl (fun acc d =>
      let sibling := proof.siblings.getD d empty
      if stemBit stem d = 0 then internalHash scheme acc sibling
      else internalHash scheme sibling acc) start
    if acc ≠ root then .error (.rootMismatch (hexEncode acc.1) (hexEncode root.1)) else .ok ()

def verifyStateProof (root : Word) (ns : String) (key : Bytes) (value : Option Bytes)
    (proof : StateProof) : Except ProofError Unit :=
  verifyUnder scheme root (treeKey ns key) value proof

end

def systemAddress : Bytes := replicate 20 0xff

def storageKey (address slot : Bytes) : Bytes :=
  utf8 s!"storage:{hexEncode address}:{hexEncode slot}"

end Storage

/-! ### The finality verifier -/

namespace FinalityVerifier

def hexDigits : Bytes := utf8 "0123456789abcdef"

def hexPair (byte : UInt8) : Bytes :=
  [hexDigits.getD (byte >>> 4).toNat 0, hexDigits.getD (byte &&& 15).toNat 0]

def bit (stem : Bytes) (depth : ℕ) : UInt8 :=
  (stem.getD (depth / 8) 0 >>> UInt8.ofNat (7 - depth % 8)) &&& 1

def word (b : Bytes) (i : ℕ) : Option Word :=
  if fits : i + 32 ≤ b.length then
    some ⟨(b.drop i).take 32, by rw [length_take, length_drop]; omega⟩
  else none

section
variable [SchemeHash]

def systemSlotTreeKey (lead : Bytes) (id : Word) : Word :=
  let idHex := id.1.flatMap hexPair
  sha (treeKeyDomain ++ leBytes 2 5 ++ utf8 "state" ++ utf8 "storage:" ++
    replicate 40 (UInt8.ofNat 102) ++ utf8 ":" ++ [lead, idHex].flatMap fun part =>
      part.flatMap hexPair)

def slotPair (l r : Word) : Word :=
  if l = empty ∧ r = empty then empty else sha (3 :: (l.1 ++ r.1))

def start (tk : Word) (value : Option Bytes) (depth : ℕ) (tag : UInt8) (body : Bytes) :
    Option Word :=
  let stem := tk.1.take 31
  if tag = 0 ∧ body = [] then
    if value.isSome then none else some empty
  else if tag = 1 ∧ body.length = 31 + 32 then
    let other := body.take 31
    if value.isSome ∨ other = stem ∨
        !(range depth).all (fun d => bit other d = bit stem d) then none
    else some (sha (2 :: (other ++ body.drop 31)))
  else if tag = 2 ∧ body.length = 32 * 8 then
    let s := ((range 8).foldl (fun (s, index) i =>
      let sib := (word body (32 * i)).getD empty
      (if index % 2 = 0 then slotPair s sib else slotPair sib s, index / 2))
      ((value.map fun v => sha (0 :: v)).getD empty, (tk.1.getD 31 0).toNat)).1
    if s = empty then none else some (sha (2 :: (stem ++ s.1)))
  else none

def verifyAt (root tk : Word) (value : Option Bytes) (proof : Bytes) : Bool :=
  if proof.length < 2 then false
  else
    let depth := ofBeBytes (proof.take 2)
    if stemBits < depth then false
    else
      match proof.drop (2 + 32 * depth) with
      | [] => false
      | tag :: body =>
        match start tk value depth tag body with
        | none => false
        | some first =>
          let acc := (range depth).reverse.foldl (fun acc d =>
            let sib := (word proof (2 + 32 * d)).getD empty
            if bit (tk.1.take 31) d = 0 then sha (1 :: (acc.1 ++ sib.1))
            else sha (1 :: (sib.1 ++ acc.1))) first
          acc = root

end

end FinalityVerifier

/-! ### The contract -/

namespace TenzroStateProof

/-- The word of memory from byte `i` of an array. Past the array's end memory is other; no read
goes there. -/
def word (b : Bytes) (i : ℕ) : Word :=
  ⟨(b.drop i ++ replicate 32 0).take 32, by
    rw [length_take, length_append, length_replicate]; omega⟩

def bit (stem : Word) (depth : ℕ) : ℕ :=
  (stem.1.getD (depth / 8) 0).toNat / 2 ^ (7 - depth % 8) % 2

def cleared (w : Word) : Word :=
  ⟨w.1.take 31 ++ [0], by rw [length_append, length_take, w.2]; rfl⟩

section
variable [SchemeHash]

def pair (l r : Word) : Word :=
  if l = empty ∧ r = empty then empty else sha (3 :: (l.1 ++ r.1))

def start (tk : Word) (present : Bool) (value proof : Bytes) (depth : ℕ) : Option Word :=
  let t := 2 + 32 * depth
  let tag := proof.getD t 0
  let bodyLen := proof.length - t - 1
  let stem := cleared tk
  if tag = 0 then
    if bodyLen ≠ 0 ∨ present then none else some empty
  else if tag = 1 then
    if bodyLen ≠ 63 ∨ present then none
    else
      let other := cleared (word proof (t + 1))
      if other = stem then none
      else if (range depth).any (fun d => bit other d ≠ bit stem d) then none
      else some (sha (2 :: (other.1.take 31 ++ (word proof (t + 32)).1)))
  else if tag = 2 then
    if bodyLen ≠ 256 then none
    else
      let s := ((range 8).foldl (fun (s, index) i =>
        let sib := word proof (t + 1 + 32 * i)
        (if index % 2 = 0 then pair s sib else pair sib s, index / 2))
        (if present then sha (0 :: value) else empty, (tk.1.getD 31 0).toNat)).1
      if s = empty then none else some (sha (2 :: (stem.1.take 31 ++ s.1)))
  else none

def verifyAt (root tk : Word) (present : Bool) (value proof : Bytes) : Bool :=
  if proof.length < 3 then false
  else
    let depth := (proof.getD 0 0).toNat * 256 + (proof.getD 1 0).toNat
    if 248 < depth then false
    else if proof.length ≤ 2 + 32 * depth then false
    else
      match start tk present value proof depth with
      | none => false
      | some first =>
        let stem := cleared tk
        let acc := (range depth).reverse.foldl (fun acc d =>
          let sib := word proof (2 + 32 * d)
          if bit stem d = 0 then sha (1 :: (acc.1 ++ sib.1)) else sha (1 :: (sib.1 ++ acc.1))) first
        acc = root

end

end TenzroStateProof

end Tenzro.ProofVerifiers
