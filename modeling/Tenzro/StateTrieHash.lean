import Tenzro.SortedMap
import Tenzro.Committee
import Tenzro.PairFold

set_option autoImplicit false
set_option linter.dupNamespace false

/-!
# Hash rules of the state trie

A tree key is a number of 256 bits: its first 248 bits are the stem, a path through a
binary trie, its last eight the value slot under that stem. A hash's preimage is a
tag and fields of fixed width, here one constructor for each tag.
-/
namespace Tenzro
open List Nat
namespace StateTrie

inductive HashScheme where
  | sha256
  | sha3256
  | blake3
deriving DecidableEq, Repr

def schemeFrom (v : ℕ) (schemes : List (ℕ × HashScheme)) : HashScheme :=
  ((schemes.takeWhile (fun e => e.1 ≤ v)).getLast?.map Prod.snd).getD .sha256

inductive Preimage where
  | leaf (value : List ℕ)
  | internal (left right : Digest)
  | stem (stem : ℕ) (slotsRoot : Digest)
  | slotPair (left right : Digest)
deriving DecidableEq, Repr

/-- The hash functions: each scheme's digest, and the tree key of a namespace's key. -/
class TrieHash where
  digest : HashScheme → Preimage → Digest
  treeKey : String → List ℕ → ℕ
  treeKey_lt : ∀ namespace' key, treeKey namespace' key < 2 ^ 256

@[irreducible] def stemBits : ℕ := 248

@[irreducible] def slotCount : ℕ := 256

theorem slotCount_eq : slotCount = 2 ^ 8 := by
  unfold slotCount
  rfl

theorem slotCount_pos : 0 < slotCount := by
  rw [slotCount_eq]
  decide

def emptyHash : Digest := 0

def splitTreeKey (treeKey : ℕ) : ℕ × ℕ := (treeKey / slotCount, treeKey % slotCount)

def joinTreeKey (stem slot : ℕ) : ℕ := stem * slotCount + slot

def stemBit (stem depth : ℕ) : ℕ := stem / 2 ^ (stemBits - 1 - depth) % 2

def stemPrefix (stem depth : ℕ) : ℕ := stem / 2 ^ (stemBits - depth)

/-- Whether two stems agree on their first `depth` bits. -/
def sharesPrefix (a b depth : ℕ) : Bool :=
  (range depth).all (fun d => stemBit a d = stemBit b d)

section Stems

theorem stemBit_lt (stem depth : ℕ) : stemBit stem depth < 2 := mod_lt _ (by decide)

theorem stemBit_eq_one {stem depth : ℕ} (h : stemBit stem depth ≠ 0) : stemBit stem depth = 1 := by
  have := stemBit_lt stem depth
  omega

theorem stemPrefix_succ {depth : ℕ} (stem : ℕ) (h : depth < stemBits) :
    stemPrefix stem (depth + 1) = 2 * stemPrefix stem depth + stemBit stem depth := by
  have low : stemBits - (depth + 1) = stemBits - 1 - depth := by omega
  have high : stemBits - depth = stemBits - 1 - depth + 1 := by omega
  unfold stemPrefix stemBit
  rw [low, high, pow_succ, ← Nat.div_div_eq_div_mul]
  omega

theorem stemPrefix_zero {stem : ℕ} (h : stem < 2 ^ stemBits) : stemPrefix stem 0 = 0 :=
  div_eq_of_lt h

theorem stemPrefix_full (stem : ℕ) : stemPrefix stem stemBits = stem := by
  simp [stemPrefix]

theorem stemPrefix_mono {a b : ℕ} (h : a ≤ b) (depth : ℕ) : stemPrefix a depth ≤ stemPrefix b depth :=
  Nat.div_le_div_right h

theorem lt_of_stemPrefix_lt {a b depth : ℕ} (h : stemPrefix a depth < stemPrefix b depth) : a < b := by
  by_contra no
  exact absurd (stemPrefix_mono (not_lt.1 no) depth) (not_le.2 h)

theorem stemPrefix_of_succ {a b depth : ℕ} (hd : depth < stemBits)
    (h : stemPrefix a (depth + 1) = stemPrefix b (depth + 1)) :
    stemPrefix a depth = stemPrefix b depth ∧ stemBit a depth = stemBit b depth := by
  rw [stemPrefix_succ a hd, stemPrefix_succ b hd] at h
  have := stemBit_lt a depth
  have := stemBit_lt b depth
  omega

theorem sharesPrefix_iff {a b depth : ℕ} (ha : a < 2 ^ stemBits) (hb : b < 2 ^ stemBits)
    (hd : depth ≤ stemBits) :
    sharesPrefix a b depth = true ↔ stemPrefix a depth = stemPrefix b depth := by
  induction depth with
  | zero => simp [sharesPrefix, stemPrefix_zero ha, stemPrefix_zero hb]
  | succ d ih =>
    have step : sharesPrefix a b (d + 1) = true ↔
        sharesPrefix a b d = true ∧ stemBit a d = stemBit b d := by
      simp [sharesPrefix, range_succ]
    rw [step, ih (by omega)]
    constructor
    · rintro ⟨above, bit⟩
      rw [stemPrefix_succ a hd, stemPrefix_succ b hd, above, bit]
    · exact stemPrefix_of_succ hd

theorem joinTreeKey_split (tk : ℕ) :
    joinTreeKey (splitTreeKey tk).1 (splitTreeKey tk).2 = tk := by
  unfold joinTreeKey splitTreeKey
  exact div_add_mod' tk slotCount

theorem splitTreeKey_join {stem slot : ℕ} (h : slot < slotCount) :
    splitTreeKey (joinTreeKey stem slot) = (stem, slot) := by
  unfold splitTreeKey joinTreeKey
  rw [Nat.add_comm, add_mul_div_right _ _ slotCount_pos, add_mul_mod_self_right,
    div_eq_of_lt h, mod_eq_of_lt h, Nat.zero_add]

theorem joinTreeKey_lt {s t i j : ℕ} (hi : i < slotCount) (hj : j < slotCount) :
    joinTreeKey s i < joinTreeKey t j ↔ s < t ∨ s = t ∧ i < j := by
  unfold joinTreeKey
  constructor
  · intro h
    by_contra no
    push Not at no
    obtain hst | hst := no.1.eq_or_lt
    · have := no.2 hst.symm
      subst hst
      omega
    · have := Nat.mul_le_mul_right slotCount (succ_le_of_lt hst)
      rw [succ_mul] at this
      omega
  · rintro (h | ⟨rfl, h⟩)
    · have := Nat.mul_le_mul_right slotCount (succ_le_of_lt h)
      rw [succ_mul] at this
      omega
    · omega

end Stems

/-- What a subtree holds, which decides how it combines with its sibling. -/
inductive Subtree where
  | empty
  | single (hash : Digest)
  | multi (hash : Digest)
deriving DecidableEq, Repr

def Subtree.hash : Subtree → Digest
  | .empty => emptyHash
  | .single h => h
  | .multi h => h

variable [TrieHash]

def pathOf (namespace' : String) (key : List ℕ) : ℕ × ℕ :=
  splitTreeKey (TrieHash.treeKey namespace' key)

def leafHash (scheme : HashScheme) (value : List ℕ) : Digest := TrieHash.digest scheme (.leaf value)

def slotPair (scheme : HashScheme) (left right : Digest) : Digest :=
  if left = emptyHash ∧ right = emptyHash then emptyHash
  else TrieHash.digest scheme (.slotPair left right)

def slotLevel (slots : SortedMap ℕ Digest) : List Digest :=
  (range slotCount).map (fun i => slots.getD i emptyHash)

def slotsRoot (scheme : HashScheme) (slots : SortedMap ℕ Digest) : Digest :=
  (PairFold.reduce (slotPair scheme) 8 (slotLevel slots)).headD emptyHash

def slotSiblings (scheme : HashScheme) (slots : SortedMap ℕ Digest) (slot : ℕ) : List Digest :=
  PairFold.siblings (slotPair scheme) emptyHash 8 (slotLevel slots) slot

def slotsRootFromPath (scheme : HashScheme) (slot : ℕ) (slotHash : Digest)
    (siblings : List Digest) : Digest :=
  PairFold.rootFromPath (slotPair scheme) siblings slot slotHash

def stemHash (scheme : HashScheme) (stem : ℕ) (slotsRoot : Digest) : Digest :=
  TrieHash.digest scheme (.stem stem slotsRoot)

def internalHash (scheme : HashScheme) (left right : Digest) : Digest :=
  TrieHash.digest scheme (.internal left right)

def combine (scheme : HashScheme) : Subtree → Subtree → Subtree
  | .empty, .empty => .empty
  | .single h, .empty => .single h
  | .empty, .single h => .single h
  | l, r => .multi (internalHash scheme l.hash r.hash)

/-- The subtree at `depth` of its sorted, distinct stems, each with its slots root. They share their
first `depth` bits, so `n` levels are enough for the bits left. -/
def buildSubtree (scheme : HashScheme) : ℕ → ℕ → List (ℕ × Digest) → Subtree
  | _, _, [] => .empty
  | _, _, [(stem, slots)] => .single (stemHash scheme stem slots)
  | 0, _, _ => .empty
  | n + 1, depth, stems =>
    combine scheme
      (buildSubtree scheme n (depth + 1) (stems.takeWhile (fun s => stemBit s.1 depth = 0)))
      (buildSubtree scheme n (depth + 1) (stems.dropWhile (fun s => stemBit s.1 depth = 0)))

theorem pathOf_lt (namespace' : String) (key : List ℕ) :
    (pathOf namespace' key).1 < 2 ^ stemBits ∧ (pathOf namespace' key).2 < slotCount := by
  have bound := TrieHash.treeKey_lt namespace' key
  constructor
  · unfold pathOf splitTreeKey
    rw [Nat.div_lt_iff_lt_mul slotCount_pos, slotCount_eq, ← pow_add]
    have bits : stemBits + 8 = 256 := by
      unfold stemBits
      rfl
    rwa [bits]
  · exact mod_lt _ slotCount_pos

omit [TrieHash] in
theorem length_slotLevel (slots : SortedMap ℕ Digest) : (slotLevel slots).length = 2 ^ 8 := by
  simp [slotLevel, slotCount_eq]

omit [TrieHash] in
theorem getElem?_slotLevel (slots : SortedMap ℕ Digest) {i : ℕ} (hi : i < slotCount) :
    (slotLevel slots)[i]? = some (slots.getD i emptyHash) := by
  simp [slotLevel, hi]

theorem reduce_slotLevel (scheme : HashScheme) (slots : SortedMap ℕ Digest) :
    PairFold.reduce (slotPair scheme) 8 (slotLevel slots) = [slotsRoot scheme slots] := by
  have one := PairFold.length_reduce (slotPair scheme) (length_slotLevel slots)
  obtain ⟨x, hx⟩ := length_eq_one_iff.1 one
  rw [slotsRoot, hx]
  rfl

/-- A hash that gives no two preimages one digest, and none the empty hash. -/
structure Ideal (scheme : HashScheme) : Prop where
  injective : Function.Injective (TrieHash.digest scheme)
  nonempty : ∀ x, TrieHash.digest scheme x ≠ emptyHash

namespace Ideal
variable {scheme : HashScheme} (ideal : Ideal scheme)
include ideal

theorem slotPair_eq_empty {a b : Digest} (h : slotPair scheme a b = emptyHash) :
    a = emptyHash ∧ b = emptyHash := by
  unfold slotPair at h
  split_ifs at h with both
  · exact both
  · exact absurd h (ideal.nonempty _)

theorem slotPair_injective : Function.Injective2 (slotPair scheme) := by
  intro a a' b b' h
  by_cases empty : a = emptyHash ∧ b = emptyHash
  · have other : slotPair scheme a' b' = emptyHash := by
      rw [← h]
      simp [slotPair, empty]
    obtain ⟨ha, hb⟩ := ideal.slotPair_eq_empty other
    exact ⟨empty.1.trans ha.symm, empty.2.trans hb.symm⟩
  · by_cases empty' : a' = emptyHash ∧ b' = emptyHash
    · have other : slotPair scheme a b = emptyHash := by
        rw [h]
        simp [slotPair, empty']
      exact absurd (ideal.slotPair_eq_empty other) empty
    · simp only [slotPair, empty, empty', if_false] at h
      have same := ideal.injective h
      simpa using same

theorem slotsRoot_empty {slots : SortedMap ℕ Digest} (h : slotsRoot scheme slots = emptyHash)
    {i : ℕ} (hi : i < slotCount) : slots.getD i emptyHash = emptyHash := by
  have blank : PairFold.reduce (slotPair scheme) 8 (slotLevel .empty) = [emptyHash] := by
    have none : ∀ (k : ℕ), PairFold.reduce (slotPair scheme) k (replicate (2 ^ k) emptyHash) =
        [emptyHash] := by
      intro k
      induction k with
      | zero => rfl
      | succ k ih =>
        rw [pow_succ, mul_two, replicate_add, PairFold.reduce_append _ (by simp) (by simp), ih]
        simp [PairFold.pairUp, slotPair]
    have level : slotLevel (.empty : SortedMap ℕ Digest) = replicate (2 ^ 8) emptyHash := by
      rw [← slotCount_eq]
      refine eq_replicate_iff.2 ⟨by simp [slotLevel], ?_⟩
      intro x hx
      obtain ⟨i, -, rfl⟩ := mem_map.1 hx
      rfl
    rw [level, none]
  have same : slotLevel slots = slotLevel .empty := by
    refine PairFold.reduce_injective ideal.slotPair_injective (length_slotLevel _)
      (length_slotLevel _) ?_
    rw [reduce_slotLevel, h, blank]
  have here := congrArg (fun l => l[i]?) same
  simp only [getElem?_slotLevel _ hi, Option.some.injEq] at here
  rw [here]
  rfl

end Ideal

end StateTrie

end Tenzro

namespace Tenzro
open Nat
namespace StateTrie

def Preimage.code : Preimage → ℕ
  | .leaf value => pair 0 (Encodable.encode value)
  | .internal left right => pair 1 (pair left right)
  | .stem s root => pair 2 (pair s root)
  | .slotPair left right => pair 3 (pair left right)

theorem Preimage.code_injective : Function.Injective Preimage.code := by
  intro a b h
  cases a <;> cases b <;> simp_all [Preimage.code, pair_eq_pair]

@[reducible] def encodedHash : TrieHash where
  digest _ x := x.code + 1
  treeKey _ key := key.headD 0 % 2 ^ 256
  treeKey_lt _ _ := mod_lt _ (Nat.two_pow_pos _)

theorem ideal_encodedHash (scheme : HashScheme) : @Ideal encodedHash scheme := by
  refine @Ideal.mk encodedHash scheme ?_ ?_
  · intro a b h
    exact Preimage.code_injective (Nat.succ.inj h)
  · intro x
    exact succ_ne_zero _

end StateTrie

end Tenzro
