import Tenzro.HashTree
import Tenzro.Tendermint

set_option autoImplicit false

/-!
# What the hashes and signed bytes of a Tendermint chain bind

Unless two strings collide, a Merkle root has one list of items below it, a header hash one
header and a validator set hash one set; and the bytes of a precommit name one height and block.
-/
namespace Tenzro.Bridge
open ByteCodec Outcome Protobuf HashTree List

namespace Tendermint

/-! ### Merkle roots -/

section
variable [RouteCrypto]

def merkleStrings : List Bytes → List Bytes
  | [] => [[]]
  | [a] => [0 :: a]
  | a :: b :: l =>
    let items := a :: b :: l
    let k := splitPoint items.length
    (1 :: (merkleRoot (items.take k) ++ merkleRoot (items.drop k))) ::
      (merkleStrings (items.take k) ++ merkleStrings (items.drop k))
termination_by items => items.length
decreasing_by
  all_goals
    have bounds := splitPoint_bounds (show 2 ≤ (a :: b :: l).length by simp)
    simp only [length_take, length_drop]
    omega

theorem merkleRoot_hash (items : List Bytes) :
    ∃ x rest, merkleStrings items = x :: rest ∧ merkleRoot items = sha256 x := by
  match items with
  | [] => exact ⟨[], [], by rw [merkleStrings], by rw [merkleRoot]⟩
  | [a] => exact ⟨0 :: a, [], by rw [merkleStrings], by rw [merkleRoot]⟩
  | a :: b :: l => exact ⟨_, _, by rw [merkleStrings], by rw [merkleRoot]⟩

theorem length_merkleRoot (items : List Bytes) : (merkleRoot items).length = 32 := by
  obtain ⟨x, -, -, root⟩ := merkleRoot_hash items
  rw [root]
  exact RouteCrypto.length_sha256 x

theorem merkleStrings_many {items : List Bytes} (many : 2 ≤ items.length) :
    merkleStrings items = (1 :: (merkleRoot (items.take (splitPoint items.length)) ++
      merkleRoot (items.drop (splitPoint items.length)))) ::
      (merkleStrings (items.take (splitPoint items.length)) ++
        merkleStrings (items.drop (splitPoint items.length))) := by
  match items, many with
  | a :: b :: l, _ => rw [merkleStrings]

theorem merkleStrings_first (items : List Bytes) : ∃ rest,
    (items = [] ∧ merkleStrings items = [] :: rest) ∨
    (∃ a, items = [a] ∧ merkleStrings items = (0 :: a) :: rest) ∨
    (2 ≤ items.length ∧ ∃ x, merkleStrings items = (1 :: x) :: rest) := by
  match items with
  | [] => exact ⟨[], .inl ⟨rfl, by rw [merkleStrings]⟩⟩
  | [a] => exact ⟨[], .inr (.inl ⟨a, rfl, by rw [merkleStrings]⟩)⟩
  | a :: b :: l => exact ⟨_, .inr (.inr ⟨by simp, _, by rw [merkleStrings]⟩)⟩

theorem merkleRoot_injective {xs ys : List Bytes}
    (apart : Apart sha256 (merkleStrings xs) (merkleStrings ys))
    (same : merkleRoot xs = merkleRoot ys) : xs = ys := by
  induction h : xs.length using Nat.strong_induction_on generalizing xs ys with
  | _ n ih =>
    obtain ⟨x, rest, first, root⟩ := merkleRoot_hash xs
    obtain ⟨y, rest', first', root'⟩ := merkleRoot_hash ys
    have top : x = y := apart x (first ▸ mem_cons_self) y (first' ▸ mem_cons_self)
      (root.symm.trans (same.trans root'))
    obtain ⟨_, shape⟩ := merkleStrings_first xs
    obtain ⟨_, shape'⟩ := merkleStrings_first ys
    rw [first] at shape
    rw [first', ← top] at shape'
    rcases shape with ⟨rfl, eq⟩ | ⟨a, rfl, eq⟩ | ⟨many, u, eq⟩ <;>
      rcases shape' with ⟨rfl, eq'⟩ | ⟨b, rfl, eq'⟩ | ⟨many', v, eq'⟩ <;>
      simp only [List.cons.injEq] at eq eq'
    · rfl
    · exact absurd (eq.1.symm.trans eq'.1) (by simp)
    · exact absurd (eq.1.symm.trans eq'.1) (by simp)
    · exact absurd (eq.1.symm.trans eq'.1) (by simp)
    · have leaf := eq.1.symm.trans eq'.1
      rw [(List.cons.inj leaf).2]
    · exact absurd (eq.1.symm.trans eq'.1) (by simp)
    · exact absurd (eq.1.symm.trans eq'.1) (by simp)
    · exact absurd (eq.1.symm.trans eq'.1) (by simp)
    · rw [merkleStrings_many many] at first apart
      rw [merkleStrings_many many'] at first' apart
      rw [← (List.cons.inj first).1, ← (List.cons.inj first').1] at top
      obtain ⟨left, right⟩ := append_inj (List.cons.inj top).2
        ((length_merkleRoot _).trans (length_merkleRoot _).symm)
      obtain ⟨pos, less⟩ := splitPoint_bounds many
      have front := ih _ (by rw [length_take]; omega) (fun x hx y hy => apart x
        (mem_cons_of_mem _ (mem_append_left _ hx)) y
        (mem_cons_of_mem _ (mem_append_left _ hy))) left rfl
      have back := ih _ (by rw [length_drop]; omega) (fun x hx y hy => apart x
        (mem_cons_of_mem _ (mem_append_right _ hx)) y
        (mem_cons_of_mem _ (mem_append_right _ hy))) right rfl
      rw [← take_append_drop (splitPoint xs.length) xs, front, back, take_append_drop]

end

/-! ### Items -/

section
variable {field v w : ℕ} {a b : Bytes}

theorem past_field (low : field < 16) {n : ℕ} (later : n < field * 8) (v : ℕ) :
    Past n (pbUint field v) := by
  have past := Past.pbUint low later (Past.nil n) v
  rwa [append_nil] at past

theorem pbUint_injective (low : field < 16) (same : pbUint field v = pbUint field w) : v = w := by
  have h : pbUint field v ++ [] = pbUint field w ++ [] := by rw [same]
  exact (pbUint_append_inj low (Past.nil _) (Past.nil _) h).1

theorem pbBytes_injective (low : field < 16) (same : pbBytes field a = pbBytes field b) :
    a = b := by
  have h : pbBytes field a ++ [] = pbBytes field b ++ [] := by rw [same]
  exact (pbBytes_append_inj low (Past.nil _) (Past.nil _) h).1

theorem pbMsg_injective (same : pbMsg field a = pbMsg field b) : a = b := by
  have h : pbMsg field a ++ [] = pbMsg field b ++ [] := by rw [same]
  exact (pbMsg_append_inj h).1

end

theorem twoUints_injective {a b c d : ℕ}
    (same : pbUint 1 a ++ pbUint 2 b = pbUint 1 c ++ pbUint 2 d) : a = c ∧ b = d := by
  obtain ⟨first, rest⟩ := pbUint_append_inj (by omega) (past_field (by omega) (by omega) b)
    (past_field (by omega) (by omega) d) same
  exact ⟨first, pbUint_injective (by omega) rest⟩

theorem blockId_injective {a b p q : Bytes} {n m : ℕ} (same : blockId a n p = blockId b m q) :
    a = b ∧ n = m ∧ p = q := by
  have past (c : Bytes) : Past (1 * 8 + 2) (pbMsg 2 c) := by
    have past := Past.pbMsg (x := []) (show 2 < 16 by omega) (show 1 * 8 + 2 < 2 * 8 + 2 by omega) c
    rwa [append_nil] at past
  have past_hash (c : Bytes) : Past (1 * 8) (pbBytes 2 c) := by
    have past := Past.pbBytes (show 2 < 16 by omega) (show 1 * 8 < 2 * 8 + 2 by omega)
      (Past.nil (1 * 8)) c
    rwa [append_nil] at past
  obtain ⟨hash, parts⟩ := pbBytes_append_inj (by omega) (past _) (past _) same
  obtain ⟨total, rest⟩ := pbUint_append_inj (by omega) (past_hash p) (past_hash q)
    (pbMsg_injective parts)
  exact ⟨hash, total, pbBytes_injective (by omega) rest⟩

theorem validatorBytes_injective : Function.Injective validatorBytes := by
  rintro ⟨key, power⟩ ⟨key', power'⟩ same
  obtain ⟨keys, powers⟩ := pbMsg_append_inj same
  exact Prod.ext (pbBytes_injective (by omega) keys) (pbUint_injective (by omega) powers)

theorem Header.items_injective : Function.Injective Header.items := by
  rintro ⟨⟩ ⟨⟩ same
  simp only [Header.items, List.cons.injEq, and_true] at same
  obtain ⟨version, chain, height, time, block, rest⟩ := same
  obtain ⟨rfl, rfl⟩ := twoUints_injective version
  obtain rfl := utf8_injective (pbBytes_injective (by omega) chain)
  obtain rfl := pbUint_injective (by omega) height
  obtain ⟨rfl, rfl⟩ := twoUints_injective time
  obtain ⟨rfl, rfl, rfl⟩ := blockId_injective block
  have field {a b : Bytes} (same : wrapped a = wrapped b) : a = b := pbBytes_injective (by omega) same
  obtain ⟨commit, data, validators, next, consensus, app, results, evidence, proposer⟩ := rest
  rw [field commit, field data, field validators, field next, field consensus, field app,
    field results, field evidence, field proposer]

section
variable [RouteCrypto]

theorem Header.hash_injective {h h' : Header}
    (apart : Apart sha256 (merkleStrings h.items) (merkleStrings h'.items))
    (same : h.hash = h'.hash) : h = h' :=
  Header.items_injective (merkleRoot_injective apart same)

theorem validatorsHash_injective {set set' : List Validator}
    (apart : Apart sha256 (merkleStrings (set.map validatorBytes))
      (merkleStrings (set'.map validatorBytes)))
    (same : validatorsHash set = validatorsHash set') : set = set' :=
  map_injective_iff.2 validatorBytes_injective (merkleRoot_injective apart same)

end

/-! ### Signed bytes -/

structure Commit.Fits (c : Commit) : Prop where
  height : c.height < 2 ^ 64
  round : c.round < 2 ^ 32

theorem Commit.signBytes_inj {c c' : Commit} {chainId : String} {sig sig' : CommitSig}
    (fits : c.Fits) (fits' : c'.Fits)
    (same : c.signBytes chainId sig = c'.signBytes chainId sig') :
    c.height = c'.height ∧ c.blockHash = c'.blockHash := by
  have height := fits.height
  have height' := fits'.height
  have round := fits.round
  have round' := fits'.round
  have votes := prefixed_inj same
  simp only [append_assoc] at votes
  replace votes := append_cancel_left votes
  have past (n r : ℕ) (low : n < 24) (b x : Bytes) :
      Past n (pbSfixed64 3 r ++ (pbMsg 4 b ++ x)) :=
    Past.pbSfixed64 (by omega) (by omega) (Past.pbMsg (by omega) (by omega) b) r
  obtain ⟨heights, votes⟩ := pbSfixed64_append_inj (by omega) (by omega) (by omega)
    (past _ _ (by omega) _ _) (past _ _ (by omega) _ _) votes
  obtain ⟨-, votes⟩ := pbSfixed64_append_inj (by omega) (by omega) (by omega)
    (Past.pbMsg (by omega) (by omega) _) (Past.pbMsg (by omega) (by omega) _) votes
  obtain ⟨blocks, -⟩ := pbMsg_append_inj votes
  exact ⟨heights, (blockId_injective blocks).1⟩

end Tendermint
end Tenzro.Bridge
