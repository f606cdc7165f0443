import Tenzro.IavlStore

set_option autoImplicit false

/-!
# What the checks of an existence proof let through

The varints a node starts with read back, so a checked leaf or step of a proof can only be
written where a leaf or a step of the tree is.
-/
namespace Tenzro.Bridge
open ByteCodec Outcome Protobuf HashTree List Nat

namespace Tendermint

/-! ### Varints -/

theorem zigzagFrom_local (turns i v : ℕ) : Local (zigzagFrom turns i v) := by
  induction turns generalizing i v with
  | zero => exact Local.fail _
  | succ turns ih =>
    refine (Local.readBe 1).bind fun b => ?_
    simp only
    split_ifs
    · exact (Local.require _ _).bind fun _ => Local.pure _
    · exact ih _ _

theorem nodeStart_local : Local nodeStart :=
  (zigzagFrom_local 10 0 0).bind fun _ => (zigzagFrom_local 10 0 0).bind fun _ =>
    (zigzagFrom_local 10 0 0).bind fun _ => Local.pure _

theorem reads_byte (n : ℕ) (small : n < 256) : Reads (readBe 1) [UInt8.ofNat n] n := by
  have read : Reads (readBe 1) (beBytes 1 n) n := Reads.readBe (by simpa using small)
  exact read

theorem zigzagFrom_reads_last {turns i v w : ℕ} (short : w < 128)
    (fits : v + w * 2 ^ (7 * i) < 2 ^ 64) (minimal : 0 < i → w ≠ 0) :
    Reads (zigzagFrom (turns + 1) i v) (uvarint w) (unzigzag (v + w * 2 ^ (7 * i))) := by
  have value : (v + w % 128 * 2 ^ (7 * i)) % 2 ^ 64 = v + w * 2 ^ (7 * i) := by
    rw [mod_eq_of_lt short, mod_eq_of_lt fits]
  rw [uvarint_small short]
  refine Reads.seq (reads_byte w (by omega)) (append_nil _).symm ?_
  simp only [value, if_pos short]
  exact Reads.seq (Reads.require (by omega) _) rfl (Reads.pure _)

theorem zigzagFrom_reads {turns i v w : ℕ} (enough : w < 128 ^ (turns + 1))
    (below : v < 2 ^ (7 * i)) (fits : v + w * 2 ^ (7 * i) < 2 ^ 64) (minimal : 0 < i → w ≠ 0) :
    Reads (zigzagFrom (turns + 1) i v) (uvarint w) (unzigzag (v + w * 2 ^ (7 * i))) := by
  induction turns generalizing i v w with
  | zero =>
    exact zigzagFrom_reads_last (by simpa using enough) fits minimal
  | succ turns ih =>
    by_cases short : w < 128
    · exact zigzagFrom_reads_last short fits minimal
    · have shift : 2 ^ (7 * (i + 1)) = 128 * 2 ^ (7 * i) := by
        rw [Nat.mul_add, Nat.pow_add, Nat.mul_comm]
      have whole : w = w % 128 + 128 * (w / 128) := (mod_add_div w 128).symm
      have parts : v + w * 2 ^ (7 * i) =
          v + w % 128 * 2 ^ (7 * i) + w / 128 * 2 ^ (7 * (i + 1)) := by
        calc v + w * 2 ^ (7 * i) = v + (w % 128 + 128 * (w / 128)) * 2 ^ (7 * i) := by rw [← whole]
          _ = v + w % 128 * 2 ^ (7 * i) + w / 128 * 2 ^ (7 * (i + 1)) := by
            rw [shift]
            ring
      have low : v + w % 128 * 2 ^ (7 * i) < 2 ^ (7 * (i + 1)) := by
        have digit : w % 128 + 1 ≤ 128 := mod_lt _ (by omega)
        have scaled := Nat.mul_le_mul_right (2 ^ (7 * i)) digit
        rw [Nat.add_mul, one_mul, ← shift] at scaled
        omega
      have value : (v + (w % 128 + 128) % 128 * 2 ^ (7 * i)) % 2 ^ 64 =
          v + w % 128 * 2 ^ (7 * i) := by
        rw [add_mod_right, mod_mod, mod_eq_of_lt (by omega)]
      have rest : w / 128 < 128 ^ (turns + 1) := by
        rw [Nat.div_lt_iff_lt_mul (by omega), ← Nat.pow_succ]
        exact enough
      rw [uvarint_large short]
      refine Reads.seq (reads_byte (w % 128 + 128) (by omega)) rfl ?_
      simp only [value, if_neg (show ¬ w % 128 + 128 < 128 by omega)]
      rw [parts]
      exact ih rest low (parts ▸ fits) (by omega)

theorem zigzag_reads {n : ℕ} (fits : n < 2 ^ 63) : Reads zigzag (uvarint (2 * n)) n := by
  have read := zigzagFrom_reads (show 2 * n < 128 ^ (9 + 1) by omega) (show 0 < 2 ^ (7 * 0) by omega)
    (by omega) (by omega)
  have value : unzigzag (0 + 2 * n * 2 ^ (7 * 0)) = n := by
    have even : (0 + 2 * n * 2 ^ (7 * 0)) % 2 = 0 := by omega
    have half : (0 + 2 * n * 2 ^ (7 * 0)) / 2 = n := by omega
    rw [unzigzag, if_pos even, half]
  rwa [value] at read

theorem nodeStart_reads {h s v : ℕ} (height : h < 2 ^ 63) (size : s < 2 ^ 63)
    (version : v < 2 ^ 63) : Reads nodeStart (writeStart h s v) (h, s, v) := by
  refine (zigzag_reads height).bind ((zigzag_reads size).bind ?_)
  exact Reads.seq (zigzag_reads version) (append_nil _).symm (Reads.pure _)

/-! ### Nodes of an IAVL tree -/

namespace IavlTree

theorem height_lt_size (t : IavlTree) : height t < size t := by
  induction t with
  | leaf a => exact Nat.one_pos
  | node v l r ihl ihr =>
    simp only [height, size]
    omega

theorem Fits.size {t : IavlTree} (fits : Fits t) : IavlTree.size t < 2 ^ 63 := by
  cases t with
  | leaf a => exact Nat.one_lt_two_pow (by omega)
  | node v l r => exact fits.1.2.2

theorem Fits.version {t : IavlTree} (fits : Fits t) :
    1 ≤ IavlTree.version t ∧ IavlTree.version t < 2 ^ 63 := by
  cases t with
  | leaf a => exact fits
  | node v l r => exact ⟨fits.1.1, fits.1.2.1⟩

theorem Fits.subtree {t u : IavlTree} (fits : Fits t) (mem : u ∈ t.subtrees) : Fits u := by
  induction t with
  | leaf a => rwa [mem_singleton.1 mem]
  | node v l r ihl ihr =>
    rcases mem_cons.1 mem with rfl | mem
    · exact fits
    · rcases mem_append.1 mem with left | right
      · exact ihl fits.2.1 left
      · exact ihr fits.2.2 right

def start (t : IavlTree) : Bytes := writeStart (height t) (size t) (version t)

theorem Fits.reads {t : IavlTree} (fits : Fits t) :
    Reads nodeStart (start t) (height t, IavlTree.size t, IavlTree.version t) :=
  nodeStart_reads ((height_lt_size t).trans fits.size) fits.size fits.version.2

end IavlTree

theorem checkLeaf_iavl {p : ExistenceProof} :
    p.checkLeaf .iavl = .ok () ↔ ∃ v, 1 ≤ v ∧ Reads nodeStart p.leafPrefix (0, 1, v) := by
  unfold ExistenceProof.checkLeaf
  simp only
  rw [bind_ok]
  constructor
  · rintro ⟨⟨⟨height, size, version⟩, r⟩, ran, h⟩
    obtain ⟨_, checked, last⟩ := bind_ok.1 h
    obtain ⟨rfl, rfl, positive⟩ := ensure_ok.1 checked
    obtain ⟨x, split, reads⟩ := nodeStart_local _ _ _ ran
    simp only at split
    rw [ensure_ok.1 last, append_nil] at split
    exact ⟨version, positive, split ▸ reads⟩
  · rintro ⟨v, positive, reads⟩
    have ran := reads 0 []
    rw [append_nil] at ran
    refine ⟨_, ran, bind_ok.2 ⟨(), ensure_ok.2 ⟨rfl, rfl, positive⟩, ensure_ok.2 rfl⟩⟩

/-- The bytes around the hash of one of a node's children. -/
inductive Around : Bytes → Bytes → Prop
  | left (w : Bytes) : w.length = 32 → Around [32] (32 :: w)
  | right (w : Bytes) : w.length = 32 → Around (32 :: (w ++ [32])) []

theorem around_iff {rest after : Bytes} : Around rest after ↔
    (rest.length = 1 ∧ after.length = 33 ∧ rest.head? = some 32 ∧ after.head? = some 32) ∨
      (rest.length = 34 ∧ after.length = 0 ∧ rest.head? = some 32 ∧ rest[33]? = some 32) := by
  constructor
  · rintro (⟨w, long⟩ | ⟨w, long⟩)
    · exact .inl ⟨rfl, by simp [long], rfl, rfl⟩
    · refine .inr ⟨by simp [long], rfl, rfl, ?_⟩
      rw [getElem?_cons_succ, ← long]
      exact getElem?_concat_length
  · rintro (⟨one, long, byte, byte'⟩ | ⟨long, none, byte, byte'⟩)
    · obtain ⟨b, rfl⟩ := length_eq_one_iff.1 one
      obtain ⟨w, rfl⟩ := head?_eq_some_iff.1 byte'
      cases byte
      exact .left w (by simpa using long)
    · obtain ⟨w, rfl⟩ := head?_eq_some_iff.1 byte
      rw [length_eq_zero_iff.1 none]
      have size : w.length = 33 := by simpa using long
      have split : w = w.take 32 ++ [32] := by
        rw [getElem?_cons_succ] at byte'
        obtain ⟨bound, value⟩ := List.getElem?_eq_some_iff.1 byte'
        rw [← value, take_append_getElem]
        exact (take_of_length_le (by omega)).symm
      rw [split]
      exact .right _ (by rw [length_take]; omega)

theorem checkInner_iavl {layer : ℤ} {step : PathStep} :
    checkInner .iavl layer step = .ok () ↔ ∃ c h s v rest, step.1 = c ++ rest ∧
      Reads nodeStart c (h, s, v) ∧ (layer ≤ h ∧ 2 ≤ s ∧ 1 ≤ v) ∧ Around rest step.2 := by
  unfold checkInner
  simp only
  rw [bind_ok]
  constructor
  · rintro ⟨⟨⟨h, s, v⟩, r⟩, ran, checks⟩
    obtain ⟨_, start, children⟩ := bind_ok.1 checks
    obtain ⟨c, split, reads⟩ := nodeStart_local _ _ _ ran
    exact ⟨c, h, s, v, r.rest, split, reads, ensure_ok.1 start, around_iff.2 (ensure_ok.1 children)⟩
  · rintro ⟨c, h, s, v, rest, split, reads, start, around⟩
    refine ⟨((h, s, v), ⟨0 + c.length, rest⟩), ?_, ?_⟩
    · rw [split]
      exact reads 0 rest
    · exact bind_ok.2 ⟨(), ensure_ok.2 start, ensure_ok.2 (around_iff.1 around)⟩

section
variable [RouteCrypto]

theorem iavl_written (t : IavlTree) : ∃ tail, iavlCode.written t = IavlTree.start t ++ tail := by
  cases t with
  | leaf a => exact ⟨_, rfl⟩
  | node v l r => exact ⟨_, append_assoc ..⟩

theorem length_root {α β : Type} (code : Code α β) (hash : code.hash = sha256) (t : Tree α β) :
    (code.root t).length = 32 := by
  rw [← code.hash_written, hash]
  exact RouteCrypto.length_sha256 _

end

end Tendermint
end Tenzro.Bridge
