import Tenzro.ByteCodec

set_option autoImplicit false

/-!
# Protobuf fields

Varints and the fields of a message, written in ascending order and left out when they hold
their default. A message whose next field is known to come later reads back in one way only.
-/
namespace Protobuf
open ByteCodec List

def uvarint (v : ℕ) : Bytes :=
  if v < 128 then [UInt8.ofNat v] else UInt8.ofNat (v % 128 + 128) :: uvarint (v / 128)

def key (field wire : ℕ) : Bytes := uvarint (field <<< 3 ||| wire)

def pbUint (field v : ℕ) : Bytes := if v = 0 then [] else key field 0 ++ uvarint v

/-- An embedded message, always written. -/
def pbMsg (field : ℕ) (b : Bytes) : Bytes := key field 2 ++ (uvarint b.length ++ b)

def pbBytes (field : ℕ) (b : Bytes) : Bytes := if b = [] then [] else pbMsg field b

def pbSfixed64 (field v : ℕ) : Bytes := if v = 0 then [] else key field 1 ++ leBytes 8 v

/-! ### Varints -/

theorem uvarint_small {v : ℕ} (small : v < 128) : uvarint v = [UInt8.ofNat v] := by
  rw [uvarint, if_pos small]

theorem uvarint_large {v : ℕ} (large : ¬ v < 128) :
    uvarint v = UInt8.ofNat (v % 128 + 128) :: uvarint (v / 128) := by
  rw [uvarint, if_neg large]

theorem uvarint_append_inj {a b : ℕ} {x y : Bytes} (h : uvarint a ++ x = uvarint b ++ y) :
    a = b ∧ x = y := by
  induction a using Nat.strong_induction_on generalizing b with
  | _ a ih =>
    by_cases hb : b < 128
    all_goals by_cases ha : a < 128
    · rw [uvarint_small ha, uvarint_small hb] at h
      obtain ⟨head, rest⟩ := List.cons.inj h
      have value := congrArg UInt8.toNat head
      simp only [UInt8.toNat_ofNat'] at value
      exact ⟨by omega, rest⟩
    · rw [uvarint_large ha, uvarint_small hb] at h
      have value := congrArg UInt8.toNat (List.cons.inj h).1
      simp only [UInt8.toNat_ofNat'] at value
      omega
    · rw [uvarint_small ha, uvarint_large hb] at h
      have value := congrArg UInt8.toNat (List.cons.inj h).1
      simp only [UInt8.toNat_ofNat'] at value
      omega
    · rw [uvarint_large ha, uvarint_large hb] at h
      obtain ⟨head, rest⟩ := List.cons.inj h
      have value := congrArg UInt8.toNat head
      simp only [UInt8.toNat_ofNat'] at value
      obtain ⟨high, same⟩ := ih (a / 128) (by omega) rest
      exact ⟨by omega, same⟩

theorem length_uvarint_le {k v : ℕ} (small : v < 128 ^ (k + 1)) : (uvarint v).length ≤ k + 1 := by
  induction k generalizing v with
  | zero => rw [uvarint_small (by simpa using small)]; rfl
  | succ k ih =>
    by_cases short : v < 128
    · rw [uvarint_small short]
      simp
    · have rest : v / 128 < 128 ^ (k + 1) := by
        rw [Nat.div_lt_iff_lt_mul (by omega), ← Nat.pow_succ]
        exact small
      rw [uvarint_large short, length_cons]
      have := ih rest
      omega

theorem prefixed_append_inj {a b x y : Bytes}
    (h : uvarint a.length ++ (a ++ x) = uvarint b.length ++ (b ++ y)) : a = b ∧ x = y := by
  obtain ⟨length, rest⟩ := uvarint_append_inj h
  exact append_inj rest length

theorem prefixed_inj {a b : Bytes} (h : uvarint a.length ++ a = uvarint b.length ++ b) : a = b := by
  obtain ⟨-, same⟩ := uvarint_append_inj h
  exact same

/-! ### Fields -/

def Past (n : ℕ) (x : Bytes) : Prop := ∀ b ∈ x.head?, n < b.toNat

theorem key_eq {field wire : ℕ} (low : field < 16) (kind : wire < 8) :
    key field wire = [UInt8.ofNat (field * 8 + wire)] := by
  have value : field <<< 3 ||| wire = field * 8 + wire := by
    rw [← Nat.shiftLeft_add_eq_or_of_lt (show wire < 2 ^ 3 by omega), Nat.shiftLeft_eq]
  rw [key, value, uvarint_small (by omega)]

theorem Past.nil (n : ℕ) : Past n [] := by simp [Past]

section
variable {field n : ℕ} {x y : Bytes} (low : field < 16)
include low

theorem past_key {wire : ℕ} (kind : wire < 8) (later : n < field * 8 + wire) :
    Past n (key field wire ++ x) := by
  rw [key_eq low kind]
  intro b head
  obtain rfl := Option.mem_some.1 head
  rw [UInt8.toNat_ofNat']
  omega

theorem Past.pbUint (later : n < field * 8) (rest : Past n x) (v : ℕ) :
    Past n (pbUint field v ++ x) := by
  unfold Protobuf.pbUint
  split_ifs
  · exact rest
  · rw [append_assoc]
    exact past_key low (by omega) (by omega)

theorem Past.pbMsg (later : n < field * 8 + 2) (b : Bytes) : Past n (pbMsg field b ++ x) := by
  unfold Protobuf.pbMsg
  rw [append_assoc]
  exact past_key low (by omega) later

theorem Past.pbBytes (later : n < field * 8 + 2) (rest : Past n x) (b : Bytes) :
    Past n (pbBytes field b ++ x) := by
  unfold Protobuf.pbBytes
  split_ifs
  · exact rest
  · exact Past.pbMsg low later b

theorem Past.pbSfixed64 (later : n < field * 8 + 1) (rest : Past n x) (v : ℕ) :
    Past n (pbSfixed64 field v ++ x) := by
  unfold Protobuf.pbSfixed64
  split_ifs
  · exact rest
  · rw [append_assoc]
    exact past_key low (by omega) later

/-- A field that is written cannot be taken for one that is left out. -/
theorem not_past_key {wire : ℕ} (kind : wire < 8) :
    ¬ Past (field * 8 + wire) (key field wire ++ x) := by
  intro past
  have byte := past (UInt8.ofNat (field * 8 + wire)) (by rw [key_eq low kind]; rfl)
  rw [UInt8.toNat_ofNat'] at byte
  omega

theorem pbUint_append_inj {v w : ℕ} (hx : Past (field * 8) x) (hy : Past (field * 8) y)
    (h : pbUint field v ++ x = pbUint field w ++ y) : v = w ∧ x = y := by
  unfold Protobuf.pbUint at h
  split_ifs at h with hv hw hw
  · exact ⟨hv.trans hw.symm, h⟩
  · rw [nil_append, append_assoc] at h
    exact absurd (h ▸ hx) (not_past_key low (show 0 < 8 by omega))
  · rw [nil_append, append_assoc] at h
    exact absurd (h ▸ hy) (not_past_key low (show 0 < 8 by omega))
  · simp only [append_assoc] at h
    exact uvarint_append_inj (append_cancel_left h)

omit low in
theorem pbMsg_append_inj {a b : Bytes} (h : pbMsg field a ++ x = pbMsg field b ++ y) :
    a = b ∧ x = y := by
  unfold Protobuf.pbMsg at h
  simp only [append_assoc] at h
  exact prefixed_append_inj (append_cancel_left h)

theorem pbBytes_append_inj {a b : Bytes} (hx : Past (field * 8 + 2) x)
    (hy : Past (field * 8 + 2) y) (h : pbBytes field a ++ x = pbBytes field b ++ y) :
    a = b ∧ x = y := by
  unfold Protobuf.pbBytes at h
  split_ifs at h with ha hb hb
  · exact ⟨ha.trans hb.symm, h⟩
  · rw [nil_append, Protobuf.pbMsg, append_assoc] at h
    exact absurd (h ▸ hx) (not_past_key low (by omega))
  · rw [nil_append, Protobuf.pbMsg, append_assoc] at h
    exact absurd (h ▸ hy) (not_past_key low (by omega))
  · exact pbMsg_append_inj h

theorem pbSfixed64_append_inj {v w : ℕ} (fits : v < 256 ^ 8) (fits' : w < 256 ^ 8)
    (hx : Past (field * 8 + 1) x) (hy : Past (field * 8 + 1) y)
    (h : pbSfixed64 field v ++ x = pbSfixed64 field w ++ y) : v = w ∧ x = y := by
  unfold Protobuf.pbSfixed64 at h
  split_ifs at h with hv hw hw
  · exact ⟨hv.trans hw.symm, h⟩
  · rw [nil_append, append_assoc] at h
    exact absurd (h ▸ hx) (not_past_key low (by omega))
  · rw [nil_append, append_assoc] at h
    exact absurd (h ▸ hy) (not_past_key low (by omega))
  · simp only [append_assoc] at h
    obtain ⟨same, rest⟩ := append_inj (append_cancel_left h) (by simp)
    have values := congrArg ofLeBytes same
    rw [ofLeBytes_leBytes, ofLeBytes_leBytes, Nat.mod_eq_of_lt fits, Nat.mod_eq_of_lt fits']
      at values
    exact ⟨values, rest⟩

end

end Protobuf
