import Tenzro.ByteCodec

set_option autoImplicit false

/-!
# The recursive length prefix of the specification

A codec of strings and lists writes items that it reads back, part by part. One
that writes as the specification has it.
-/
/-- The operations, on the bytes of one item. -/
class RlpCodec where
  string : Bytes → Bytes
  /-- The list of parts that are items already. -/
  list : List Bytes → Bytes
  /-- The header's length and the payload's. -/
  payloadInfo : Bytes → Except String (ℕ × ℕ)
  isList : Bytes → Bool
  itemCount : Bytes → Except String ℕ
  itemAt : Bytes → ℕ → Except String Bytes
  itemData : Bytes → Except String Bytes

namespace RlpCodec

section
variable [RlpCodec]

/-- What the codec writes. -/
inductive Item : Bytes → Prop
  | string (b : Bytes) : Item (string b)
  | list {parts : List Bytes} (each : ∀ p ∈ parts, Item p) : Item (list parts)

/-- An unsigned integer is the string of its big-endian bytes without leading zeros. -/
def uintBytes (n : ℕ) : Bytes := if n = 0 then [] else ByteCodec.beBytes (Nat.log 256 n + 1) n

def uint (n : ℕ) : Bytes := string (uintBytes n)

end

/-- What is written is read back. -/
class Lawful [RlpCodec] : Prop where
  payloadInfo_item : ∀ {x : Bytes}, Item x →
    ∃ header payload, payloadInfo x = .ok (header, payload) ∧ header + payload = x.length
  isList_string : ∀ b : Bytes, isList (string b) = false
  isList_list : ∀ {parts : List Bytes}, (∀ p ∈ parts, Item p) → isList (list parts) = true
  itemCount_list : ∀ {parts : List Bytes}, (∀ p ∈ parts, Item p) →
    itemCount (list parts) = .ok parts.length
  itemAt_list : ∀ {parts : List Bytes} {i : ℕ} {p : Bytes}, (∀ p ∈ parts, Item p) →
    parts[i]? = some p → itemAt (list parts) i = .ok p
  itemData_string : ∀ b : Bytes, itemData (string b) = .ok b
  /-- No string's item starts another's. -/
  string_of_prefix : ∀ {a b : Bytes}, string a <+: string b → a = b
  length_string : ∀ {b : Bytes}, b.length ≤ 55 → (string b).length ≤ b.length + 1
  /-- A list's first byte is above every string's. -/
  list_head : ∀ {parts : List Bytes}, (∀ p ∈ parts, Item p) →
    ∃ b rest, list parts = b :: rest ∧ 0xc0 ≤ b

theorem uintBytes_injective {m n : ℕ} (h : uintBytes m = uintBytes n) : m = n := by
  unfold uintBytes at h
  split_ifs at h with zero_m zero_n zero_n
  · rw [zero_m, zero_n]
  · have len := congrArg List.length h
    simp at len
  · have len := congrArg List.length h
    simp at len
  · have len := congrArg List.length h
    simp only [ByteCodec.length_beBytes] at len
    rw [len] at h
    have fits_m : m < 256 ^ (Nat.log 256 m + 1) := Nat.lt_pow_succ_log_self (by omega) m
    rw [len] at fits_m
    exact ByteCodec.beBytes_injective fits_m (Nat.lt_pow_succ_log_self (by omega) n) h

theorem length_uintBytes {n w : ℕ} (fits : n < 256 ^ w) : (uintBytes n).length ≤ w := by
  unfold uintBytes
  split_ifs with zero
  · exact Nat.zero_le _
  · rw [ByteCodec.length_beBytes]
    exact Nat.log_lt_of_lt_pow zero fits

end RlpCodec

namespace RlpSpec
open ByteCodec RlpCodec List

/-- Strings have the headers from `0x80`, lists those from `0xc0`. -/
def header (base n : ℕ) : Bytes :=
  if n ≤ 55 then [UInt8.ofNat (base + n)]
  else if n < 2 ^ 64 then UInt8.ofNat (base + 55 + (uintBytes n).length) :: uintBytes n
  else UInt8.ofNat (base + 63) :: (replicate 8 0 ++ (replicate n 1 ++ [0]))

def string (b : Bytes) : Bytes :=
  match b with
  | [x] => if x < 0x80 then [x] else header 0x80 1 ++ [x]
  | _ => header 0x80 b.length ++ b

def list (parts : List Bytes) : Bytes := header 0xc0 parts.flatten.length ++ parts.flatten

def readLong (k : ℕ) (rest : Bytes) : Except String (ℕ × ℕ) :=
  if rest.length < k then .error "RlpIsTooShort"
  else
    let v := ofBeBytes (rest.take k)
    if k = 8 ∧ v = 0 then
      let n := ((rest.drop 8).takeWhile (· = 1)).length
      .ok (1 + 8 + n + 1, n)
    else .ok (1 + k, v)

def payloadInfo : Bytes → Except String (ℕ × ℕ)
  | [] => .error "RlpIsTooShort"
  | b :: rest =>
    let l := b.toNat
    if l < 0x80 then .ok (0, 1)
    else if l ≤ 0xb7 then .ok (1, l - 0x80)
    else if l ≤ 0xbf then readLong (l - 0xb7) rest
    else if l ≤ 0xf7 then .ok (1, l - 0xc0)
    else readLong (l - 0xf7) rest

def isList (b : Bytes) : Bool := b.head?.any fun b => 0xc0 ≤ b

def items : ℕ → Bytes → Except String (List Bytes)
  | _, [] => .ok []
  | 0, _ => .error "RlpIsTooBig"
  | fuel + 1, l => do
    let (h, p) ← payloadInfo l
    if l.length < h + p then .error "RlpIsTooShort"
    else
      let rest ← items fuel (l.drop (h + p))
      return l.take (h + p) :: rest

def payload (b : Bytes) : Except String Bytes := do
  let (h, p) ← payloadInfo b
  return (b.drop h).take p

def listItems (b : Bytes) : Except String (List Bytes) := do
  let l ← payload b
  items l.length l

@[reducible] def codec : RlpCodec where
  string := string
  list := list
  payloadInfo := payloadInfo
  isList := isList
  itemCount b := do return (← listItems b).length
  itemAt b i := do
    match (← listItems b)[i]? with
    | some x => return x
    | none => .error "RlpIsTooShort"
  itemData := payload

/-! ### What is written is read back -/

theorem length_uintBytes_pos {n : ℕ} (pos : n ≠ 0) : 0 < (uintBytes n).length := by
  unfold uintBytes
  rw [if_neg pos, length_beBytes]
  exact Nat.succ_pos _

theorem ofBeBytes_uintBytes (n : ℕ) : ofBeBytes (uintBytes n) = n := by
  unfold uintBytes
  split_ifs with zero
  · rw [zero]
    rfl
  · exact ofBeBytes_beBytes (Nat.lt_pow_succ_log_self (by norm_num) n)

theorem readLong_uintBytes {n : ℕ} (pos : n ≠ 0) (rest : Bytes) :
    readLong (uintBytes n).length (uintBytes n ++ rest) = .ok (1 + (uintBytes n).length, n) := by
  unfold readLong
  rw [if_neg (by simp), take_left, ofBeBytes_uintBytes]
  simp only
  rw [if_neg fun h => pos h.2]

theorem readLong_beyond (n : ℕ) (rest : Bytes) :
    readLong 8 (replicate 8 0 ++ (replicate n 1 ++ [0]) ++ rest) =
      .ok (1 + 8 + n + 1, n) := by
  have zeros : (replicate 8 (0 : UInt8) ++ (replicate n 1 ++ [0]) ++ rest).take 8 =
      replicate 8 0 := by
    rw [append_assoc]
    exact take_left' (by simp)
  have ones : (replicate 8 (0 : UInt8) ++ (replicate n 1 ++ [0]) ++ rest).drop 8 =
      replicate n 1 ++ ([0] ++ rest) := by
    rw [append_assoc, drop_left' (by simp), append_assoc]
  unfold readLong
  rw [if_neg (by simp), zeros, ones]
  have value : ofBeBytes (replicate 8 (0 : UInt8)) = 0 := by decide
  have counted : ((replicate n (1 : UInt8) ++ ([0] ++ rest)).takeWhile (· = 1)).length = n := by
    rw [takeWhile_append_of_pos (by simp)]
    simp
  simp only [value, counted]
  rfl

theorem payloadInfo_header {base n : ℕ} (kind : base = 0x80 ∨ base = 0xc0) (rest : Bytes) :
    payloadInfo (header base n ++ rest) = .ok ((header base n).length, n) := by
  unfold header
  split_ifs with short long
  · have value : (UInt8.ofNat (base + n)).toNat = base + n := by
      rw [UInt8.toNat_ofNat']
      omega
    rw [singleton_append, payloadInfo]
    simp only [value]
    rcases kind with rfl | rfl
    · rw [if_neg (by omega), if_pos (by omega)]
      simp
    · rw [if_neg (by omega), if_neg (by omega), if_neg (by omega), if_pos (by omega)]
      simp
  · have some_byte := length_uintBytes_pos (n := n) (by omega)
    have few : (uintBytes n).length ≤ 8 := length_uintBytes (by norm_num at long ⊢; exact long)
    have value : (UInt8.ofNat (base + 55 + (uintBytes n).length)).toNat =
        base + 55 + (uintBytes n).length := by
      rw [UInt8.toNat_ofNat']
      omega
    have read := readLong_uintBytes (n := n) (by omega) rest
    rw [cons_append, payloadInfo]
    simp only [value]
    rcases kind with rfl | rfl
    · rw [if_neg (by omega), if_neg (by omega), if_pos (by omega)]
      simpa [Nat.add_sub_cancel_left, Nat.add_comm] using read
    · rw [if_neg (by omega), if_neg (by omega), if_neg (by omega), if_neg (by omega)]
      simpa [Nat.add_sub_cancel_left, Nat.add_comm] using read
  · have value : (UInt8.ofNat (base + 63)).toNat = base + 63 := by
      rw [UInt8.toNat_ofNat']
      omega
    have read := readLong_beyond n rest
    rw [cons_append, payloadInfo]
    simp only [value]
    rcases kind with rfl | rfl
    · rw [if_neg (by omega), if_neg (by omega), if_pos (by omega)]
      rw [read]
      simp
      omega
    · rw [if_neg (by omega), if_neg (by omega), if_neg (by omega), if_neg (by omega)]
      rw [read]
      simp
      omega

theorem header_ne_nil (base n : ℕ) : header base n ≠ [] := by
  unfold header
  split_ifs <;> simp

theorem string_header {b : Bytes} (long : ∀ x : UInt8, b = [x] → ¬ x < 0x80) :
    string b = header 0x80 b.length ++ b := by
  unfold string
  split
  · rename_i x
    rw [if_neg (long x rfl)]
    rfl
  · rfl

theorem payloadInfo_string (b rest : Bytes) : ∃ h p, payloadInfo (string b ++ rest) = .ok (h, p) ∧
    h + p = (string b).length ∧ ((string b).drop h).take p = b := by
  by_cases single : ∃ x : UInt8, b = [x] ∧ x < 0x80
  · obtain ⟨x, rfl, low⟩ := single
    have text : string [x] = [x] := by simp [string, low]
    have low' : x.toNat < 0x80 := UInt8.lt_iff_toNat_lt.1 low
    refine ⟨0, 1, ?_, by rw [text]; rfl, by rw [text]; rfl⟩
    rw [text, singleton_append, payloadInfo]
    simp only [low', if_true]
  · have text := string_header (b := b) fun x eq low => single ⟨x, eq, low⟩
    refine ⟨(header 0x80 b.length).length, b.length, ?_, ?_, ?_⟩
    · rw [text, append_assoc]
      exact payloadInfo_header (.inl rfl) _
    · rw [text, length_append]
    · rw [text, drop_left, take_length]

theorem payloadInfo_list (parts : List Bytes) (rest : Bytes) :
    payloadInfo (list parts ++ rest) =
      .ok ((header 0xc0 parts.flatten.length).length, parts.flatten.length) := by
  unfold list
  rw [append_assoc]
  exact payloadInfo_header (.inr rfl) _

theorem header_head {base n : ℕ} (kind : base = 0x80 ∨ base = 0xc0) :
    ∃ b rest, header base n = b :: rest ∧ base ≤ b.toNat ∧ b.toNat < base + 64 := by
  have byte (m : ℕ) (small : m < 64) : (UInt8.ofNat (base + m)).toNat = base + m := by
    rw [UInt8.toNat_ofNat']
    omega
  unfold header
  split_ifs with short long
  · have value := byte n (by omega)
    exact ⟨_, _, rfl, by omega, by omega⟩
  · have few : (uintBytes n).length ≤ 8 := length_uintBytes (by norm_num at long ⊢; exact long)
    have value := byte (55 + (uintBytes n).length) (by omega)
    rw [← Nat.add_assoc] at value
    exact ⟨_, _, rfl, by omega, by omega⟩
  · have value := byte 63 (by omega)
    exact ⟨_, _, rfl, by omega, by omega⟩

attribute [local instance] codec

theorem payloadInfo_item {x : Bytes} (written : Item x) (rest : Bytes) :
    x ≠ [] ∧ ∃ h p, payloadInfo (x ++ rest) = .ok (h, p) ∧ h + p = x.length := by
  cases written with
  | string b =>
    obtain ⟨h, p, info, spans, -⟩ := payloadInfo_string b rest
    refine ⟨fun nothing => ?_, h, p, info, spans⟩
    change string b = [] at nothing
    by_cases single : ∃ x : UInt8, b = [x] ∧ x < 0x80
    · obtain ⟨x, rfl, low⟩ := single
      have text : string [x] = [x] := by simp [string, low]
      exact cons_ne_nil x [] (text ▸ nothing)
    · have text := string_header (b := b) fun x eq low => single ⟨x, eq, low⟩
      exact header_ne_nil _ _ (append_eq_nil_iff.1 (text ▸ nothing)).1
  | @list parts each =>
    refine ⟨fun nothing => header_ne_nil _ _ (append_eq_nil_iff.1 nothing).1, _, _,
      payloadInfo_list parts rest, ?_⟩
    exact (length_append ..).symm

theorem items_flatten {parts : List Bytes} (each : ∀ p ∈ parts, Item p) {fuel : ℕ}
    (enough : parts.flatten.length ≤ fuel) : items fuel parts.flatten = .ok parts := by
  induction parts generalizing fuel with
  | nil => cases fuel <;> rfl
  | cons x parts ih =>
    obtain ⟨written, later⟩ := forall_mem_cons.1 each
    obtain ⟨something, h, p, info, spans⟩ := payloadInfo_item written parts.flatten
    have pos := length_pos_of_ne_nil something
    rw [flatten_cons] at enough ⊢
    rw [length_append] at enough
    cases fuel with
    | zero => omega
    | succ fuel =>
      obtain ⟨b, l, eq⟩ := exists_cons_of_ne_nil
        (show x ++ parts.flatten ≠ [] from fun none => something (append_eq_nil_iff.1 none).1)
      have rest := ih later (show parts.flatten.length ≤ fuel by omega)
      have cut : items (fuel + 1) (x ++ parts.flatten) = (do
          let (h, p) ← payloadInfo (x ++ parts.flatten)
          if (x ++ parts.flatten).length < h + p then .error "RlpIsTooShort"
          else
            let rest ← items fuel ((x ++ parts.flatten).drop (h + p))
            return (x ++ parts.flatten).take (h + p) :: rest) := by
        rw [eq]
        rfl
      rw [cut, info]
      simp only [bind, Except.bind, spans]
      rw [if_neg (by rw [length_append]; omega), drop_left, take_left, rest]
      rfl

theorem listItems_list {parts : List Bytes} (each : ∀ p ∈ parts, Item p) :
    listItems (list parts) = .ok parts := by
  have info := payloadInfo_list parts []
  rw [append_nil] at info
  unfold listItems payload
  rw [info]
  have cut : ((list parts).drop (header 0xc0 parts.flatten.length).length).take
      parts.flatten.length = parts.flatten := by
    unfold list
    rw [drop_left, take_length]
  simp only [bind, Except.bind, pure, Except.pure, cut]
  exact items_flatten each le_rfl

theorem payload_string (b : Bytes) : payload (string b) = .ok b := by
  obtain ⟨h, p, info, -, cut⟩ := payloadInfo_string b []
  rw [append_nil] at info
  unfold payload
  rw [info]
  simp only [bind, Except.bind, pure, Except.pure, cut]

theorem lawful : Lawful where
  payloadInfo_item {x} written := by
    obtain ⟨-, h, p, info, spans⟩ := payloadInfo_item written []
    rw [append_nil] at info
    exact ⟨h, p, info, spans⟩
  isList_string b := by
    change isList (string b) = false
    by_cases single : ∃ x : UInt8, b = [x] ∧ x < 0x80
    · obtain ⟨x, rfl, low⟩ := single
      have low' : x.toNat < 0x80 := UInt8.lt_iff_toNat_lt.1 low
      have text : string [x] = [x] := by simp [string, low]
      rw [text]
      simp only [isList, head?_cons, Option.any_some, decide_eq_false_iff_not]
      intro high
      have high' : 0xc0 ≤ x.toNat := UInt8.le_iff_toNat_le.1 high
      omega
    · have text := string_header (b := b) fun x eq low => single ⟨x, eq, low⟩
      obtain ⟨first, rest, head, -, below⟩ := header_head (n := b.length) (.inl rfl)
      rw [text, head]
      simp only [isList, cons_append, head?_cons, Option.any_some,
        decide_eq_false_iff_not]
      intro high
      have high' : 0xc0 ≤ first.toNat := UInt8.le_iff_toNat_le.1 high
      omega
  isList_list {parts} _ := by
    obtain ⟨first, rest, head, above, -⟩ :=
      header_head (n := parts.flatten.length) (.inr rfl)
    change isList (list parts) = true
    unfold list
    rw [head]
    simp only [isList, cons_append, head?_cons, Option.any_some, decide_eq_true_eq]
    exact UInt8.le_iff_toNat_le.2 above
  itemCount_list {parts} each := by
    change (do return (← listItems (list parts)).length) = _
    rw [listItems_list each]
    rfl
  itemAt_list {parts i p} each at_i := by
    change (do
      match (← listItems (list parts))[i]? with
      | some x => return x
      | none => .error "RlpIsTooShort") = _
    rw [listItems_list each]
    simp only [bind, Except.bind, at_i]
    rfl
  itemData_string := payload_string
  string_of_prefix {a b} starts := by
    obtain ⟨rest, eq⟩ := starts
    obtain ⟨h, p, info, spans, cut⟩ := payloadInfo_string a rest
    obtain ⟨h', p', info', spans', cut'⟩ := payloadInfo_string b []
    change string a ++ rest = string b at eq
    rw [append_nil, ← eq, info] at info'
    obtain ⟨rfl, rfl⟩ := Prod.mk.inj (Except.ok.inj info')
    have same : string a = string b := by
      have lengths := congrArg List.length eq
      rw [length_append] at lengths
      have nothing : rest = [] := length_eq_zero_iff.1 (by omega)
      rw [← eq, nothing, append_nil]
    rw [← cut, ← cut', same]
  length_string {b} short := by
    change (string b).length ≤ b.length + 1
    by_cases single : ∃ x : UInt8, b = [x] ∧ x < 0x80
    · obtain ⟨x, rfl, low⟩ := single
      simp [string, low]
    · rw [string_header fun x eq low => single ⟨x, eq, low⟩, header, if_pos short]
      simp
  list_head {parts} _ := by
    obtain ⟨first, rest, head, above, -⟩ :=
      header_head (n := parts.flatten.length) (.inr rfl)
    refine ⟨first, rest ++ parts.flatten, ?_, UInt8.le_iff_toNat_le.2 above⟩
    change list parts = _
    unfold list
    rw [head]
    rfl

end RlpSpec
