import Mathlib

set_option autoImplicit false

/-!
# Byte strings, fixed-width integers and strict readers

A reader consumes a byte string from the front and fails on truncation. `Reads f x a`
says that `f` consumes exactly `x` and returns `a` whatever follows, so that readers
compose the way encodings are concatenated.
-/

abbrev Bytes := List UInt8

instance : LawfulBEq Bytes := inferInstance

namespace ByteCodec
open List

/-! ### Integers -/

def leBytes : ℕ → ℕ → Bytes
  | 0, _ => []
  | w + 1, n => UInt8.ofNat n :: leBytes w (n / 256)

def ofLeBytes : Bytes → ℕ
  | [] => 0
  | b :: l => b.toNat + 256 * ofLeBytes l

def beBytes (w n : ℕ) : Bytes := (leBytes w n).reverse

def ofBeBytes (l : Bytes) : ℕ := ofLeBytes l.reverse

@[simp] theorem length_leBytes (w n : ℕ) : (leBytes w n).length = w := by
  induction w generalizing n with
  | zero => rfl
  | succ w ih => simp [leBytes, ih]

@[simp] theorem length_beBytes (w n : ℕ) : (beBytes w n).length = w := by simp [beBytes]

theorem ofLeBytes_leBytes (w n : ℕ) : ofLeBytes (leBytes w n) = n % 256 ^ w := by
  induction w generalizing n with
  | zero => simp [leBytes, ofLeBytes, Nat.mod_one]
  | succ w ih =>
    have byte : (UInt8.ofNat n).toNat = n % 256 := UInt8.toNat_ofNat'
    rw [leBytes, ofLeBytes, ih, byte, Nat.pow_succ, Nat.mul_comm (256 ^ w) 256, Nat.mod_mul]

theorem ofBeBytes_beBytes {w n : ℕ} (h : n < 256 ^ w) : ofBeBytes (beBytes w n) = n := by
  rw [ofBeBytes, beBytes, reverse_reverse, ofLeBytes_leBytes, Nat.mod_eq_of_lt h]

theorem ofLeBytes_lt (l : Bytes) : ofLeBytes l < 256 ^ l.length := by
  induction l with
  | nil => simp [ofLeBytes]
  | cons b l ih =>
    have := b.toNat_lt
    simp only [ofLeBytes, length_cons, Nat.pow_succ]
    omega

theorem leBytes_ofLeBytes (l : Bytes) : leBytes l.length (ofLeBytes l) = l := by
  induction l with
  | nil => rfl
  | cons b l ih =>
    have small : b.toNat < 256 := b.toNat_lt
    have rest : (b.toNat + 256 * ofLeBytes l) / 256 = ofLeBytes l := by omega
    simp only [length_cons, ofLeBytes, leBytes, rest, ih, List.cons.injEq, and_true]
    apply UInt8.toNat_inj.1
    rw [UInt8.toNat_ofNat']
    omega

theorem ofBeBytes_lt (l : Bytes) : ofBeBytes l < 256 ^ l.length := by
  have h := ofLeBytes_lt l.reverse
  rwa [length_reverse] at h

theorem beBytes_ofBeBytes (l : Bytes) : beBytes l.length (ofBeBytes l) = l := by
  have h := leBytes_ofLeBytes l.reverse
  rw [length_reverse] at h
  rw [beBytes, ofBeBytes, h, reverse_reverse]

theorem beBytes_injective {w m n : ℕ} (hm : m < 256 ^ w) (hn : n < 256 ^ w)
    (h : beBytes w m = beBytes w n) : m = n := by
  rw [← ofBeBytes_beBytes hm, ← ofBeBytes_beBytes hn, h]

/-! ### Hexadecimal -/

def hexDigit (n : ℕ) : Char := if n < 10 then Char.ofNat (48 + n) else Char.ofNat (87 + n)

def hexByte (b : UInt8) : List Char := [hexDigit (b.toNat / 16), hexDigit (b.toNat % 16)]

/-- Lower-case hexadecimal. -/
def hexEncode (l : Bytes) : String := String.ofList (l.flatMap hexByte)

theorem hexDigit_injective {m n : ℕ} (hm : m < 16) (hn : n < 16) (h : hexDigit m = hexDigit n) :
    m = n := by
  have all : ∀ m < 16, ∀ n < 16, hexDigit m = hexDigit n → m = n := by decide
  exact all m hm n hn h

theorem hexByte_injective {a b : UInt8} (h : hexByte a = hexByte b) : a = b := by
  have ha := a.toNat_lt
  have hb := b.toNat_lt
  simp only [hexByte, List.cons.injEq, and_true] at h
  have high := hexDigit_injective (by omega) (by omega) h.1
  have low := hexDigit_injective (by omega) (by omega) h.2
  apply UInt8.toNat_inj.1
  omega

theorem flatMap_hexByte_injective {a b : Bytes} (h : a.flatMap hexByte = b.flatMap hexByte) :
    a = b := by
  induction a generalizing b with
  | nil => cases b <;> simp [hexByte] at h ⊢
  | cons x a ih =>
    cases b with
    | nil => simp [hexByte] at h
    | cons y b =>
      simp only [flatMap_cons] at h
      obtain ⟨head, tail⟩ := append_inj h rfl
      rw [hexByte_injective head, ih tail]

theorem hexEncode_injective {a b : Bytes} (h : hexEncode a = hexEncode b) : a = b :=
  flatMap_hexByte_injective (String.ofList_injective h)

theorem mem_hexEncode {l : Bytes} {c : Char} (h : c ∈ (hexEncode l).toList) :
    c.isAlphanum = true := by
  rw [hexEncode, String.toList_ofList] at h
  obtain ⟨b, -, mem⟩ := mem_flatMap.1 h
  have digits : ∀ n < 16, (hexDigit n).isAlphanum = true := by decide
  have small := b.toNat_lt
  simp only [hexByte, mem_cons, not_mem_nil, or_false] at mem
  rcases mem with rfl | rfl
  · exact digits _ (by omega)
  · exact digits _ (by omega)

/-! ### Readers -/

/-- A cursor over one payload. -/
structure Reader where
  position : ℕ
  rest : Bytes
deriving DecidableEq, Repr

abbrev Read (α : Type) := StateT Reader (Except String) α

def malformed {α : Type} (what : String) : Except String α :=
  .error ("malformed bridge payload: " ++ what)

def take (n : ℕ) : Read Bytes := fun r =>
  if r.rest.length < n then
    malformed s!"truncated: needed {n} bytes at offset {r.position}, {r.rest.length} left"
  else .ok (r.rest.take n, ⟨r.position + n, r.rest.drop n⟩)

def fail {α : Type} (msg : String) : Read α := fun _ => .error msg

def require (p : Prop) [Decidable p] (msg : String) : Read Unit := if p then pure () else fail msg

def readBe (w : ℕ) : Read ℕ := do return ofBeBytes (← take w)

def readLe (w : ℕ) : Read ℕ := do return ofLeBytes (← take w)

def repeated {α : Type} (f : Read α) : ℕ → Read (List α)
  | 0 => pure []
  | n + 1 => do
    let a ← f
    let l ← repeated f n
    return a :: l

def readBeBytes (max : ℕ) : Read Bytes := do
  let len ← readBe 4
  if max < len then fail s!"malformed bridge payload: field of {len} bytes exceeds {max}"
  else take len

def writeBeBytes (l : Bytes) : Bytes := beBytes 4 l.length ++ l

def finish : Read Unit := fun r =>
  if r.rest = [] then .ok ((), r)
  else malformed s!"{r.rest.length} trailing bytes after the message"

def decodeWith {α : Type} (f : Read α) (l : Bytes) : Except String α :=
  (do let a ← f; finish; return a : Read α).run' ⟨0, l⟩

/-- The reader consumes exactly `x` and returns `a`, whatever follows. -/
def Reads {α : Type} (f : Read α) (x : Bytes) (a : α) : Prop :=
  ∀ pos rest, f ⟨pos, x ++ rest⟩ = .ok (a, ⟨pos + x.length, rest⟩)

section
variable {α β : Type} {f : Read α} {x y : Bytes} {a : α}

theorem Reads.bind {g : α → Read β} {b : β} (hf : Reads f x a) (hg : Reads (g a) y b) :
    Reads (f >>= g) (x ++ y) b := by
  intro pos rest
  have first := hf pos (y ++ rest)
  have second := hg (pos + x.length) rest
  simp only [Bind.bind, StateT.bind, append_assoc, first, Except.bind, second,
    length_append, Nat.add_assoc]

theorem Reads.seq {g : α → Read β} {b : β} {z : Bytes} (hf : Reads f x a) (hz : z = x ++ y)
    (hg : Reads (g a) y b) : Reads (f >>= g) z b :=
  hz ▸ hf.bind hg

theorem Reads.pure (a : α) : Reads (pure a : Read α) [] a := by
  intro pos rest
  simp [Pure.pure, StateT.pure, Except.pure]

theorem Reads.map {g : α → β} (hf : Reads f x a) : Reads (g <$> f) x (g a) := by
  have h := hf.bind (g := fun a => (Pure.pure (g a) : Read β)) (Reads.pure (g a))
  rw [append_nil] at h
  exact h

theorem Reads.take {n : ℕ} (h : x.length = n) : Reads (ByteCodec.take n) x x := by
  intro pos rest
  subst h
  simp [ByteCodec.take]

theorem Reads.readBe_mod (w n : ℕ) : Reads (ByteCodec.readBe w) (beBytes w n) (n % 256 ^ w) := by
  have read := (Reads.take (length_beBytes w n)).map (g := ofBeBytes)
  rwa [ofBeBytes, beBytes, reverse_reverse, ofLeBytes_leBytes] at read

theorem Reads.readBe {w n : ℕ} (h : n < 256 ^ w) : Reads (ByteCodec.readBe w) (beBytes w n) n := by
  have read := Reads.readBe_mod w n
  rwa [Nat.mod_eq_of_lt h] at read

theorem Reads.readLe {w n : ℕ} (h : n < 256 ^ w) : Reads (ByteCodec.readLe w) (leBytes w n) n := by
  have read := (Reads.take (length_leBytes w n)).map (g := ofLeBytes)
  rwa [ofLeBytes_leBytes, Nat.mod_eq_of_lt h] at read

theorem Reads.ite {p : Prop} [Decidable p] {g : Read α} (no : ¬ p) (hf : Reads f x a) :
    Reads (if p then g else f) x a := by
  rwa [if_neg no]

theorem Reads.require {p : Prop} [Decidable p] (h : p) (msg : String) :
    Reads (ByteCodec.require p msg) [] () := by
  rw [ByteCodec.require, if_pos h]
  exact Reads.pure ()

theorem Reads.lift {x : Except String α} (h : x = .ok a) :
    Reads (fun r => x.map fun a => (a, r)) [] a := by
  intro pos rest
  rw [h]
  rfl

theorem Reads.repeated {enc : α → Bytes} {l : List α} (h : ∀ a ∈ l, Reads f (enc a) a) :
    Reads (ByteCodec.repeated f l.length) (l.flatMap enc) l := by
  induction l with
  | nil => exact Reads.pure []
  | cons a l ih =>
    have rest := ih fun b mem => h b (by simp [mem])
    have done := rest.bind (g := fun l => (Pure.pure (a :: l) : Read (List α))) (Reads.pure _)
    rw [append_nil] at done
    exact (h a (by simp)).bind done

theorem Reads.readBeBytes {max : ℕ} (fits : x.length < 256 ^ 4) (small : x.length ≤ max) :
    Reads (ByteCodec.readBeBytes max) (writeBeBytes x) x :=
  (Reads.readBe fits).bind (Reads.ite (not_lt.2 small) (Reads.take rfl))

theorem Reads.decodeWith (h : Reads f x a) : ByteCodec.decodeWith f x = .ok a := by
  have read := h 0 []
  rw [append_nil] at read
  simp [ByteCodec.decodeWith, StateT.run', Bind.bind, StateT.bind, read, Except.bind, finish,
    Pure.pure, StateT.pure, Except.pure, Functor.map, Except.map]

/-- What a reader consumed tells what it returned and where it stopped. -/
theorem Reads.unique {b : α} {u v : Bytes} (hx : Reads f x a) (hy : Reads f y b)
    (same : x ++ u = y ++ v) : x = y ∧ a = b ∧ u = v := by
  have first := hx 0 u
  rw [same, hy 0 v] at first
  simp only [Except.ok.injEq, Prod.mk.injEq, Reader.mk.injEq, Nat.zero_add] at first
  obtain ⟨values, lengths, rests⟩ := first
  exact ⟨(append_inj same lengths.symm).1, values.symm, rests.symm⟩

end

/-! ### Readers that look at nothing they do not consume -/

def Local {α : Type} (f : Read α) : Prop :=
  ∀ r a r', f r = .ok (a, r') → ∃ x, r.rest = x ++ r'.rest ∧ Reads f x a

section
variable {α β : Type} {f : Read α}

theorem Local.pure (a : α) : Local (pure a : Read α) := by
  intro r b r' h
  cases h
  exact ⟨[], rfl, Reads.pure _⟩

theorem Local.fail (msg : String) : Local (fail msg : Read α) := by
  intro r a r' h
  cases h

theorem Local.take (n : ℕ) : Local (take n) := by
  intro r a r' h
  unfold ByteCodec.take malformed at h
  split_ifs at h with short
  cases h
  refine ⟨r.rest.take n, (take_append_drop n r.rest).symm, Reads.take ?_⟩
  rw [length_take]
  omega

theorem Local.bind {g : α → Read β} (first : Local f) (rest : ∀ a, Local (g a)) :
    Local (f >>= g) := by
  intro r b r' h
  cases ran : f r with
  | error e => simp [Bind.bind, StateT.bind, ran, Except.bind] at h
  | ok x =>
    obtain ⟨a, r₁⟩ := x
    simp only [Bind.bind, StateT.bind, ran, Except.bind] at h
    obtain ⟨u, split, reads⟩ := first r a r₁ ran
    obtain ⟨v, split', reads'⟩ := rest a r₁ b r' h
    exact ⟨u ++ v, by rw [split, split', append_assoc], reads.bind reads'⟩

theorem Local.readBe (w : ℕ) : Local (readBe w) := (Local.take w).bind fun _ => Local.pure _

theorem Local.require (p : Prop) [Decidable p] (msg : String) : Local (require p msg) := by
  unfold ByteCodec.require
  split_ifs
  · exact Local.pure ()
  · exact Local.fail msg

end

/-! ### What a read returned -/

section
variable {α β : Type} {f : Read α} {a : α} {r r' : Reader}

theorem read_bind_ok {g : α → Read β} {b : β} :
    (f >>= g) r = .ok (b, r') ↔ ∃ a r₁, f r = .ok (a, r₁) ∧ g a r₁ = .ok (b, r') := by
  cases first : f r with
  | error e => simp [Bind.bind, StateT.bind, first, Except.bind]
  | ok x =>
    obtain ⟨a, r₁⟩ := x
    simp [Bind.bind, StateT.bind, first, Except.bind]

theorem read_pure_ok {b : α} : (pure a : Read α) r = .ok (b, r') ↔ a = b ∧ r = r' := by
  simp [Pure.pure, StateT.pure, Except.pure]

theorem require_ok {p : Prop} [Decidable p] {msg : String} {u : Unit} :
    require p msg r = .ok (u, r') ↔ p ∧ r = r' := by
  unfold require
  split_ifs with h
  · simp [h, read_pure_ok]
  · simp [h, fail]

theorem take_ok {n : ℕ} {b : Bytes} (h : take n r = .ok (b, r')) : b.length = n := by
  unfold take malformed at h
  split_ifs at h with short
  cases h
  rw [length_take]
  omega

theorem readLe_ok {w n : ℕ} (h : readLe w r = .ok (n, r')) : n < 256 ^ w := by
  obtain ⟨b, r₁, taken, value⟩ := read_bind_ok.1 h
  obtain ⟨rfl, -⟩ := read_pure_ok.1 value
  rw [← take_ok taken]
  exact ofLeBytes_lt b

theorem readBe_ok {w n : ℕ} (h : readBe w r = .ok (n, r')) : n < 256 ^ w := by
  obtain ⟨b, r₁, taken, value⟩ := read_bind_ok.1 h
  obtain ⟨rfl, -⟩ := read_pure_ok.1 value
  rw [← take_ok taken]
  exact ofBeBytes_lt b

theorem readBeBytes_ok {max : ℕ} {b : Bytes} (h : readBeBytes max r = .ok (b, r')) :
    b.length ≤ max := by
  obtain ⟨len, r₁, -, h⟩ := read_bind_ok.1 h
  split_ifs at h with long
  · cases h
  · rw [take_ok h]
    omega

theorem repeated_ok {n : ℕ} {l : List α} (h : repeated f n r = .ok (l, r')) :
    l.length = n ∧ ∀ a ∈ l, ∃ r₁ r₂, f r₁ = .ok (a, r₂) := by
  induction n generalizing r r' l with
  | zero =>
    obtain ⟨rfl, -⟩ := read_pure_ok.1 h
    simp
  | succ n ih =>
    obtain ⟨a, r₁, first, h⟩ := read_bind_ok.1 h
    obtain ⟨rest, r₂, later, h⟩ := read_bind_ok.1 h
    obtain ⟨rfl, -⟩ := read_pure_ok.1 h
    obtain ⟨size, each⟩ := ih later
    refine ⟨by simp [size], ?_⟩
    rw [forall_mem_cons]
    exact ⟨⟨r, r₁, first⟩, each⟩

theorem decodeWith_ok {l : Bytes} :
    decodeWith f l = .ok a ↔ ∃ r, f ⟨0, l⟩ = .ok (a, r) ∧ r.rest = [] := by
  unfold decodeWith finish malformed
  cases first : f ⟨0, l⟩ with
  | error e =>
    simp [StateT.run', Bind.bind, StateT.bind, first, Except.bind, Functor.map, Except.map]
  | ok x =>
    obtain ⟨b, r⟩ := x
    by_cases done : r.rest = [] <;>
      simp [StateT.run', Bind.bind, StateT.bind, first, Except.bind, Functor.map, Except.map, done,
        Pure.pure, StateT.pure, Except.pure]

end

end ByteCodec
