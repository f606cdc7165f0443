import Tenzro.Tendermint

set_option autoImplicit false
set_option linter.dupNamespace false

/-!
# Solana wire transactions of external wallets

Signatures, then a legacy or version 0 message whose counts are compact lengths. The decoder
resolves each instruction's accounts in the message's own keys and verifies every required
signature over the message's bytes.
-/
namespace Tenzro.SvmWire
open ByteCodec FixedWidth Outcome List Nat
open Bridge (Ed25519)

/-! ### The decoder -/

def bad {α : Type} (msg : String) : Read α := fail s!"Invalid transaction: {msg}"

def next : Read UInt8 := fun r =>
  match r.rest with
  | [] => bad "truncated length" r
  | byte :: rest => .ok (byte, ⟨r.position + 1, rest⟩)

def shortvecFrom : ℕ → ℕ → ℕ → Read ℕ
  | 0, _, _ => bad "length prefix too long"
  | turns + 1, i, v => do
    let byte ← next
    let v := v ||| (byte.toNat % 128) <<< (7 * i)
    if byte.toNat < 128 then return v else shortvecFrom turns (i + 1) v

def shortvec : Read ℕ := shortvecFrom 3 0 0

def take (n : ℕ) : Read Bytes := fun r =>
  if r.rest.length < n then bad "truncated transaction" r
  else .ok (r.rest.take n, ⟨r.position + n, r.rest.drop n⟩)

/-- Whether the message is versioned, and its header. -/
def readHead : Read (Bool × Bytes) := fun r =>
  match r.rest with
  | byte :: rest =>
    if 128 ≤ byte.toNat then
      if byte.toNat % 128 ≠ 0 then bad s!"unsupported message version {byte.toNat % 128}" r
      else (Prod.mk true <$> take 3) ⟨r.position + 1, rest⟩
    else (Prod.mk false <$> take 3) r
  | [] => (Prod.mk false <$> take 3) r

/-- An instruction with its accounts resolved. -/
structure SvmInstruction where
  programId : Bytes
  accounts : List Bytes
  data : Bytes
deriving DecidableEq, Repr

/-- An instruction as the message carries it, by indices of its keys. -/
structure WireInstruction where
  program : Bytes
  accounts : Bytes
  data : Bytes
deriving DecidableEq, Repr

structure Message where
  versioned : Bool
  header : Bytes
  keys : List Bytes
  recentBlockhash : Bytes
  instructions : List WireInstruction
deriving DecidableEq, Repr

structure ExternalSvmTx where
  signers : List Bytes
  recentBlockhash : Bytes
  instructions : List SvmInstruction
  signature : Bytes
deriving DecidableEq, Repr

def keyAt (keys : List Bytes) (i : UInt8) : Except String Bytes :=
  match keys[i.toNat]? with
  | some key => .ok key
  | none => .error "Invalid transaction: account index out of range"

def lift {α : Type} (x : Except String α) : Read α := fun r => x.map fun a => (a, r)

def readInstruction (keys : List Bytes) : Read (WireInstruction × SvmInstruction) := do
  let program ← take 1
  let nacc ← shortvec
  let indices ← take nacc
  let accounts ← lift (indices.mapM (keyAt keys))
  let dlen ← shortvec
  let data ← take dlen
  let programId ← lift (keyAt keys (program.headD 0))
  return (⟨program, indices, data⟩, ⟨programId, accounts, data⟩)

def readLookups (versioned : Bool) : Read Unit :=
  if versioned then do
    let lookups ← shortvec
    require (lookups = 0) "Invalid transaction: address table lookups are not supported"
  else pure ()

def readMessage (nsig : ℕ) : Read (Message × List SvmInstruction) := do
  let (versioned, header) ← readHead
  let required := (header.headD 0).toNat
  let nkeys ← shortvec
  let keys ← repeated (take 32) nkeys
  require (required ≠ 0 ∧ required = nsig ∧ required ≤ nkeys)
    "Invalid transaction: signature count does not match the message header"
  let recentBlockhash ← take 32
  let nix ← shortvec
  let read ← repeated (readInstruction keys) nix
  readLookups versioned
  return (⟨versioned, header, keys, recentBlockhash, read.map Prod.fst⟩, read.map Prod.snd)

/-! ### The encoder -/

/-- Seven bits a byte, the lowest first; every byte but the last has its high bit set. -/
def compactU16 (v : ℕ) : Bytes :=
  if v / 128 = 0 then [UInt8.ofNat (v % 128)]
  else UInt8.ofNat (v % 128 + 128) :: compactU16 (v / 128)

section
variable [Ed25519]

def verified (signatures keys : List Bytes) (msg : Bytes) : Bool :=
  (signatures.zip keys).all fun p => Ed25519.isPoint p.2 && Ed25519.verifyStrict p.2 msg p.1

def decodeSvmWire (raw : Bytes) : Except String (List Bytes × Message × ExternalSvmTx) := do
  let (signatures, r) ← (do repeated (take 64) (← shortvec) : Read (List Bytes)) ⟨0, raw⟩
  let ((message, instructions), left) ← readMessage signatures.length ⟨0, r.rest⟩
  ensure (left.rest = []) "Invalid transaction: trailing bytes after the message"
  ensure (verified signatures message.keys r.rest) "Transaction signature verification failed"
  let required := (message.header.headD 0).toNat
  return (signatures, message,
    ⟨message.keys.take required, message.recentBlockhash, instructions, signatures.headD []⟩)

end

/-! ### What a reader consumes -/

section
variable {α β : Type} {f : Read α} {a b : α} {x : Bytes} {n : ℕ} {r r' : Reader}

theorem reads_bind {g : α → Read β} {b : β} (first : Local f) (second : ∀ a, Local (g a)) :
    Reads (f >>= g) x b ↔ ∃ y a z, x = y ++ z ∧ Reads f y a ∧ Reads (g a) z b := by
  constructor
  · intro h
    obtain ⟨a, r, read, later⟩ := read_bind_ok.1 (h 0 [])
    obtain ⟨y, split, consumed⟩ := first _ _ _ read
    obtain ⟨z, split', consumed'⟩ := second a _ _ _ later
    rw [append_nil] at split split'
    exact ⟨y, a, z, split' ▸ split, consumed, consumed'⟩
  · rintro ⟨y, a, z, rfl, read, later⟩
    exact read.bind later

theorem reads_pure : Reads (pure a : Read α) x b ↔ x = [] ∧ a = b := by
  constructor
  · intro h
    obtain ⟨same, rest⟩ := read_pure_ok.1 (h 0 [])
    rw [Reader.mk.injEq, append_nil] at rest
    exact ⟨rest.2, same⟩
  · rintro ⟨rfl, rfl⟩
    exact Reads.pure a

theorem take_ok {y : Bytes} (h : take n r = .ok (y, r')) :
    r.rest = y ++ r'.rest ∧ y.length = n := by
  unfold take at h
  split_ifs at h with short
  · cases h
  · cases h
    refine ⟨(take_append_drop n r.rest).symm, ?_⟩
    rw [length_take]
    omega

theorem reads_take {y : Bytes} : Reads (take n) x y ↔ x = y ∧ y.length = n := by
  constructor
  · intro h
    simpa using take_ok (h 0 [])
  · rintro ⟨rfl, rfl⟩ pos rest
    simp [take]

theorem blocks_ok {w : ℕ} {blocks : List Bytes} (h : repeated (take w) n r = .ok (blocks, r')) :
    r.rest = blocks.flatten ++ r'.rest ∧ blocks.length = n ∧ ∀ b ∈ blocks, b.length = w := by
  induction n generalizing r blocks with
  | zero =>
    obtain ⟨rfl, rfl⟩ := read_pure_ok.1 h
    simp
  | succ n ih =>
    obtain ⟨b, r₁, first, h⟩ := read_bind_ok.1 h
    obtain ⟨l, r₂, later, h⟩ := read_bind_ok.1 h
    obtain ⟨rfl, rfl⟩ := read_pure_ok.1 h
    obtain ⟨split, size⟩ := take_ok first
    obtain ⟨split', count, sizes⟩ := ih later
    refine ⟨by rw [split, split', flatten_cons, append_assoc], by simp [count], ?_⟩
    exact forall_mem_cons.2 ⟨size, sizes⟩

theorem blocks_reads {w : ℕ} {blocks : List Bytes} (sizes : ∀ b ∈ blocks, b.length = w) :
    Reads (repeated (take w) blocks.length) blocks.flatten blocks := by
  have read : Reads (repeated (take w) blocks.length) (blocks.flatMap id) blocks :=
    Reads.repeated fun b mem => reads_take.2 ⟨rfl, sizes b mem⟩
  rwa [flatMap_id] at read

theorem lift_ok {e : Except String α} : lift e r = .ok (a, r') ↔ e = .ok a ∧ r = r' := by
  cases e <;> simp [lift, Except.map]

theorem lift_reads {e : Except String α} (h : e = .ok a) : Reads (lift e) [] a := by
  subst h
  exact fun pos rest => rfl

end

/-! ### Lengths -/

section
variable {x : Bytes} {n turns i v : ℕ}

theorem local_next : Local next := by
  rintro ⟨pos, rest⟩ b r' h
  cases rest with
  | nil => cases h
  | cons byte rest =>
    cases h
    exact ⟨[b], rfl, fun pos rest => rfl⟩

theorem reads_next {b : UInt8} : Reads next x b ↔ x = [b] := by
  constructor
  · intro h
    have read := h 0 []
    cases x with
    | nil => cases read
    | cons byte rest =>
      simp only [append_nil, next, Except.ok.injEq, Prod.mk.injEq, Reader.mk.injEq] at read
      rw [read.1, read.2.2]
  · rintro rfl
    exact fun pos rest => rfl

theorem local_shortvecFrom (turns i v : ℕ) : Local (shortvecFrom turns i v) := by
  induction turns generalizing i v with
  | zero => exact Local.fail _
  | succ turns ih =>
    refine local_next.bind fun byte => ?_
    dsimp only
    split_ifs
    · exact Local.pure _
    · exact ih (i + 1) _

theorem local_shortvec : Local shortvec := local_shortvecFrom 3 0 0

theorem reads_group (low : v < 2 ^ (7 * i)) :
    Reads (shortvecFrom (turns + 1) i v) x n ↔
      ∃ (a : UInt8) (y : Bytes), x = a :: y ∧
        (a.toNat < 128 ∧ y = [] ∧ n = v + a.toNat * 2 ^ (7 * i) ∨ 128 ≤ a.toNat ∧
          Reads (shortvecFrom turns (i + 1) (v + (a.toNat - 128) * 2 ^ (7 * i))) y n) := by
  have grown (g : ℕ) : v ||| g <<< (7 * i) = v + g * 2 ^ (7 * i) := by
    rw [Nat.or_comm, shiftLeft_eq, Nat.mul_comm, ← two_pow_add_eq_or_of_lt low, Nat.add_comm]
  refine (reads_bind local_next fun byte => ?_).trans ?_
  · dsimp only
    split_ifs
    · exact Local.pure _
    · exact local_shortvecFrom _ _ _
  · constructor
    · rintro ⟨y, a, z, rfl, first, later⟩
      obtain rfl := reads_next.1 first
      have small := a.toNat_lt
      dsimp only at later
      split_ifs at later with last
      · obtain ⟨rfl, rfl⟩ := reads_pure.1 later
        refine ⟨a, [], rfl, .inl ⟨last, rfl, ?_⟩⟩
        rw [mod_eq_of_lt last, grown]
      · refine ⟨a, z, rfl, .inr ⟨Nat.le_of_not_lt last, ?_⟩⟩
        rwa [show a.toNat % 128 = a.toNat - 128 by omega, grown] at later
    · rintro ⟨a, y, rfl, ⟨last, rfl, rfl⟩ | ⟨more, later⟩⟩
      · refine ⟨[a], a, [], rfl, reads_next.2 rfl, ?_⟩
        dsimp only
        rw [if_pos last, mod_eq_of_lt last, grown]
        exact Reads.pure _
      · have small := a.toNat_lt
        refine ⟨[a], a, y, rfl, reads_next.2 rfl, ?_⟩
        dsimp only
        rwa [if_neg more.not_gt, show a.toNat % 128 = a.toNat - 128 by omega, grown]

theorem reads_shortvec : Reads shortvec x n ↔
    (∃ a : UInt8, x = [a] ∧ a.toNat < 128 ∧ n = a.toNat) ∨
    (∃ a b : UInt8, x = [a, b] ∧ 128 ≤ a.toNat ∧ b.toNat < 128 ∧
      n = a.toNat - 128 + b.toNat * 128) ∨
    ∃ a b c : UInt8, x = [a, b, c] ∧ 128 ≤ a.toNat ∧ 128 ≤ b.toNat ∧ c.toNat < 128 ∧
      n = a.toNat - 128 + (b.toNat - 128) * 128 + c.toNat * 16384 := by
  have first (a : UInt8) : 0 + (a.toNat - 128) * 2 ^ (7 * 0) < 2 ^ (7 * 1) := by
    have small := a.toNat_lt
    omega
  have second (a b : UInt8) :
      0 + (a.toNat - 128) * 2 ^ (7 * 0) + (b.toNat - 128) * 2 ^ (7 * 1) < 2 ^ (7 * 2) := by
    have small := a.toNat_lt
    have small' := b.toNat_lt
    omega
  constructor
  · intro h
    obtain ⟨a, y, rfl, ⟨last, rfl, rfl⟩ | ⟨more, h⟩⟩ := (reads_group (by norm_num)).1 h
    · exact .inl ⟨a, rfl, last, by omega⟩
    obtain ⟨b, z, rfl, ⟨last, rfl, rfl⟩ | ⟨more', h⟩⟩ := (reads_group (first a)).1 h
    · exact .inr (.inl ⟨a, b, rfl, more, last, by omega⟩)
    obtain ⟨c, u, rfl, ⟨last, rfl, rfl⟩ | ⟨-, h⟩⟩ := (reads_group (second a b)).1 h
    · exact .inr (.inr ⟨a, b, c, rfl, more, more', last, by omega⟩)
    · cases h 0 []
  · rintro (⟨a, rfl, last, rfl⟩ | ⟨a, b, rfl, more, last, rfl⟩ | ⟨a, b, c, rfl, more, more', last, rfl⟩)
    · exact (reads_group (by norm_num)).2 ⟨a, [], rfl, .inl ⟨last, rfl, by omega⟩⟩
    · refine (reads_group (by norm_num)).2 ⟨a, [b], rfl, .inr ⟨more, ?_⟩⟩
      exact (reads_group (first a)).2 ⟨b, [], rfl, .inl ⟨last, rfl, by omega⟩⟩
    · refine (reads_group (by norm_num)).2 ⟨a, [b, c], rfl, .inr ⟨more, ?_⟩⟩
      refine (reads_group (first a)).2 ⟨b, [c], rfl, .inr ⟨more', ?_⟩⟩
      exact (reads_group (second a b)).2 ⟨c, [], rfl, .inl ⟨last, rfl, by omega⟩⟩

/-- A length of at most 16 bits, spelled with no group more than it needs. -/
def Compact : Bytes → Bool
  | [_] => true
  | [_, b] => b ≠ 0
  | [_, _, c] => c ≠ 0 ∧ c ≤ 3
  | _ => false

theorem last_group (small : v < 128) : compactU16 v = [UInt8.ofNat v] := by
  rw [compactU16, if_pos (div_eq_of_lt small), mod_eq_of_lt small]

theorem more_groups (large : 128 ≤ v) :
    compactU16 v = UInt8.ofNat (v % 128 + 128) :: compactU16 (v / 128) := by
  rw [compactU16, if_neg (by omega)]

theorem compactU16_reads (small : n < 2 ^ 16) : Reads shortvec (compactU16 n) n := by
  have byte (m : ℕ) (h : m < 256) : (UInt8.ofNat m).toNat = m := by
    rw [UInt8.toNat_ofNat', mod_eq_of_lt h]
  apply reads_shortvec.2
  by_cases one : n < 128
  · refine .inl ⟨_, last_group one, ?_⟩
    rw [byte n (by omega)]
    exact ⟨one, rfl⟩
  rw [more_groups (by omega)]
  by_cases two : n / 128 < 128
  · refine .inr (.inl ⟨_, _, congrArg _ (last_group two), ?_⟩)
    rw [byte _ (by omega), byte _ (by omega)]
    omega
  · rw [more_groups (by omega)]
    refine .inr (.inr ⟨_, _, _, congrArg _ (congrArg _ (last_group (by omega))), ?_⟩)
    rw [byte _ (by omega), byte _ (by omega), byte _ (by omega)]
    omega

theorem compact_iff (h : Reads shortvec x n) :
    Compact x = true ↔ n < 2 ^ 16 ∧ compactU16 n = x := by
  have byte {a : UInt8} {m : ℕ} (h : a.toNat = m) : UInt8.ofNat m = a := by
    rw [← h, UInt8.ofNat_toNat]
  have zero (a : UInt8) : a ≠ 0 ↔ a.toNat ≠ 0 := by
    rw [ne_eq, ← UInt8.toNat_inj]; rfl
  rcases reads_shortvec.1 h with ⟨a, rfl, last, rfl⟩ | ⟨a, b, rfl, more, last, rfl⟩ |
    ⟨a, b, c, rfl, more, more', last, rfl⟩
  · rw [last_group last, byte rfl]
    exact iff_of_true rfl ⟨by omega, rfl⟩
  · have small := a.toNat_lt
    simp only [Compact, decide_eq_true_eq, zero]
    by_cases none : b.toNat = 0
    · rw [last_group (by omega)]
      simp [none]
    · rw [more_groups (by omega), last_group (by omega), byte (a := a) (by omega), byte (a := b) (by omega)]
      simp only [ne_eq, none, not_false_eq_true, and_true, true_iff]
      omega
  · have small := a.toNat_lt
    have small' := b.toNat_lt
    simp only [Compact, decide_eq_true_eq, zero, UInt8.le_iff_toNat_le]
    by_cases none : c.toNat = 0
    · refine ⟨fun h => absurd none h.1, ?_⟩
      rintro ⟨-, same⟩
      by_cases few : a.toNat - 128 + (b.toNat - 128) * 128 < 128
      · rw [none, Nat.zero_mul, Nat.add_zero, last_group few] at same
        simp at same
      · rw [none, more_groups (by omega), last_group (by omega)] at same
        simp at same
    · rw [more_groups (by omega), more_groups (by omega), last_group (by omega),
        byte (a := a) (by omega), byte (a := b) (by omega), byte (a := c) (by omega)]
      have three : (3 : UInt8).toNat = 3 := rfl
      simp only [ne_eq, none, not_false_eq_true, true_and, and_true, three]
      omega

end

/-! ### The layout -/

/-- The length prefixes of a transaction, each as it is spelled: an instruction has one before its
accounts and one before its data. -/
structure Prefixes where
  signatures : Bytes
  keys : Bytes
  instructions : Bytes
  each : List (Bytes × Bytes)
  lookups : Bytes

def WireInstruction.laid (ix : WireInstruction) (p : Bytes × Bytes) : Bytes :=
  ix.program ++ (p.1 ++ (ix.accounts ++ (p.2 ++ ix.data)))

def WireInstruction.compact (ix : WireInstruction) : Bytes × Bytes :=
  (compactU16 ix.accounts.length, compactU16 ix.data.length)

namespace Message

def required (m : Message) : ℕ := (m.header.headD 0).toNat

def laid (m : Message) (p : Prefixes) : Bytes :=
  (if m.versioned then 0x80 :: m.header else m.header) ++ (p.keys ++ (m.keys.flatten ++
    (m.recentBlockhash ++ (p.instructions ++
      ((zipWith WireInstruction.laid m.instructions p.each).flatten ++
        if m.versioned then p.lookups else [])))))

end Message

def Message.tx (m : Message) (signatures : List Bytes) (svms : List SvmInstruction) :
    ExternalSvmTx :=
  ⟨m.keys.take m.required, m.recentBlockhash, svms, signatures.headD []⟩

section
variable (signatures : List Bytes) (m : Message)

def laid (p : Prefixes) : Bytes := p.signatures ++ (signatures.flatten ++ m.laid p)

def compact : Prefixes where
  signatures := compactU16 signatures.length
  keys := compactU16 m.keys.length
  instructions := compactU16 m.instructions.length
  each := m.instructions.map WireInstruction.compact
  lookups := compactU16 0

def encode : Bytes := laid signatures m (compact signatures m)

/-- Every count has a compact form. -/
structure Short : Prop where
  signatures : signatures.length < 2 ^ 16
  keys : m.keys.length < 2 ^ 16
  instructions : m.instructions.length < 2 ^ 16
  accounts : ∀ ix ∈ m.instructions, ix.accounts.length < 2 ^ 16
  data : ∀ ix ∈ m.instructions, ix.data.length < 2 ^ 16

abbrev SpellsEach (ixs : List WireInstruction) (each : List (Bytes × Bytes)) : Prop :=
  Forall₂ (fun ix e => Reads shortvec e.1 ix.accounts.length ∧
    Reads shortvec e.2 ix.data.length) ixs each

/-- The prefixes spell the counts. -/
structure Spells (p : Prefixes) : Prop where
  signatures : Reads shortvec p.signatures signatures.length
  keys : Reads shortvec p.keys m.keys.length
  instructions : Reads shortvec p.instructions m.instructions.length
  each : SpellsEach m.instructions p.each
  lookups : m.versioned = true → Reads shortvec p.lookups 0

/-- The parts have their sizes, and each required signature is there. -/
structure Fits : Prop where
  sized : ∀ s ∈ signatures, s.length = 64
  header : m.header.length = 3
  legacy : m.versioned = false → m.required < 128
  keys : ∀ k ∈ m.keys, k.length = 32
  recentBlockhash : m.recentBlockhash.length = 32
  programs : ∀ ix ∈ m.instructions, ix.program.length = 1
  some_signer : m.required ≠ 0
  signed : m.required = signatures.length
  signers : m.required ≤ m.keys.length

end

def resolve (keys : List Bytes) (ix : WireInstruction) : Except String SvmInstruction := do
  let accounts ← ix.accounts.mapM (keyAt keys)
  let programId ← keyAt keys (ix.program.headD 0)
  return ⟨programId, accounts, ix.data⟩

/-! ### What is read -/

section
variable {keys : List Bytes} {x : Bytes} {ix : WireInstruction} {svm : SvmInstruction} {n : ℕ}

theorem head_version {header : Bytes} (size : header.length = 3) :
    Reads readHead (0x80 :: header) (true, header) := by
  intro pos rest
  have taken : take 3 ⟨pos + 1, header ++ rest⟩ = _ := reads_take.2 ⟨rfl, size⟩ (pos + 1) rest
  simp only [readHead, cons_append]
  rw [if_pos (by decide), if_neg (by decide)]
  simp only [Functor.map, StateT.map, taken, Bind.bind, Except.bind, length_cons, pure,
    Except.pure]
  rw [Nat.add_assoc, Nat.add_comm 1]

theorem head_legacy {header : Bytes} (size : header.length = 3)
    (low : (header.headD 0).toNat < 128) : Reads readHead header (false, header) := by
  intro pos rest
  have taken : take 3 ⟨pos, header ++ rest⟩ = _ := reads_take.2 ⟨rfl, size⟩ pos rest
  obtain ⟨a, tail, rfl⟩ := exists_cons_of_length_eq_add_one size
  rw [headD_cons] at low
  rw [cons_append] at taken
  simp only [readHead, cons_append, if_neg low.not_ge]
  simp only [Functor.map, StateT.map, taken, Bind.bind, Except.bind, pure, Except.pure]

theorem readHead_ok {r r' : Reader} {versioned : Bool} {header : Bytes}
    (h : readHead r = .ok ((versioned, header), r')) :
    r.rest = (if versioned then 0x80 :: header else header) ++ r'.rest ∧ header.length = 3 ∧
      (versioned = false → (header.headD 0).toNat < 128) := by
  have map_take {b : Bool} {r : Reader} (h : (Prod.mk b <$> take 3) r = .ok ((versioned, header), r')) :
      r.rest = header ++ r'.rest ∧ header.length = 3 ∧ b = versioned := by
    change (take 3 >>= fun x => pure (b, x)) r = _ at h
    obtain ⟨y, r₁, taken, h⟩ := read_bind_ok.1 h
    obtain ⟨same, rfl⟩ := read_pure_ok.1 h
    obtain ⟨rfl, rfl⟩ := Prod.mk.inj same
    exact ⟨(take_ok taken).1, (take_ok taken).2, rfl⟩
  obtain ⟨pos, rest⟩ := r
  unfold readHead at h
  cases rest with
  | nil => cases h
  | cons byte rest =>
    dsimp only at h
    split_ifs at h with high other
    · cases h
    · obtain ⟨split, size, rfl⟩ := map_take h
      have small := byte.toNat_lt
      have first : byte = 0x80 := UInt8.toNat_inj.1 (show byte.toNat = 128 by omega)
      dsimp only at split
      exact ⟨by rw [first, split]; rfl, size, nofun⟩
    · obtain ⟨split, size, rfl⟩ := map_take h
      refine ⟨split, size, fun _ => ?_⟩
      obtain ⟨a, tail, rfl⟩ := exists_cons_of_length_eq_add_one size
      obtain ⟨rfl, -⟩ := List.cons.inj split
      exact Nat.lt_of_not_le high

theorem reads_head {versioned : Bool} {header : Bytes} :
    Reads readHead x (versioned, header) ↔
      x = (if versioned then 0x80 :: header else header) ∧ header.length = 3 ∧
        (versioned = false → (header.headD 0).toNat < 128) := by
  constructor
  · intro h
    simpa using readHead_ok (h 0 [])
  · rintro ⟨rfl, size, low⟩
    cases versioned with
    | false => exact head_legacy size (low rfl)
    | true => exact head_version size

theorem instruction_ok {r r' : Reader} (h : readInstruction keys r = .ok ((ix, svm), r')) :
    ∃ e : Bytes × Bytes, r.rest = ix.laid e ++ r'.rest ∧ ix.program.length = 1 ∧
      resolve keys ix = .ok svm ∧ Reads shortvec e.1 ix.accounts.length ∧
      Reads shortvec e.2 ix.data.length := by
  obtain ⟨program, r₁, programmed, h⟩ := read_bind_ok.1 h
  obtain ⟨nacc, r₂, counted, h⟩ := read_bind_ok.1 h
  obtain ⟨indices, r₃, indexed, h⟩ := read_bind_ok.1 h
  obtain ⟨accounts, r₄, resolved, h⟩ := read_bind_ok.1 h
  obtain ⟨dlen, r₅, counted', h⟩ := read_bind_ok.1 h
  obtain ⟨data, r₆, carried, h⟩ := read_bind_ok.1 h
  obtain ⟨programId, r₇, found, h⟩ := read_bind_ok.1 h
  obtain ⟨same, rfl⟩ := read_pure_ok.1 h
  obtain ⟨rfl, rfl⟩ := Prod.mk.inj same
  obtain ⟨mapped, rfl⟩ := lift_ok.1 resolved
  obtain ⟨named, rfl⟩ := lift_ok.1 found
  obtain ⟨split₁, one⟩ := take_ok programmed
  obtain ⟨a, split₂, spelled⟩ := local_shortvec _ _ _ counted
  obtain ⟨split₃, rfl⟩ := take_ok indexed
  obtain ⟨d, split₄, spelled'⟩ := local_shortvec _ _ _ counted'
  obtain ⟨split₅, rfl⟩ := take_ok carried
  refine ⟨(a, d), ?_, one, ?_, spelled, spelled'⟩
  · rw [split₁, split₂, split₃, split₄, split₅]
    simp only [WireInstruction.laid, append_assoc]
  · simp only [resolve, bind_ok]
    exact ⟨_, mapped, _, named, rfl⟩

theorem instruction_reads {e : Bytes × Bytes} (one : ix.program.length = 1)
    (resolved : resolve keys ix = .ok svm) (accounts : Reads shortvec e.1 ix.accounts.length)
    (data : Reads shortvec e.2 ix.data.length) :
    Reads (readInstruction keys) (ix.laid e) (ix, svm) := by
  obtain ⟨found, mapped, h⟩ := bind_ok.1 resolved
  obtain ⟨programId, named, h⟩ := bind_ok.1 h
  obtain rfl := Except.ok.inj h
  refine Reads.seq (reads_take.2 ⟨rfl, one⟩) rfl ?_
  refine Reads.seq accounts rfl ?_
  refine Reads.seq (reads_take.2 ⟨rfl, rfl⟩) rfl ?_
  refine Reads.seq (lift_reads mapped) (nil_append _).symm ?_
  refine Reads.seq data rfl ?_
  refine Reads.seq (reads_take.2 ⟨rfl, rfl⟩) (append_nil _).symm ?_
  refine Reads.seq (lift_reads named) (nil_append _).symm ?_
  exact Reads.pure _

theorem instructions_ok {r r' : Reader} {read : List (WireInstruction × SvmInstruction)}
    (h : repeated (readInstruction keys) n r = .ok (read, r')) :
    ∃ each, r.rest = (zipWith WireInstruction.laid (read.map Prod.fst) each).flatten ++ r'.rest ∧
      read.length = n ∧ (∀ ix ∈ read.map Prod.fst, ix.program.length = 1) ∧
      (read.map Prod.fst).mapM (resolve keys) = .ok (read.map Prod.snd) ∧
      SpellsEach (read.map Prod.fst) each := by
  induction n generalizing r read with
  | zero =>
    obtain ⟨rfl, rfl⟩ := read_pure_ok.1 h
    exact ⟨[], rfl, rfl, nofun, rfl, .nil⟩
  | succ n ih =>
    obtain ⟨⟨ix, svm⟩, r₁, first, h⟩ := read_bind_ok.1 h
    obtain ⟨l, r₂, later, h⟩ := read_bind_ok.1 h
    obtain ⟨rfl, rfl⟩ := read_pure_ok.1 h
    obtain ⟨e, split, one, resolved, spelled⟩ := instruction_ok first
    obtain ⟨each, split', count, ones, all, spells⟩ := ih later
    refine ⟨e :: each, ?_, by simp [count], forall_mem_cons.2 ⟨one, ones⟩, ?_,
      .cons spelled spells⟩
    · rw [split, split', map_cons, zipWith_cons_cons, flatten_cons,
        append_assoc]
    · rw [map_cons, mapM_cons]
      exact bind_ok.2 ⟨_, resolved, bind_ok.2 ⟨_, all, rfl⟩⟩

theorem instructions_reads {ixs : List WireInstruction} {svms : List SvmInstruction}
    {each : List (Bytes × Bytes)} (ones : ∀ ix ∈ ixs, ix.program.length = 1)
    (resolved : ixs.mapM (resolve keys) = .ok svms) (spells : SpellsEach ixs each) :
    ∃ read, Reads (repeated (readInstruction keys) ixs.length)
        (zipWith WireInstruction.laid ixs each).flatten read ∧
      read.map Prod.fst = ixs ∧ read.map Prod.snd = svms := by
  induction spells generalizing svms with
  | nil =>
    obtain rfl := Except.ok.inj resolved
    exact ⟨[], Reads.pure [], rfl, rfl⟩
  | @cons ix e ixs each spelled spells ih =>
    rw [mapM_cons] at resolved
    obtain ⟨svm, first, resolved⟩ := bind_ok.1 resolved
    obtain ⟨svms, later, resolved⟩ := bind_ok.1 resolved
    obtain rfl := Except.ok.inj resolved
    obtain ⟨one, ones⟩ := forall_mem_cons.1 ones
    obtain ⟨read, reads, rfl, rfl⟩ := ih ones later
    refine ⟨(ix, svm) :: read, ?_, rfl, rfl⟩
    refine Reads.seq (instruction_reads one first spelled.1 spelled.2) rfl ?_
    exact Reads.seq reads (append_nil _).symm (Reads.pure _)

end

section
variable {signatures : List Bytes} {m : Message} {svms : List SvmInstruction} {r r' : Reader}
  {p : Prefixes}

theorem lookups_ok {versioned : Bool} {u : Unit} (h : readLookups versioned r = .ok (u, r')) :
    ∃ l, r.rest = (if versioned then l else []) ++ r'.rest ∧
      (versioned = true → Reads shortvec l 0) := by
  cases versioned with
  | false =>
    obtain ⟨-, rfl⟩ := read_pure_ok.1 h
    exact ⟨[], rfl, nofun⟩
  | true =>
    obtain ⟨n, r₁, counted, h⟩ := read_bind_ok.1 h
    obtain ⟨rfl, rfl⟩ := require_ok.1 h
    obtain ⟨l, split, spelled⟩ := local_shortvec _ _ _ counted
    exact ⟨l, split, fun _ => spelled⟩

theorem lookups_reads {versioned : Bool} {l : Bytes}
    (spelled : versioned = true → Reads shortvec l 0) :
    Reads (readLookups versioned) (if versioned then l else []) () := by
  cases versioned with
  | false => exact Reads.pure ()
  | true => exact Reads.seq (spelled rfl) (append_nil _).symm (Reads.require rfl _)

theorem message_ok {s : Bytes} (count : Reads shortvec s signatures.length)
    (sized : ∀ x ∈ signatures, x.length = 64)
    (h : readMessage signatures.length r = .ok ((m, svms), r')) :
    ∃ p, p.signatures = s ∧ r.rest = m.laid p ++ r'.rest ∧ Spells signatures m p ∧
      Fits signatures m ∧ m.instructions.mapM (resolve m.keys) = .ok svms := by
  obtain ⟨⟨versioned, header⟩, r₁, head, h⟩ := read_bind_ok.1 h
  obtain ⟨nkeys, r₂, counted, h⟩ := read_bind_ok.1 h
  obtain ⟨keys, r₃, carried, h⟩ := read_bind_ok.1 h
  obtain ⟨⟨⟩, r₄, checked, h⟩ := read_bind_ok.1 h
  obtain ⟨recentBlockhash, r₅, hashed, h⟩ := read_bind_ok.1 h
  obtain ⟨nix, r₆, counted', h⟩ := read_bind_ok.1 h
  obtain ⟨read, r₇, instructed, h⟩ := read_bind_ok.1 h
  obtain ⟨⟨⟩, r₈, looked, h⟩ := read_bind_ok.1 h
  obtain ⟨same, rfl⟩ := read_pure_ok.1 h
  obtain ⟨rfl, rfl⟩ := Prod.mk.inj same
  obtain ⟨⟨some_signer, signed, signers⟩, rfl⟩ := require_ok.1 checked
  obtain ⟨split₁, size, low⟩ := readHead_ok head
  obtain ⟨k, split₂, spelled⟩ := local_shortvec _ _ _ counted
  obtain ⟨split₃, rfl, keyed⟩ := blocks_ok carried
  obtain ⟨split₄, hash⟩ := take_ok hashed
  obtain ⟨i, split₅, spelled'⟩ := local_shortvec _ _ _ counted'
  obtain ⟨each, split₆, rfl, ones, resolved, spells⟩ := instructions_ok instructed
  obtain ⟨l, split₇, spelled''⟩ := lookups_ok looked
  refine ⟨⟨s, k, i, each, l⟩, rfl, ?_, ⟨count, spelled, ?_, spells, spelled''⟩,
    ⟨sized, size, low, keyed, hash, ones, some_signer, signed, signers⟩, resolved⟩
  · rw [split₁, split₂, split₃, split₄, split₅, split₆, split₇]
    simp only [Message.laid, append_assoc]
  · rwa [length_map]

theorem message_reads (spells : Spells signatures m p) (fits : Fits signatures m)
    (resolved : m.instructions.mapM (resolve m.keys) = .ok svms) :
    Reads (readMessage signatures.length) (m.laid p) (m, svms) := by
  obtain ⟨read, reads, ixs, rfl⟩ := instructions_reads fits.programs resolved spells.each
  refine Reads.seq (reads_head.2 ⟨rfl, fits.header, fits.legacy⟩) rfl ?_
  refine Reads.seq spells.keys rfl ?_
  refine Reads.seq (blocks_reads fits.keys) rfl ?_
  refine Reads.seq (Reads.require ⟨fits.some_signer, fits.signed, fits.signers⟩ _)
    (nil_append _).symm ?_
  refine Reads.seq (reads_take.2 ⟨rfl, fits.recentBlockhash⟩) rfl ?_
  refine Reads.seq spells.instructions rfl ?_
  refine Reads.seq reads rfl ?_
  refine Reads.seq (lookups_reads spells.lookups) (append_nil _).symm ?_
  rw [ixs]
  exact Reads.pure _

end

section
variable [Ed25519] {signatures : List Bytes} {m : Message} {tx : ExternalSvmTx} {raw : Bytes}

theorem decode_iff : decodeSvmWire raw = .ok (signatures, m, tx) ↔
    ∃ p svms, raw = laid signatures m p ∧ Spells signatures m p ∧ Fits signatures m ∧
      m.instructions.mapM (resolve m.keys) = .ok svms ∧
      verified signatures m.keys (m.laid p) = true ∧ tx = m.tx signatures svms := by
  constructor
  · intro h
    obtain ⟨⟨sigs, r⟩, signed, h⟩ := bind_ok.1 h
    obtain ⟨⟨⟨m, svms⟩, left⟩, messaged, h⟩ := bind_ok.1 h
    simp only [bind_ok, ensure_ok, exists_const] at h
    obtain ⟨done, good, h⟩ := h
    have same := Except.ok.inj h
    simp only [Prod.mk.injEq] at same
    obtain ⟨rfl, rfl, rfl⟩ := same
    obtain ⟨n, r₁, counted, signed⟩ := read_bind_ok.1 signed
    obtain ⟨s, split, spelled⟩ := local_shortvec _ _ _ counted
    obtain ⟨split', rfl, sized⟩ := blocks_ok signed
    obtain ⟨p, rfl, split'', spells, fits, resolved⟩ := message_ok spelled sized messaged
    rw [done, append_nil] at split''
    dsimp only at split''
    refine ⟨p, svms, ?_, spells, fits, resolved, split'' ▸ good, rfl⟩
    dsimp only at split
    rw [split, split', split'', laid]
  · rintro ⟨p, svms, rfl, spells, fits, resolved, good, rfl⟩
    have signed : Reads (do repeated (take 64) (← shortvec)) (p.signatures ++ signatures.flatten)
        signatures := Reads.seq spells.signatures rfl (blocks_reads fits.sized)
    have messaged := message_reads spells fits resolved 0 []
    rw [append_nil] at messaged
    have first := signed 0 (m.laid p)
    rw [append_assoc] at first
    refine bind_ok.2 ⟨_, first, ?_⟩
    refine bind_ok.2 ⟨_, messaged, ?_⟩
    simp only [bind_ok, ensure_ok, exists_const]
    exact ⟨trivial, good, rfl⟩

/-! ### One form -/

def spelledLength : Read (Bytes × ℕ) := fun r =>
  (shortvec r).map fun n => ((r.rest.take (n.2.position - r.position), n.1), n.2)

def instructionLengths : Read (List Bytes) := do
  let _ ← take 1
  let (accounts, nacc) ← spelledLength
  let _ ← take nacc
  let (data, dlen) ← spelledLength
  let _ ← take dlen
  return [accounts, data]

def lengthPrefixes : Read (List Bytes) := do
  let (signatures, nsig) ← spelledLength
  let _ ← repeated (take 64) nsig
  let (versioned, _) ← readHead
  let (keys, nkeys) ← spelledLength
  let _ ← repeated (take 32) nkeys
  let _ ← take 32
  let (instructions, nix) ← spelledLength
  let each ← repeated instructionLengths nix
  let lookups ← (if versioned then (fun l => [l.1]) <$> spelledLength
    else pure [] : Read (List Bytes))
  return signatures :: keys :: instructions :: (each.flatten ++ lookups)

def AllCompact (raw : Bytes) : Prop :=
  ∃ prefixes, decodeWith lengthPrefixes raw = .ok prefixes ∧ ∀ x ∈ prefixes, Compact x = true

def Prefixes.all (p : Prefixes) (versioned : Bool) : List Bytes :=
  p.signatures :: p.keys :: p.instructions ::
    (p.each.flatMap (fun e => [e.1, e.2]) ++ if versioned then [p.lookups] else [])

omit [Ed25519] in
theorem spelledLength_reads {x : Bytes} {n : ℕ} (h : Reads shortvec x n) :
    Reads spelledLength x (x, n) := by
  intro pos rest
  simp [spelledLength, h pos rest, Except.map]

omit [Ed25519] in
theorem instructionLengths_reads {ixs : List WireInstruction} {each : List (Bytes × Bytes)}
    (ones : ∀ ix ∈ ixs, ix.program.length = 1) (spells : SpellsEach ixs each) :
    Reads (repeated instructionLengths ixs.length)
      (zipWith WireInstruction.laid ixs each).flatten (each.map fun e => [e.1, e.2]) := by
  induction spells with
  | nil => exact Reads.pure []
  | @cons ix e ixs each spelled spells ih =>
    obtain ⟨one, ones⟩ := forall_mem_cons.1 ones
    refine Reads.seq (x := ix.laid e) (a := [e.1, e.2]) ?_ rfl
      (Reads.seq (ih ones) (append_nil _).symm (Reads.pure _))
    refine Reads.seq (reads_take.2 ⟨rfl, one⟩) rfl ?_
    refine Reads.seq (spelledLength_reads spelled.1) rfl ?_
    refine Reads.seq (reads_take.2 ⟨rfl, rfl⟩) rfl ?_
    refine Reads.seq (spelledLength_reads spelled.2) rfl ?_
    exact Reads.seq (reads_take.2 ⟨rfl, rfl⟩) (append_nil _).symm (Reads.pure _)

omit [Ed25519] in
theorem lengthPrefixes_reads {p : Prefixes} (spells : Spells signatures m p)
    (fits : Fits signatures m) :
    Reads lengthPrefixes (laid signatures m p) (p.all m.versioned) := by
  have lookups : Reads (if m.versioned then (fun l => [l.1]) <$> spelledLength else pure [])
      (if m.versioned then p.lookups else []) (if m.versioned then [p.lookups] else []) := by
    cases versioned : m.versioned with
    | false => exact Reads.pure []
    | true => exact (spelledLength_reads (spells.lookups versioned)).map
  refine Reads.seq (spelledLength_reads spells.signatures) rfl ?_
  refine Reads.seq (blocks_reads fits.sized) rfl ?_
  refine Reads.seq (reads_head.2 ⟨rfl, fits.header, fits.legacy⟩) rfl ?_
  refine Reads.seq (spelledLength_reads spells.keys) rfl ?_
  refine Reads.seq (blocks_reads fits.keys) rfl ?_
  refine Reads.seq (reads_take.2 ⟨rfl, fits.recentBlockhash⟩) rfl ?_
  refine Reads.seq (spelledLength_reads spells.instructions) rfl ?_
  refine Reads.seq (instructionLengths_reads fits.programs spells.each) rfl ?_
  refine Reads.seq lookups (append_nil _).symm ?_
  rw [Prefixes.all, flatMap_def]
  exact Reads.pure _

omit [Ed25519] in
theorem compact_spells (short : Short signatures m) :
    Spells signatures m (compact signatures m) where
  signatures := compactU16_reads short.signatures
  keys := compactU16_reads short.keys
  instructions := compactU16_reads short.instructions
  each := by
    refine forall₂_map_right_iff.2 (forall₂_same.2 fun ix mem => ?_)
    exact ⟨compactU16_reads (short.accounts ix mem), compactU16_reads (short.data ix mem)⟩
  lookups _ := compactU16_reads (by norm_num)

omit [Ed25519] in
theorem each_compact {ixs : List WireInstruction} {each : List (Bytes × Bytes)}
    (spells : SpellsEach ixs each) (all : ∀ e ∈ each, Compact e.1 = true ∧ Compact e.2 = true) :
    each = ixs.map WireInstruction.compact ∧
      ∀ ix ∈ ixs, ix.accounts.length < 2 ^ 16 ∧ ix.data.length < 2 ^ 16 := by
  induction spells with
  | nil => exact ⟨rfl, nofun⟩
  | @cons ix e ixs each spelled spells ih =>
    obtain ⟨first, all⟩ := forall_mem_cons.1 all
    obtain ⟨rfl, small⟩ := ih all
    obtain ⟨accounts, same⟩ := (compact_iff spelled.1).1 first.1
    obtain ⟨data, same'⟩ := (compact_iff spelled.2).1 first.2
    refine ⟨?_, forall_mem_cons.2 ⟨⟨accounts, data⟩, small⟩⟩
    rw [map_cons, WireInstruction.compact, same, same']

omit [Ed25519] in
theorem laid_compact {p : Prefixes} (spells : Spells signatures m p)
    (all : ∀ x ∈ p.all m.versioned, Compact x = true) :
    Short signatures m ∧ encode signatures m = laid signatures m p := by
  simp only [Prefixes.all, forall_mem_cons, forall_mem_append] at all
  obtain ⟨signed, keyed, counted, paired, looked⟩ := all
  obtain ⟨signs, same⟩ := (compact_iff spells.signatures).1 signed
  obtain ⟨keys, same'⟩ := (compact_iff spells.keys).1 keyed
  obtain ⟨ixs, same''⟩ := (compact_iff spells.instructions).1 counted
  obtain ⟨each, small⟩ := each_compact spells.each fun e mem =>
    ⟨paired e.1 (mem_flatMap.2 ⟨e, mem, by simp⟩),
      paired e.2 (mem_flatMap.2 ⟨e, mem, by simp⟩)⟩
  refine ⟨⟨signs, keys, ixs, fun ix mem => (small ix mem).1, fun ix mem => (small ix mem).2⟩, ?_⟩
  have lookups : (if m.versioned then compactU16 0 else []) =
      if m.versioned then p.lookups else [] := by
    cases versioned : m.versioned with
    | false => rfl
    | true =>
      refine ((compact_iff (spells.lookups versioned)).1 ?_).2
      exact looked p.lookups (by simp [versioned])
  simp only [encode, laid, Message.laid, compact, same, same', same'', ← each, lookups]

omit [Ed25519] in
theorem all_compact (short : Short signatures m) :
    ∀ x ∈ (compact signatures m).all m.versioned, Compact x = true := by
  have spells := compact_spells short
  simp only [Prefixes.all, forall_mem_cons, forall_mem_append]
  refine ⟨(compact_iff spells.signatures).2 ⟨short.signatures, rfl⟩,
    (compact_iff spells.keys).2 ⟨short.keys, rfl⟩,
    (compact_iff spells.instructions).2 ⟨short.instructions, rfl⟩, ?_, ?_⟩
  · simp only [compact, mem_flatMap, mem_map, mem_cons, not_mem_nil, or_false]
    rintro x ⟨e, ⟨ix, mem, rfl⟩, rfl | rfl⟩
    · have small := short.accounts ix mem
      exact (compact_iff (compactU16_reads small)).2 ⟨small, rfl⟩
    · have small := short.data ix mem
      exact (compact_iff (compactU16_reads small)).2 ⟨small, rfl⟩
  · intro x mem
    split_ifs at mem with versioned
    · obtain rfl := mem_singleton.1 mem
      exact (compact_iff (spells.lookups versioned)).2 ⟨by norm_num, rfl⟩
    · cases mem

/-- Whatever decodes is in canonical form when its length prefixes are compact, and every
canonical form that fits, resolves and verifies decodes. -/
theorem canonical_iff (h : decodeSvmWire raw = .ok (signatures, m, tx)) :
    (Short signatures m ∧ encode signatures m = raw ↔ AllCompact raw) ∧
    ∀ (signatures : List Bytes) (m : Message) (svms : List SvmInstruction), Short signatures m →
      Fits signatures m → m.instructions.mapM (resolve m.keys) = .ok svms →
      verified signatures m.keys (m.laid (compact signatures m)) = true →
      decodeSvmWire (encode signatures m) = .ok (signatures, m, m.tx signatures svms) := by
  obtain ⟨p, svms, rfl, spells, fits, -⟩ := decode_iff.1 h
  have walk := lengthPrefixes_reads spells fits
  refine ⟨⟨?_, ?_⟩, ?_⟩
  · rintro ⟨short, same⟩
    have walk' := lengthPrefixes_reads (compact_spells short) fits
    change Reads _ (encode signatures m) _ at walk'
    rw [same] at walk'
    exact ⟨_, walk'.decodeWith, all_compact short⟩
  · rintro ⟨prefixes, walked, all⟩
    obtain rfl := Except.ok.inj (walk.decodeWith.symm.trans walked)
    exact laid_compact spells all
  · intro signatures m svms short fits resolved good
    exact decode_iff.2 ⟨_, svms, rfl, compact_spells short, fits, resolved, good, rfl⟩

end

/-! ### A count spelled twice -/

namespace Sample

def sign (key msg : Bytes) : Bytes := beBytes 64 (ofBeBytes (key ++ msg) % (2 ^ 512 - 569))

@[reducible] def crypto : Ed25519 where
  isPoint key := key.length = 32
  verifyStrict key msg signature := signature = sign key msg

attribute [local instance] crypto

def payer : Bytes := beBytes 32 5

/-- One signer and one instruction to the second key. -/
def message : Message where
  versioned := true
  header := [1, 0, 1]
  keys := [payer, beBytes 32 0x44]
  recentBlockhash := beBytes 32 0xab
  instructions := [⟨[1], [0], [2, 0, 0, 0]⟩]

def msg : Bytes := message.laid (compact [[]] message)

def signatures : List Bytes := [sign payer msg]

def tx : ExternalSvmTx :=
  message.tx signatures [⟨beBytes 32 0x44, [payer], [2, 0, 0, 0]⟩]

def short : Bytes := 1 :: (sign payer msg ++ msg)

/-- The signature count with a group of zeros more. -/
def long : Bytes := 0x81 :: 0 :: (sign payer msg ++ msg)

theorem canonical_iff_short : Short signatures message ∧ encode signatures message = short := by
  have decoded : decodeSvmWire short = .ok (signatures, message, tx) := by decide +kernel
  have walked : decodeWith lengthPrefixes short = .ok [[1], [2], [1], [1], [4], [0]] := by
    decide +kernel
  exact (canonical_iff decoded).1.2 ⟨_, walked, by decide⟩

/-- Two spellings of one transaction are accepted. -/
theorem spelled_twice : decodeSvmWire short = .ok (signatures, message, tx) ∧
    decodeSvmWire long = .ok (signatures, message, tx) ∧ encode signatures message ≠ long ∧
    short ≠ long := by
  decide +kernel

end Sample

end Tenzro.SvmWire
