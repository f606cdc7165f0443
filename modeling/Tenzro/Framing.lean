import Tenzro.ByteCodec
import Tenzro.Outcome

set_option autoImplicit false

/-!
# Frames of the consensus wire

Messages to one peer are packed, in order, into frames that a receiver accepts. What a
message carries is opaque here: bincode writes and reads it.
-/

namespace Tenzro.Wire
open List hiding take
open ByteCodec Outcome

/-! ### Bincode -/

/-- What the reader accepts is what the writer wrote, and the value written. -/
def Written {α : Type} (read : Read α) (encode : α → Bytes) : Prop :=
  ∀ ⦃r a r'⦄, read r = .ok (a, r') → r.rest = encode a ++ r'.rest

/-- Bincode's fixed-width encoding of a type: every value has one encoding, of a byte at
least, and it is the only one read. -/
class Bincode (α : Type) where
  encode : α → Bytes
  read : Read α
  reads (a : α) : Reads read (encode a) a
  written : Written read encode
  occupied (a : α) : encode a ≠ []

section
variable {α β : Type} {f : Read α} {encode : α → Bytes} {l : List α} {r r' : Reader}

theorem written_take (n : ℕ) : Written (take n) id := by
  intro r b r' h
  unfold take malformed at h
  split_ifs at h
  cases h
  exact (take_append_drop n r.rest).symm

theorem written_readLe (w : ℕ) : Written (readLe w) (leBytes w) := by
  intro r n r' h
  obtain ⟨b, r₁, taken, value⟩ := read_bind_ok.1 h
  obtain ⟨rfl, rfl⟩ := read_pure_ok.1 value
  rw [← take_ok taken, leBytes_ofLeBytes]
  exact written_take w taken

theorem read_map_ok {g : α → β} {b : β} :
    (g <$> f) r = .ok (b, r') ↔ ∃ a, f r = .ok (a, r') ∧ g a = b := by
  change (f >>= fun a => pure (g a)) r = _ ↔ _
  simp only [read_bind_ok, read_pure_ok]
  constructor
  · rintro ⟨a, _, first, rfl, rfl⟩
    exact ⟨a, first, rfl⟩
  · rintro ⟨a, first, rfl⟩
    exact ⟨a, r', first, rfl, rfl⟩

def encodeVec (encode : α → Bytes) (l : List α) : Bytes := leBytes 8 l.length ++ l.flatMap encode

def readVec (f : Read α) : Read (List α) := do repeated f (← readLe 8)

theorem reads_vec (short : l.length < 256 ^ 8) (each : ∀ a ∈ l, Reads f (encode a) a) :
    Reads (readVec f) (encodeVec encode l) l :=
  (Reads.readLe short).bind (Reads.repeated each)

theorem written_repeated (each : Written f encode) (n : ℕ) :
    Written (repeated f n) fun l => l.flatMap encode := by
  induction n with
  | zero =>
    intro r l r' h
    obtain ⟨rfl, rfl⟩ := read_pure_ok.1 h
    rfl
  | succ n ih =>
    intro r l r' h
    obtain ⟨a, r₁, first, h⟩ := read_bind_ok.1 h
    obtain ⟨rest, r₂, later, h⟩ := read_bind_ok.1 h
    obtain ⟨rfl, rfl⟩ := read_pure_ok.1 h
    rw [each first, ih later]
    exact (append_assoc ..).symm

theorem written_vec (each : Written f encode) : Written (readVec f) (encodeVec encode) := by
  intro r l r' h
  obtain ⟨n, r₁, count, elements⟩ := read_bind_ok.1 h
  obtain rfl := (repeated_ok elements).1
  rw [written_readLe 8 count, written_repeated each _ elements, encodeVec, append_assoc]

theorem length_le_flatMap (occupied : ∀ a, encode a ≠ []) (l : List α) :
    l.length ≤ (l.flatMap encode).length := by
  induction l with
  | nil => simp
  | cons a l ih =>
    have here := length_pos_iff.2 (occupied a)
    rw [flatMap_cons, length_append, length_cons]
    omega

theorem length_le_of_mem (encode : α → Bytes) {a : α} (mem : a ∈ l) :
    (encode a).length ≤ (l.flatMap encode).length := by
  obtain ⟨before, after, rfl⟩ := append_of_mem mem
  simp only [flatMap_append, flatMap_cons, length_append]
  omega

end

instance : Bincode UInt64 where
  encode n := leBytes 8 n.toNat
  read := UInt64.ofNat <$> readLe 8
  reads n := by
    have read := (Reads.readLe (w := 8) n.toNat_lt).map (g := UInt64.ofNat)
    rwa [UInt64.ofNat_toNat] at read
  written := by
    intro r n r' h
    obtain ⟨m, read, rfl⟩ := read_map_ok.1 h
    have small : (UInt64.ofNat m).toNat = m := UInt64.toNat_ofNat_of_lt' (readLe_ok read)
    simp only [small]
    exact written_readLe 8 read
  occupied n := by simp [leBytes]

def encodeOption : Option UInt64 → Bytes
  | none => [0]
  | some n => 1 :: Bincode.encode n

def readOption : Read (Option UInt64) := do
  match ← take 1 with
  | [0] => return none
  | [1] => some <$> Bincode.read
  | _ => fail "invalid option tag"

theorem reads_option (o : Option UInt64) : Reads readOption (encodeOption o) o := by
  cases o with
  | none => exact (Reads.take (x := [0]) rfl).bind (Reads.pure _)
  | some n => exact (Reads.take (x := [1]) rfl).bind (Reads.map (Bincode.reads n))

theorem written_option : Written readOption encodeOption := by
  intro r o r' h
  obtain ⟨tag, r₁, taken, h⟩ := read_bind_ok.1 h
  rw [written_take 1 taken]
  split at h
  · obtain ⟨rfl, rfl⟩ := read_pure_ok.1 h
    rfl
  · obtain ⟨n, read, rfl⟩ := read_map_ok.1 h
    rw [Bincode.written read]
    rfl
  · cases h

/-! ### Messages -/

def MAX_FRAME_BYTES : ℕ := 8 * 2 ^ 20

def MAX_FRAME_ITEMS : ℕ := 65536

/-- Largest number of digests in one fetch request. -/
def MAX_FETCH : ℕ := 1024

/-- The types a message is built from, each with its bincode encoding. -/
inductive Payload
  | vertex | signal | batchPayload | digest | checkpointVote | certificate | vertexRef
  | orderingState

variable {P : Payload → Type}

/-- A validator's position in its epoch. -/
structure Frontier (P : Payload → Type) where
  round : Option UInt64
  highest : List (P .vertexRef)
  nextCheckpoint : UInt64

inductive Message (P : Payload → Type)
  | propose (vertex : P .vertex)
  | signals (signals : List (P .signal))
  | batch (batch : P .batchPayload)
  | fetchVertices (digests : List (P .digest))
  | vertices (vertices : List (P .vertex))
  | fetchBatches (digests : List (P .digest))
  | batches (batches : List (P .batchPayload))
  | vote (vote : P .checkpointVote)
  | certificate (certificate : P .certificate)
  | frontier (frontier : Frontier P)
  | fetchOrdering (index : UInt64)
  | ordering (state : P .orderingState)

/-- Messages to one peer, authenticated together. -/
structure Frame (P : Payload → Type) where
  epoch : UInt64
  items : List (Message P)

def Message.refused : Message P → Option String
  | fetchVertices d | fetchBatches d =>
    if MAX_FETCH < d.length then some "fetch asks for too much" else none
  | frontier f =>
    if MAX_FETCH < f.highest.length then some "frontier names too many vertices" else none
  | _ => none

def Message.named : Message P → ℕ
  | fetchVertices d | fetchBatches d => d.length
  | frontier f => f.highest.length
  | _ => 0

theorem Message.refused_eq_none {m : Message P} : m.refused = none ↔ m.named ≤ MAX_FETCH := by
  cases m <;> simp [refused, named]

def Message.parts : Message P → List (Message P)
  | signals l => l.map fun s => signals [s]
  | vertices l => l.map fun v => vertices [v]
  | batches l => l.map fun b => batches [b]
  | m => [m]

variable [∀ k, Bincode (P k)]

def Frontier.encode (f : Frontier P) : Bytes :=
  encodeOption f.round ++ (encodeVec Bincode.encode f.highest ++ Bincode.encode f.nextCheckpoint)

def Frontier.read : Read (Frontier P) := do
  let round ← readOption
  let highest ← readVec Bincode.read
  let nextCheckpoint ← Bincode.read
  return ⟨round, highest, nextCheckpoint⟩

def Message.encode : Message P → Bytes
  | propose v => leBytes 4 0 ++ Bincode.encode v
  | signals l => leBytes 4 1 ++ encodeVec Bincode.encode l
  | batch b => leBytes 4 2 ++ Bincode.encode b
  | fetchVertices l => leBytes 4 3 ++ encodeVec Bincode.encode l
  | vertices l => leBytes 4 4 ++ encodeVec Bincode.encode l
  | fetchBatches l => leBytes 4 5 ++ encodeVec Bincode.encode l
  | batches l => leBytes 4 6 ++ encodeVec Bincode.encode l
  | vote v => leBytes 4 7 ++ Bincode.encode v
  | certificate c => leBytes 4 8 ++ Bincode.encode c
  | frontier f => leBytes 4 9 ++ f.encode
  | fetchOrdering index => leBytes 4 10 ++ Bincode.encode index
  | ordering s => leBytes 4 11 ++ Bincode.encode s

def Message.read : Read (Message P) := do
  match ← readLe 4 with
  | 0 => propose <$> Bincode.read
  | 1 => signals <$> readVec Bincode.read
  | 2 => batch <$> Bincode.read
  | 3 => fetchVertices <$> readVec Bincode.read
  | 4 => vertices <$> readVec Bincode.read
  | 5 => fetchBatches <$> readVec Bincode.read
  | 6 => batches <$> readVec Bincode.read
  | 7 => vote <$> Bincode.read
  | 8 => certificate <$> Bincode.read
  | 9 => frontier <$> Frontier.read
  | 10 => fetchOrdering <$> Bincode.read
  | 11 => ordering <$> Bincode.read
  | _ => fail "invalid variant"

def Frame.encode (f : Frame P) : Bytes := Bincode.encode f.epoch ++ encodeVec Message.encode f.items

def Frame.read : Read (Frame P) := do
  let epoch ← Bincode.read
  let items ← readVec Message.read
  return ⟨epoch, items⟩

def Frame.decode (bytes : Bytes) : Except String (Frame P) :=
  if MAX_FRAME_BYTES < bytes.length then .error "frame too large"
  else do
    let frame ← decodeWith Frame.read bytes
    if MAX_FRAME_ITEMS < frame.items.length then .error "frame has too many items"
    else match frame.items.findSome? Message.refused with
      | some e => .error e
      | none => .ok frame

/-! ### Packing -/

/-- Room for messages in one frame, whose epoch and item count take 16 bytes. -/
def FRAME_BUDGET : ℕ := MAX_FRAME_BYTES - 16

/-- What a message of a list takes beside its elements. -/
def LIST_MESSAGE_OVERHEAD : ℕ := 12

/-- Packs messages, in order, into frames within the bounds. -/
structure Packer (P : Payload → Type) where
  epoch : UInt64
  frames : List Bytes
  current : List (Message P)
  used : ℕ
  leftOut : ℕ

def Packer.flush (p : Packer P) : Packer P :=
  if p.current.isEmpty then p
  else { p with frames := p.frames ++ [Frame.encode ⟨p.epoch, p.current⟩], current := [], used := 0 }

def Packer.push (p : Packer P) (m : Message P) (size : ℕ) : Packer P :=
  let p := if ¬ p.current.isEmpty ∧
      (FRAME_BUDGET < p.used + size ∨ MAX_FRAME_ITEMS ≤ p.current.length) then p.flush else p
  { p with used := p.used + size, current := p.current ++ [m] }

/-- The locals of the splitting loop. -/
structure Split (P : Payload → Type) (α : Type) where
  packer : Packer P
  chunk : List α
  chunkSize : ℕ

section
variable {α : Type} [Bincode α]

def Split.add (wrap : List α → Message P) (s : Split P α) (e : α) : Split P α :=
  let size := (Bincode.encode e).length
  let room := FRAME_BUDGET - LIST_MESSAGE_OVERHEAD
  if room < size then { s with packer.leftOut := s.packer.leftOut + 1 }
  else
    let s := if room < s.chunkSize + size then
      ⟨s.packer.push (wrap s.chunk) (s.chunkSize + LIST_MESSAGE_OVERHEAD), [], 0⟩ else s
    { s with chunk := s.chunk ++ [e], chunkSize := s.chunkSize + size }

def Packer.split (p : Packer P) (elements : List α) (wrap : List α → Message P) : Packer P :=
  let s := elements.foldl (Split.add wrap) ⟨p, [], 0⟩
  if s.chunk.isEmpty then s.packer
  else s.packer.push (wrap s.chunk) (s.chunkSize + LIST_MESSAGE_OVERHEAD)

end

def Packer.add (p : Packer P) (m : Message P) : Packer P :=
  if m.encode.length ≤ FRAME_BUDGET then p.push m m.encode.length
  else match m with
    | .signals v => p.split v .signals
    | .vertices v => p.split v .vertices
    | .batches v => p.split v .batches
    | _ => { p with leftOut := p.leftOut + 1 }

def Frame.encodeBounded (epoch : UInt64) (items : List (Message P)) : List Bytes × ℕ :=
  let packer := (items.foldl Packer.add ⟨epoch, [], [], 0, 0⟩).flush
  (packer.frames, packer.leftOut)

/-! ### What is read is what was written -/

theorem reads_frontier {f : Frontier P} (short : f.encode.length < 256 ^ 8) :
    Reads Frontier.read f.encode f := by
  have elements := length_le_flatMap Bincode.occupied f.highest
  simp only [Frontier.encode, encodeVec, length_append] at short
  exact (reads_option f.round).bind ((reads_vec (by omega) fun v _ => Bincode.reads v).bind
    (Reads.map (g := fun n => Frontier.mk f.round f.highest n) (Bincode.reads f.nextCheckpoint)))

theorem written_frontier : Written Frontier.read (Frontier.encode (P := P)) := by
  intro r f r' h
  obtain ⟨round, r₁, first, h⟩ := read_bind_ok.1 h
  obtain ⟨highest, r₂, second, h⟩ := read_bind_ok.1 h
  obtain ⟨next, r₃, third, h⟩ := read_bind_ok.1 h
  obtain ⟨rfl, rfl⟩ := read_pure_ok.1 h
  rw [written_option first, written_vec Bincode.written second, Bincode.written third]
  simp [Frontier.encode]

theorem reads_message {m : Message P} (short : m.encode.length < 256 ^ 8) :
    Reads Message.read m.encode m := by
  have vec {k : Payload} {l : List (P k)} {tag : ℕ}
      (short : (leBytes 4 tag ++ encodeVec Bincode.encode l).length < 256 ^ 8) :
      Reads (readVec Bincode.read) (encodeVec Bincode.encode l) l := by
    have elements := length_le_flatMap Bincode.occupied l
    simp only [encodeVec, length_append] at short
    exact reads_vec (by omega) fun a _ => Bincode.reads a
  cases m with
  | propose v | batch v | vote v | certificate v | fetchOrdering v | ordering v =>
    exact (Reads.readLe (w := 4) (by decide)).bind (Reads.map (Bincode.reads v))
  | signals l | fetchVertices l | vertices l | fetchBatches l | batches l =>
    exact (Reads.readLe (w := 4) (by decide)).bind (Reads.map (vec short))
  | frontier f =>
    rw [Message.encode, length_append] at short
    exact (Reads.readLe (w := 4) (by decide)).bind (Reads.map (reads_frontier (by omega)))

theorem written_message : Written Message.read (Message.encode (P := P)) := by
  intro r m r' h
  obtain ⟨tag, r₁, tagged, h⟩ := read_bind_ok.1 h
  rw [written_readLe 4 tagged]
  split at h
  case h_1 | h_3 | h_8 | h_9 | h_11 | h_12 =>
    obtain ⟨v, read, rfl⟩ := read_map_ok.1 h
    rw [Bincode.written read, Message.encode, append_assoc]
  case h_10 =>
    obtain ⟨f, read, rfl⟩ := read_map_ok.1 h
    rw [written_frontier read, Message.encode, append_assoc]
  case h_13 => cases h
  all_goals
    obtain ⟨l, read, rfl⟩ := read_map_ok.1 h
    rw [written_vec Bincode.written read, Message.encode, append_assoc]

theorem Message.occupied (m : Message P) : m.encode ≠ [] := by
  cases m <;> simp [encode, leBytes]

theorem Frame.length_encode (f : Frame P) :
    f.encode.length = 16 + (f.items.flatMap Message.encode).length := by
  simp [encode, encodeVec, Bincode.encode, ← Nat.add_assoc]

theorem reads_frame {f : Frame P} (short : f.encode.length < 256 ^ 8) :
    Reads Frame.read f.encode f := by
  rw [Frame.length_encode] at short
  have items := length_le_flatMap Message.occupied f.items
  refine (Reads.bind (Bincode.reads f.epoch)
    (Reads.map (g := Frame.mk f.epoch) (reads_vec (by omega) fun m mem => reads_message ?_)))
  have part := length_le_of_mem Message.encode mem
  omega

theorem written_frame : Written Frame.read (Frame.encode (P := P)) := by
  intro r f r' h
  obtain ⟨epoch, r₁, first, h⟩ := read_bind_ok.1 h
  obtain ⟨items, r₂, second, h⟩ := read_bind_ok.1 h
  obtain ⟨rfl, rfl⟩ := read_pure_ok.1 h
  rw [Bincode.written first, written_vec written_message second]
  exact (append_assoc ..).symm

/-- Within the bounds a receiver checks. -/
structure Frame.Within (f : Frame P) : Prop where
  bytes : f.encode.length ≤ MAX_FRAME_BYTES
  items : f.items.length ≤ MAX_FRAME_ITEMS
  named : ∀ m ∈ f.items, m.named ≤ MAX_FETCH

theorem Frame.decode_ok {b : Bytes} {f : Frame P} :
    decode b = .ok f ↔ f.encode = b ∧ f.Within := by
  have short {n : ℕ} (small : n ≤ MAX_FRAME_BYTES) : n < 256 ^ 8 := by
    unfold MAX_FRAME_BYTES at small
    omega
  unfold decode
  rw [Outcome.ite_ok, bind_ok]
  constructor
  · rintro ⟨small, g, read, h⟩
    rw [ite_ok] at h
    obtain ⟨few, h⟩ := h
    split at h
    · cases h
    next allowed =>
    cases h
    obtain ⟨r, read, nothing⟩ := decodeWith_ok.1 read
    have whole := written_frame read
    rw [nothing, append_nil] at whole
    subst whole
    rw [findSome?_eq_none_iff] at allowed
    exact ⟨rfl, by simpa using small, not_lt.1 few, fun m mem =>
      Message.refused_eq_none.1 (allowed m mem)⟩
  · rintro ⟨rfl, bytes, items, named⟩
    refine ⟨not_lt.2 bytes, f, (reads_frame (short bytes)).decodeWith, ?_⟩
    have allowed : f.items.findSome? Message.refused = none :=
      findSome?_eq_none_iff.2 fun m mem => Message.refused_eq_none.2 (named m mem)
    rw [if_neg (not_lt.2 items), allowed]

/-! ### What the packer keeps -/

def Message.Carried (m : Message P) : Prop := (Frame.encode ⟨0, [m]⟩).length ≤ MAX_FRAME_BYTES

instance (m : Message P) : Decidable m.Carried := inferInstanceAs (Decidable (_ ≤ _))

theorem Message.carried_iff {m : Message P} : m.Carried ↔ m.encode.length ≤ FRAME_BUDGET := by
  simp [Carried, Frame.length_encode, FRAME_BUDGET, MAX_FRAME_BYTES]
  omega

/-- The frames sent and the one being filled hold `kept`, and `left` was left out. -/
structure Packed (epoch : UInt64) (p : Packer P) (kept : List (Message P)) (left : ℕ) : Prop where
  ofEpoch : p.epoch = epoch
  sent : ∃ sent : List (Frame P), p.frames = sent.map Frame.encode ∧
    (∀ f ∈ sent, f.epoch = epoch ∧ f.Within) ∧
    (sent.flatMap Frame.items ++ p.current).flatMap Message.parts = kept
  current : Frame.Within ⟨epoch, p.current⟩
  used : p.used = (p.current.flatMap Message.encode).length
  leftOut : p.leftOut = left

variable {epoch : UInt64} {p : Packer P} {kept : List (Message P)} {left : ℕ}

theorem Packed.flush (packed : Packed epoch p kept left) :
    Packed epoch p.flush kept left ∧ p.flush.current = [] := by
  unfold Packer.flush
  split_ifs with empty
  · exact ⟨packed, List.isEmpty_iff.1 empty⟩
  · obtain ⟨sent, frames, within, parts⟩ := packed.sent
    refine ⟨⟨packed.ofEpoch, ⟨sent ++ [⟨epoch, p.current⟩], ?_, ?_, ?_⟩, ?_, rfl, packed.leftOut⟩, rfl⟩
    · simp [frames, packed.ofEpoch]
    · exact forall_mem_append.2 ⟨within, by simpa using packed.current⟩
    · simpa using parts
    · exact ⟨by simp [Frame.length_encode, MAX_FRAME_BYTES], by simp, by simp⟩

theorem Packed.push (packed : Packed epoch p kept left) {m : Message P} {size : ℕ}
    (exact_size : m.encode.length = size) (fits : size ≤ FRAME_BUDGET) (few : m.named ≤ MAX_FETCH) :
    Packed epoch (p.push m size) (kept ++ m.parts) left := by
  unfold Packer.push
  extract_lets q
  have room : Packed epoch q kept left ∧ q.used + size ≤ FRAME_BUDGET ∧
      q.current.length < MAX_FRAME_ITEMS := by
    unfold q
    split_ifs with full
    · obtain ⟨flushed, empty⟩ := packed.flush
      have used := flushed.used
      simp only [empty, flatMap_nil, length_nil] at used
      rw [used, empty]
      exact ⟨flushed, by omega, Nat.succ_pos _⟩
    · rw [not_and_or, not_not, not_or, not_lt, not_le, List.isEmpty_iff] at full
      refine ⟨packed, ?_⟩
      rcases full with empty | full
      · have used := packed.used
        simp only [empty, flatMap_nil, length_nil] at used
        rw [used, empty]
        exact ⟨by omega, Nat.succ_pos _⟩
      · exact full
  obtain ⟨packed, bytes, items⟩ := room
  obtain ⟨sent, frames, within, parts⟩ := packed.sent
  have used := packed.used
  refine ⟨packed.ofEpoch, ⟨sent, frames, within, ?_⟩, ⟨?_, ?_, ?_⟩, ?_, packed.leftOut⟩
  · rw [← append_assoc, flatMap_append, parts]
    simp
  · simp only [Frame.length_encode, flatMap_append, length_append]
    simp [FRAME_BUDGET, MAX_FRAME_BYTES] at *
    omega
  · simp only [length_append, length_singleton]
    omega
  · exact forall_mem_append.2 ⟨packed.current.named, by simpa using few⟩
  · simp [used, exact_size]

/-- `wrap` makes a list message. -/
structure Lists {α : Type} [Bincode α] (wrap : List α → Message P) : Prop where
  length (l : List α) : (wrap l).encode.length = (l.flatMap Bincode.encode).length + 12
  parts (l : List α) : (wrap l).parts = l.map fun a => wrap [a]
  named (l : List α) : (wrap l).named = 0

theorem lists_signals : Lists (P := P) .signals :=
  ⟨fun _ => by simp [Message.encode, encodeVec]; omega, fun _ => rfl, fun _ => rfl⟩

theorem lists_vertices : Lists (P := P) .vertices :=
  ⟨fun _ => by simp [Message.encode, encodeVec]; omega, fun _ => rfl, fun _ => rfl⟩

theorem lists_batches : Lists (P := P) .batches :=
  ⟨fun _ => by simp [Message.encode, encodeVec]; omega, fun _ => rfl, fun _ => rfl⟩

section
variable {α : Type} [Bincode α] {wrap : List α → Message P} {s : Split P α}

/-- The splitting loop: the packer holds what came before the chunk. -/
structure Split.Keeps (epoch : UInt64) (wrap : List α → Message P) (s : Split P α)
    (kept : List (Message P)) (left : ℕ) : Prop where
  before : ∃ sent, Packed epoch s.packer sent left ∧ sent ++ s.chunk.map (fun a => wrap [a]) = kept
  chunkSize : (s.chunk.flatMap Bincode.encode).length = s.chunkSize
  room : s.chunkSize ≤ FRAME_BUDGET - LIST_MESSAGE_OVERHEAD

theorem Split.Keeps.pushed (lists : Lists wrap) (keeps : s.Keeps epoch wrap kept left) :
    Packed epoch (s.packer.push (wrap s.chunk) (s.chunkSize + LIST_MESSAGE_OVERHEAD)) kept left := by
  obtain ⟨sent, packed, rfl⟩ := keeps.before
  rw [← lists.parts]
  refine packed.push ?_ (Nat.add_le_of_le_sub (by decide) keeps.room) (by simp [lists.named])
  rw [lists.length, keeps.chunkSize, LIST_MESSAGE_OVERHEAD]

theorem Split.Keeps.add (lists : Lists wrap) (keeps : s.Keeps epoch wrap kept left) (e : α) :
    (s.add wrap e).Keeps epoch wrap (kept ++ [wrap [e]].filter (·.Carried))
      (left + [wrap [e]].countP (¬ ·.Carried)) := by
  have carried : (wrap [e]).Carried ↔
      (Bincode.encode e).length ≤ FRAME_BUDGET - LIST_MESSAGE_OVERHEAD := by
    rw [Message.carried_iff, lists.length, flatMap_singleton, LIST_MESSAGE_OVERHEAD, FRAME_BUDGET,
      MAX_FRAME_BYTES]
    omega
  unfold Split.add
  extract_lets size room _ q
  split_ifs with large
  · have out : ¬ (wrap [e]).Carried := fun h => not_lt.2 (carried.1 h) large
    obtain ⟨sent, packed, rfl⟩ := keeps.before
    simp only [filter_singleton, countP_singleton, out]
    exact ⟨⟨sent, { packed with leftOut := by simp [packed.leftOut] }, by simp⟩, keeps.chunkSize,
      keeps.room⟩
  · have small := not_lt.1 large
    have fits : (wrap [e]).Carried := carried.2 small
    have roomy : q.Keeps epoch wrap kept left ∧ q.chunkSize + size ≤ room := by
      unfold q
      split_ifs with full
      · exact ⟨⟨⟨kept, keeps.pushed lists, by simp⟩, rfl, Nat.zero_le _⟩, (Nat.zero_add size).trans_le small⟩
      · exact ⟨keeps, not_lt.1 full⟩
    obtain ⟨⟨⟨sent, packed, rfl⟩, chunkSize, -⟩, roomy⟩ := roomy
    simp only [filter_singleton, countP_singleton, fits]
    refine ⟨⟨sent, packed, by simp⟩, by simp [size, ← chunkSize], roomy⟩

theorem Split.Keeps.foldl (lists : Lists wrap) (elements : List α)
    (keeps : s.Keeps epoch wrap kept left) :
    (elements.foldl (Split.add wrap) s).Keeps epoch wrap
      (kept ++ (elements.map fun a => wrap [a]).filter (·.Carried))
      (left + (elements.map fun a => wrap [a]).countP (¬ ·.Carried)) := by
  induction elements generalizing s kept left with
  | nil => simpa using keeps
  | cons e elements ih =>
    have rest := ih (keeps.add lists e)
    rw [append_assoc, ← filter_append, Nat.add_assoc, ← countP_append] at rest
    exact rest

theorem Packed.split (lists : Lists wrap) (packed : Packed epoch p kept left) (elements : List α) :
    Packed epoch (p.split elements wrap) (kept ++ (wrap elements).parts.filter (·.Carried))
      (left + (wrap elements).parts.countP (¬ ·.Carried)) := by
  have start : (Split.mk p ([] : List α) 0).Keeps epoch wrap kept left :=
    ⟨⟨kept, packed, by simp⟩, rfl, Nat.zero_le _⟩
  have done := start.foldl lists elements
  rw [lists.parts]
  unfold Packer.split
  extract_lets s
  split_ifs with empty
  · obtain ⟨sent, packed, whole⟩ := done.before
    rw [List.isEmpty_iff.1 empty, map_nil, append_nil] at whole
    rwa [whole] at packed
  · exact done.pushed lists

end

theorem Message.parts_carried {m : Message P} (fits : m.encode.length ≤ FRAME_BUDGET) :
    ∀ part ∈ m.parts, part.Carried := by
  have each {k : Payload} {wrap : List (P k) → Message P} (lists : Lists wrap) {l : List (P k)}
      (fits : (wrap l).encode.length ≤ FRAME_BUDGET) : ∀ part ∈ (wrap l).parts, part.Carried := by
    rw [lists.parts, forall_mem_map]
    intro a mem
    have part := length_le_of_mem Bincode.encode mem
    rw [lists.length] at fits
    rw [Message.carried_iff, lists.length, flatMap_singleton]
    omega
  cases m
  case signals => exact each lists_signals fits
  case vertices => exact each lists_vertices fits
  case batches => exact each lists_batches fits
  all_goals simpa [parts] using carried_iff.2 fits

theorem Packed.add (packed : Packed epoch p kept left) {m : Message P} (few : m.named ≤ MAX_FETCH) :
    Packed epoch (p.add m) (kept ++ m.parts.filter (·.Carried))
      (left + m.parts.countP (¬ ·.Carried)) := by
  unfold Packer.add
  split_ifs with fits
  · have carried := Message.parts_carried fits
    rw [filter_eq_self.2 (by simpa using carried), countP_eq_zero.2 (by simpa using carried)]
    exact packed.push rfl fits few
  · have out := mt Message.carried_iff.1 fits
    split
    · exact packed.split lists_signals _
    · exact packed.split lists_vertices _
    · exact packed.split lists_batches _
    · have whole : m.parts = [m] := by
        cases m <;> first | rfl | simp_all
      rw [whole]
      simp only [filter_singleton, countP_singleton, out]
      exact { packed with leftOut := by simp [packed.leftOut], sent := by simpa using packed.sent }

theorem Packed.foldl (packed : Packed epoch p kept left) {items : List (Message P)}
    (few : ∀ m ∈ items, m.named ≤ MAX_FETCH) :
    Packed epoch (items.foldl Packer.add p)
      (kept ++ (items.flatMap Message.parts).filter (·.Carried))
      (left + (items.flatMap Message.parts).countP (¬ ·.Carried)) := by
  induction items generalizing p kept left with
  | nil => simpa using packed
  | cons m items ih =>
    rw [forall_mem_cons] at few
    have rest := ih (packed.add few.1) few.2
    rw [append_assoc, ← filter_append, Nat.add_assoc, ← countP_append] at rest
    exact rest

/-- Every frame sent is accepted, the frames hold what was given but for what no frame can carry,
which is counted, and a frame within the bounds has one encoding. -/
theorem encodeBounded_delivers (epoch : UInt64) (items : List (Message P))
    (few : ∀ m ∈ items, m.named ≤ MAX_FETCH) :
    (∃ received : List (Frame P),
      (Frame.encodeBounded epoch items).1.map Frame.decode = received.map .ok ∧
      (∀ f ∈ received, f.epoch = epoch) ∧
      (received.flatMap Frame.items).flatMap Message.parts =
        (items.flatMap Message.parts).filter (·.Carried) ∧
      (Frame.encodeBounded epoch items).2 =
        (items.flatMap Message.parts).countP (¬ ·.Carried)) ∧
      (∀ f : Frame P, f.Within → Frame.decode f.encode = .ok f) ∧
      ∀ (b : Bytes) (f : Frame P), Frame.decode b = .ok f → f.encode = b := by
  have start : Packed epoch (⟨epoch, [], [], 0, 0⟩ : Packer P) [] 0 :=
    ⟨rfl, ⟨[], by simp⟩, ⟨by simp [Frame.length_encode, MAX_FRAME_BYTES], by simp, by simp⟩, rfl, rfl⟩
  obtain ⟨packed, empty⟩ := (start.foldl few).flush
  obtain ⟨sent, frames, within, parts⟩ := packed.sent
  refine ⟨⟨sent, ?_, fun f mem => (within f mem).1, ?_, ?_⟩,
    fun f within => Frame.decode_ok.2 ⟨rfl, within⟩, fun b f read => (Frame.decode_ok.1 read).1⟩
  · rw [Frame.encodeBounded, frames, map_map]
    exact map_congr_left fun f mem => Frame.decode_ok.2 ⟨rfl, (within f mem).2⟩
  · rwa [empty, append_nil] at parts
  · rw [Frame.encodeBounded, packed.leftOut, Nat.zero_add]

namespace Stalled

/-- A fetch, a validator's position and an empty answer, with every payload a number. -/
def items : List (Message fun _ => UInt64) :=
  [.fetchOrdering 5, .frontier ⟨some 2, [], 1⟩, .signals []]

theorem encodeBounded_delivers_stalled : ∃ received : List (Frame fun _ => UInt64),
    (Frame.encodeBounded 3 items).1.map Frame.decode = received.map .ok ∧
      (received.flatMap Frame.items).flatMap Message.parts =
        (items.flatMap Message.parts).filter (·.Carried) := by
  obtain ⟨received, decoded, -, parts, -⟩ :=
    (encodeBounded_delivers 3 items (by simp [items, Message.named])).1
  exact ⟨received, decoded, parts⟩

end Stalled

end Tenzro.Wire
