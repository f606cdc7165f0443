import Tenzro.Committee

set_option autoImplicit false
set_option linter.dupNamespace false

/-!
# Transaction batches and their release

One validator's contribution to one round, named by the digest of its encoding.

An author's batches are released in sequence order as the ordered history
introduces or carries them; a gap no vertex can fill any more is skipped.
-/
namespace Tenzro

@[irreducible] def u64Max : ℕ := 18446744073709551615

def satAdd (a b : ℕ) : ℕ := min (a + b) u64Max

def satMul (a b : ℕ) : ℕ := min (a * b) u64Max

structure VertexRef where
  round : ℕ
  source : ValidatorIndex
  digest : Digest
deriving DecidableEq, Repr

/-- The derived order: round, then author, then digest. -/
def VertexRef.le (a b : VertexRef) : Prop :=
  toLex (a.round, toLex (a.source, a.digest)) ≤ toLex (b.round, toLex (b.source, b.digest))

instance : DecidableRel VertexRef.le := fun _ _ => inferInstanceAs (Decidable (_ ≤ _))

structure BatchRef where
  sequence : ℕ
  digest : Digest
  bytes : ℕ
  transactions : ℕ
deriving DecidableEq, Repr

structure CarriedBatch where
  author : ValidatorIndex
  batch : BatchRef
deriving DecidableEq, Repr

structure Vertex where
  epoch : ℕ
  round : ℕ
  source : ValidatorIndex
  strong : List VertexRef
  weak : List VertexRef
  batches : List BatchRef
  carried : List CarriedBatch
  timestampMs : ℕ
deriving DecidableEq, Repr

/-- The digest of a vertex's canonical encoding. -/
class VertexHash where
  vertexDigest : Vertex → Digest

@[irreducible] def maxRefs : ℕ := 4096
@[irreducible] def maxBatchRefs : ℕ := 4096
@[irreducible] def maxCarried : ℕ := 4096

namespace Vertex

def digest [VertexHash] (v : Vertex) : Digest := VertexHash.vertexDigest v

def reference [VertexHash] (v : Vertex) : VertexRef := ⟨v.round, v.source, v.digest⟩

def refs (v : Vertex) : List VertexRef := v.strong ++ v.weak

/-- Whether the vertex strongly references any vertex of `source`. -/
def referencesAuthor (v : Vertex) (source : ValidatorIndex) : Bool :=
  v.strong.any (fun s => s.source = source)

def windows2 {α : Type} : List α → List (α × α)
  | a :: b :: l => (a, b) :: windows2 (b :: l)
  | _ => []

def strongSeats (c : Committee) (previous : ℕ) : List VertexRef → SeatSet → Except String SeatSet
  | [], seats => .ok seats
  | s :: l, seats =>
    if s.round ≠ previous then
      .error "strong reference to a round other than the previous one"
    else if c.member s.source = none then .error "strong reference to a non-member"
    else
      let (seats', new) := seats.insert s.source (c.seats s.source)
      if new then strongSeats c previous l seats'
      else .error "two strong references to one author"

def checkStructure (v : Vertex) (c : Committee) : Except String Unit :=
  if v.epoch ≠ c.epoch then .error "vertex is for another epoch"
  else if c.member v.source = none then .error "vertex author is not a committee member"
  else if maxRefs < v.strong.length ∨ maxRefs < v.weak.length ∨
      maxBatchRefs < v.batches.length ∨ maxCarried < v.carried.length then
    .error "vertex carries too many references"
  else if (windows2 v.batches).any (fun w =>
      w.1.sequence = u64Max || w.1.sequence + 1 ≠ w.2.sequence) then
    .error "introduced batches are not consecutive"
  else if v.carried.any (fun x => x.author = v.source || c.member x.author = none) then
    .error "a carried batch must be another member's"
  else if (windows2 v.carried).any (fun w =>
      toLex (w.2.author, w.2.batch.sequence) ≤ toLex (w.1.author, w.1.batch.sequence)) then
    .error "carried batches are not sorted by author and sequence"
  else if v.round = 0 then
    if v.strong ≠ [] ∨ v.weak ≠ [] then .error "a round-0 vertex has no parents" else .ok ()
  else
    match strongSeats c (v.round - 1) v.strong .empty with
    | .error why => .error why
    | .ok seats =>
      if seats.weight < c.quorum then .error "strong references carry less than a quorum"
      else if v.weak.any (fun w => v.round - 1 ≤ w.round || c.member w.source = none) then
        .error "weak reference must name an older vertex of a member"
      else .ok ()

def wellFormed (v : Vertex) (c : Committee) : Bool := (v.checkStructure c).isOk

end Vertex

@[irreducible] def maxBatchBytes : ℕ := 1048576

@[irreducible] def u32Max : ℕ := 4294967295

structure BatchPart where
  transactions : ℕ
  bytes : List ℕ
deriving DecidableEq, Repr

structure BatchPayload where
  epoch : ℕ
  author : ValidatorIndex
  sequence : ℕ
  transactions : ℕ
  body : List ℕ
deriving DecidableEq, Repr

class BatchHash where
  batchDigest : BatchPayload → Digest

namespace BatchPayload

def lengthBytes (n : ℕ) : List ℕ :=
  [n / 16777216 % 256, n / 65536 % 256, n / 256 % 256, n % 256]

def sealParts (epoch : ℕ) (author : ValidatorIndex) (sequence : ℕ) (parts : List BatchPart) :
    BatchPayload where
  epoch := epoch
  author := author
  sequence := sequence
  transactions := parts.foldl (fun n p => min (n + p.transactions) u32Max) 0
  body := parts.flatMap (fun p => lengthBytes p.bytes.length ++ p.bytes)

variable [BatchHash]

def digest (p : BatchPayload) : Digest := BatchHash.batchDigest p

def reference (p : BatchPayload) : BatchRef :=
  ⟨p.sequence, p.digest, p.body.length, p.transactions⟩

end BatchPayload

structure OrderedBatch where
  batch : BatchRef
  author : ValidatorIndex
  round : ℕ
deriving DecidableEq, Repr

@[irreducible] def maxUnreleasedPerAuthor : ℕ := 4096

abbrev Introduction := ℕ × ℕ × BatchRef

/-- The frontier as a checkpoint commits it. -/
structure AvailabilityState where
  next : List (ValidatorIndex × ℕ)
  early : List (ValidatorIndex × List (ℕ × ℕ × ℕ × BatchRef))
deriving DecidableEq

structure Availability where
  next : SortedMap ValidatorIndex ℕ
  early : SortedMap ValidatorIndex (SortedMap ℕ Introduction)
  ready : List (ℕ × ValidatorIndex × ℕ × BatchRef)

namespace Availability

def new : Availability := ⟨.empty, .empty, []⟩

def releasedThrough (s : Availability) (author : ValidatorIndex) : ℕ := s.next.getD author 0

def earlyOf (s : Availability) (author : ValidatorIndex) : SortedMap ℕ Introduction :=
  s.early.getD author .empty

def introduce (s : Availability) (author : ValidatorIndex) (round position : ℕ) (b : BatchRef) :
    Availability :=
  if b.sequence < s.releasedThrough author ∨ b.sequence = u64Max then s
  else
    let early := s.earlyOf author
    { s with
      early := s.early.insert author
        (if (early.size < maxUnreleasedPerAuthor ∨ early.contains b.sequence = true) ∧
            early.contains b.sequence = false
          then early.insert b.sequence (round, position, b) else early) }

def drain (author : ValidatorIndex) : ℕ → SortedMap ℕ Introduction → ℕ →
    SortedMap ℕ Introduction × ℕ × List (ℕ × ValidatorIndex × ℕ × BatchRef)
  | 0, early, next => (early, next, [])
  | n + 1, early, next =>
    match early.get? next with
    | none => (early, next, [])
    | some (round, position, b) =>
      let (early', next', out) := drain author n (early.erase next) (next + 1)
      (early', next', (round, author, position, b) :: out)

/-- Releases what waits at `next`; every turn takes one introduction out. -/
def drainFrom (s : Availability) (author : ValidatorIndex) (next : ℕ) : Availability :=
  match s.early.get? author with
  | none => { s with next := s.next.insert author next }
  | some early =>
    let (early', next', out) := drain author early.size early next
    { next := s.next.insert author next'
      early := s.early.insert author early'
      ready := s.ready ++ out }

def advance (s : Availability) (author : ValidatorIndex) : Availability :=
  s.drainFrom author (s.releasedThrough author)

def introduceAll (s : Availability) (round : ℕ) (base : ℕ) :
    List (ValidatorIndex × BatchRef) → Availability
  | [] => s
  | (author, b) :: l => introduceAll (s.introduce author round base b) round (base + 1) l

def onOrdered (s : Availability) (v : Vertex) : Availability :=
  (s.introduceAll v.round 0 (v.batches.map (fun b => (v.source, b)))).advance v.source

def onCarried (s : Availability) (v : Vertex) : Availability :=
  let s := s.introduceAll v.round maxBatchRefs (v.carried.map (fun x => (x.author, x.batch)))
  (List.destutter (· ≠ ·) (v.carried.map CarriedBatch.author)).foldl advance s

def expireGap (s : Availability) (floor : ℕ) (author : ValidatorIndex) : Availability :=
  match (s.earlyOf author).first? with
  | none => s
  | some (first, (round, _, _)) =>
    let s := { s with next := s.next.insert author (s.releasedThrough author) }
    if floor < round ∨ first ≤ s.releasedThrough author then s else s.drainFrom author first

def expireGaps (s : Availability) (floor : ℕ) : Availability :=
  s.early.keys.foldl (fun s a => s.expireGap floor a) s

def readyLe (a b : ℕ × ValidatorIndex × ℕ × BatchRef) : Prop :=
  toLex (a.1, toLex (a.2.1, a.2.2.1)) ≤ toLex (b.1, toLex (b.2.1, b.2.2.1))

instance : DecidableRel readyLe := fun _ _ => inferInstanceAs (Decidable (_ ≤ _))

/-- The batches released since the last call, by round, author and position. -/
def release (s : Availability) : Availability × List OrderedBatch :=
  ({ s with ready := [] },
    (s.ready.insertionSort readyLe).map (fun e => ⟨e.2.2.2, e.2.1, e.1⟩))

def exportState (s : Availability) : AvailabilityState where
  next := s.next.entries.filter (fun e => 0 < e.2)
  early := (s.early.entries.filter (fun e => !e.2.isEmpty)).map (fun e =>
    (e.1, e.2.entries.map (fun i => (i.1, i.2.1, i.2.2.1, i.2.2.2))))

def importState (t : AvailabilityState) : Availability where
  next := .ofList t.next
  early := .ofList (t.early.map (fun e =>
    (e.1, .ofList (e.2.map (fun i => (i.1, (i.2.1, i.2.2.1, i.2.2.2)))))))
  ready := []

end Availability

end Tenzro
