import Tenzro.RouteEffects

set_option autoImplicit false

/-!
# The Bitcoin header chain

Headers and their targets, the records a route keeps of the best chain, and the update that
bootstraps, extends or reorganises it. An arithmetic overflow the source leaves unchecked
stops the update.
-/
namespace Tenzro.Bridge
open ByteCodec FixedWidth Outcome List Nat

def maxHeadersPerUpdate : ℕ := 2016

def retargetInterval : ℕ := 2016

/-- In seconds. -/
def targetTimespan : ℕ := 14 * 24 * 60 * 60

def powLimitBits : ℕ := 0x1d00ffff

def maxBranch : ℕ := 32

/-! ### Headers -/

structure BlockHeader where
  version : ℕ
  prev : Bytes
  merkleRoot : Bytes
  time : ℕ
  bits : ℕ
  nonce : ℕ
deriving DecidableEq, Repr

namespace BlockHeader

def encode (h : BlockHeader) : Bytes :=
  leBytes 4 h.version ++ (h.prev ++ (h.merkleRoot ++
    (leBytes 4 h.time ++ (leBytes 4 h.bits ++ leBytes 4 h.nonce))))

def read : Read BlockHeader := do
  let version ← readLe 4
  let prev ← take 32
  let merkleRoot ← take 32
  let time ← readLe 4
  let bits ← readLe 4
  let nonce ← readLe 4
  return { version, prev, merkleRoot, time, bits, nonce }

def hash [RouteCrypto] (h : BlockHeader) : Bytes := sha256d h.encode

end BlockHeader

/-! ### Targets -/

def bitLength (n : ℕ) : ℕ := if n = 0 then 0 else n.log2 + 1

def target (bits : ℕ) : Except String ℕ :=
  let size := bits / 2 ^ 24
  let mantissa := bits % 2 ^ 23
  if bits.testBit 23 ∨ mantissa = 0 then refuse "bitcoin: a negative or zero target"
  else if size ≤ 3 then .ok (mantissa / 2 ^ (8 * (3 - size)))
  else if 256 < bitLength mantissa + 8 * (size - 3) then refuse "bitcoin: a target over 256 bits"
  else .ok (mantissa * 2 ^ (8 * (size - 3)))

def compact (target : ℕ) : ℕ :=
  let size := (bitLength target + 7) / 8
  let c := if size ≤ 3 then target * 2 ^ (8 * (3 - size)) else target / 2 ^ (8 * (size - 3))
  if c.testBit 23 then c / 2 ^ 8 + (size + 1) * 2 ^ 24 else c + size * 2 ^ 24

def work (bits : ℕ) : Except String ℕ := do
  let t ← target bits
  let w := (2 ^ 256 - 1 - t) / (t + 1) + 1
  ensure (w ≤ maxValue 128) "bitcoin: work out of range"
  return w

/-! ### Records -/

namespace BitcoinLightClient

/-- What the client keeps for each header on its best chain. -/
structure Record where
  hash : Bytes
  chainwork : ℕ
  bits : ℕ
  time : ℕ
deriving DecidableEq, Repr

namespace Record

def encode (r : Record) : Bytes :=
  r.hash ++ (beBytes 16 r.chainwork ++ (beBytes 4 r.bits ++ beBytes 4 r.time))

def decode (b : Bytes) : Except String Record :=
  decodeWith (do
    let hash ← take 32
    let chainwork ← readBe 16
    let bits ← readBe 4
    let time ← readBe 4
    return { hash, chainwork, bits, time }) b

end Record

def padded (n : ℕ) : String := String.ofList (leftpad 20 '0' (toDigits 10 n))

/-- The fields after the anchor's store key. -/
def recordSuffix (height : ℕ) : List String := ["h", padded height]

section
variable [RouteCrypto]

structure Anchor where
  trustedHeight : ℕ
  trustedHeaderHash : Bytes
  confirmations : ℕ
  depositScript : Bytes
deriving DecidableEq, Repr

def anchorParts : LightClientAnchor → Except String Anchor
  | .bitcoinHeaders trustedHeight trustedHeaderHash confirmations signers threshold _ => do
    let depositScript ← DepositDescriptor.scriptPubkey ⟨signers, threshold⟩
    return { trustedHeight, trustedHeaderHash, confirmations, depositScript }
  | _ => refuse "bitcoin: the route's anchor is not a Bitcoin header anchor"

def recordKey (route : BridgeRoute) (anchor : LightClientAnchor) (height : ℕ) : RouteKey :=
  .lightClient route.routeName anchor.id (recordSuffix height)

def tipKey (route : BridgeRoute) (anchor : LightClientAnchor) : RouteKey :=
  .lightClient route.routeName anchor.id []

variable (s : RouteState) (route : BridgeRoute) (anchor : LightClientAnchor)

def record (height : ℕ) : Except String (Option Record) :=
  match s.get (recordKey route anchor height) with
  | none => .ok none
  | some b => some <$> Record.decode b

def tip : Except String (Option (ℕ × Record)) :=
  match s.get (tipKey route anchor) with
  | none => .ok none
  | some b => do
    ensure (b.length = 8) "bitcoin: tip record"
    match ← record s route anchor (ofBeBytes b) with
    | some r => return some (ofBeBytes b, r)
    | none => refuse "bitcoin: tip record missing"

/-! ### Updates -/

def retarget (bits firstTime lastTime : ℕ) : Except String ℕ := do
  let span := min (max (lastTime - firstTime) (targetTimespan / 4)) (targetTimespan * 4)
  let limit ← target powLimitBits
  let t ← target bits
  ensure (t * span < 2 ^ 256) "arithmetic overflow"
  return compact (min (t * span / targetTimespan) limit)

def known (pending : List (ℕ × Record)) (height : ℕ) : Except String (Option Record) :=
  match pending.find? (fun p => p.1 = height) with
  | some p => .ok (some p.2)
  | none => record s route anchor height

def expectedBits (pending : List (ℕ × Record)) (height : ℕ) (parent : Record) :
    Except String ℕ :=
  if height % retargetInterval ≠ 0 then .ok parent.bits
  else do
    match ← known s route anchor pending (height - retargetInterval) with
    | some first => retarget parent.bits first.time parent.time
    | none => refuse "bitcoin: the period's first header is not known"

def readHeaders : ℕ → ℕ → Record → List (ℕ × Record) → Read (List (ℕ × Record) × Record)
  | 0, _, parent, pending => return (pending, parent)
  | n + 1, height, parent, pending => do
    let header ← BlockHeader.read
    require (height < 2 ^ 64) "arithmetic overflow"
    require (header.prev = parent.hash) s!"bitcoin: header {height} does not build on its parent"
    let bits ← liftRead (expectedBits s route anchor pending height parent)
    require (header.bits = bits) s!"bitcoin: header {height} has the wrong difficulty target"
    let t ← liftRead (target header.bits)
    require (ofLeBytes header.hash ≤ t) s!"bitcoin: header {height} lacks the proof of work"
    let w ← liftRead (work header.bits)
    require (parent.chainwork + w ≤ maxValue 128) "bitcoin: chainwork overflow"
    let r : Record := ⟨header.hash, parent.chainwork + w, header.bits, header.time⟩
    readHeaders n (height + 1) r (pending ++ [(height, r)])

def bootstrap (a : Anchor) : Read (List ClientWrite × ℕ) := do
  let header ← BlockHeader.read
  finish
  require (header.hash = a.trustedHeaderHash) "bitcoin: the bootstrap header is not the anchor's"
  let held ← liftRead (tip s route anchor)
  require (held = none) "bitcoin: already bootstrapped"
  let w ← liftRead (work header.bits)
  let r : Record := ⟨header.hash, w, header.bits, header.time⟩
  return ([(recordSuffix a.trustedHeight, r.encode)], a.trustedHeight)

def build (a : Anchor) : Read (List ClientWrite × ℕ) := do
  let parentHeight ← readBe 8
  let n ← readBe 2
  require (n ≠ 0 ∧ n ≤ maxHeadersPerUpdate) s!"bitcoin: an update of {n} headers"
  let held ← liftRead (tip s route anchor)
  match held with
  | none => fail "bitcoin: not bootstrapped from the anchor"
  | some (bestHeight, best) =>
    require (a.trustedHeight ≤ parentHeight ∧ parentHeight ≤ bestHeight)
      "bitcoin: the update does not build on the client's chain"
    let stored ← liftRead (record s route anchor parentHeight)
    match stored with
    | none => fail "bitcoin: the parent header is not known"
    | some parent =>
      let (pending, last) ← readHeaders s route anchor n (parentHeight + 1) parent []
      finish
      require (best.chainwork < last.chainwork)
        "bitcoin: the update has no more work than the client's chain"
      return (pending.map fun p => (recordSuffix p.1, p.2.encode), parentHeight + n)

def advance (update : Bytes) : Except String (List ClientWrite) :=
  (do
    let a ← liftRead (anchorParts anchor)
    let tag ← readBe 1
    let (writes, tipHeight) ←
      (if tag = 0 then bootstrap s route anchor a
        else if tag = 1 then build s route anchor a
        else fail s!"bitcoin: unknown update tag {tag}" : Read (List ClientWrite × ℕ))
    return writes ++ [([], beBytes 8 tipHeight)] : Read (List ClientWrite)).run' ⟨0, update⟩

def applyUpdate (update : Bytes) : Except String Unit × RouteState :=
  s.commit ((advance s route anchor update).map fun writes =>
    (writes.map fun w => (.lightClient route.routeName anchor.id w.1, w.2), ()))

/-- The highest block with the route's confirmations, and the tip. -/
def head : Option (ℕ × ℕ) :=
  match anchorParts anchor, tip s route anchor with
  | .ok a, .ok (some (height, _)) => some (height + 1 - a.confirmations, height)
  | _, _ => none

/-! ### Proofs of inclusion -/

/-- A transaction proven mined. -/
structure ProvenPayment where
  tx : BitcoinTx
  txid : Bytes
  height : ℕ
  blockTime : ℕ
deriving DecidableEq, Repr

/-- From a node at the position to the root. The last node of an odd level is paired with
itself, so only a left node may be its own sibling. -/
def climb : ℕ → List Bytes → Bytes → Except String Bytes
  | _, [], node => .ok node
  | index, sibling :: branch, node =>
    if index % 2 = 1 then
      if sibling = node then
        refuse "bitcoin: the position is a duplicated Merkle node, not a transaction"
      else climb (index / 2) branch (sha256d (sibling ++ node))
    else climb (index / 2) branch (sha256d (node ++ sibling))

def readProof : Read (Bytes × BlockHeader × List Bytes) := do
  let depositBytes ← readBeBytes (maxTxLen + 16)
  let header ← BlockHeader.read
  let n ← readBe 1
  require (n ≤ maxBranch) "bitcoin: Merkle branch too deep"
  let branch ← repeated (take 32) n
  return (depositBytes, header, branch)

/-- The transaction is in a block of the best chain, deep enough. -/
def proveInclusion (proof : Bytes) : Except String (Bytes × ProvenPayment) := do
  let a ← anchorParts anchor
  match ← tip s route anchor with
  | none => refuse "bitcoin: not bootstrapped from the anchor"
  | some (tipHeight, _) => do
    let (depositBytes, header, branch) ← decodeWith readProof proof
    let deposit ← decodeWith Deposit.read depositBytes
    let tx ← BitcoinTx.decode deposit.tx
    ensure (deposit.index / 2 ^ branch.length = 0) "bitcoin: the index does not fit the branch"
    let node ← climb deposit.index branch deposit.txid
    ensure (node = header.merkleRoot) "bitcoin: the transaction is not in the block"
    ensure (deposit.height ≤ tipHeight) "bitcoin: the block is not on the client's best chain"
    let mined ← record s route anchor deposit.height
    ensure (mined.any fun r => r.hash = header.hash)
      "bitcoin: the block is not on the client's best chain"
    let depth := tipHeight - deposit.height + 1
    ensure (a.confirmations ≤ depth)
      s!"bitcoin: the transaction has {depth} confirmations; the route requires {a.confirmations}"
    return (depositBytes, ⟨tx, deposit.txid, deposit.height, header.time⟩)

def verify (body proof : Bytes) : Except String Unit := do
  let a ← anchorParts anchor
  let (depositBytes, payment) ← proveInclusion s route anchor proof
  ensure (keccak256 depositBytes = body) "bitcoin: the proof is for another deposit"
  ensure (payment.tx.outputs.any fun o => o.script = a.depositScript)
    "bitcoin: the transaction pays no output to the deposit script"

end

/-! ### The client's keys -/

theorem padded_injective {m n : ℕ} (h : padded m = padded n) : m = n := by
  have digits := String.ofList_injective h
  have value (k : ℕ) : ofDigitChars 10 (leftpad 20 '0' (toDigits 10 k)) 0 = k := by
    rw [leftpad, ofDigitChars_append, ofDigitChars_replicate_zero, Nat.mul_zero,
      ofDigitChars_ten_toDigits]
  rw [← value m, digits, value n]

theorem colonFree_padded (n : ℕ) : ColonFree (padded n) := by
  intro mem
  rw [padded, String.toList_ofList, leftpad, mem_append] at mem
  rcases mem with mem | mem
  · cases eq_of_mem_replicate mem
  · have digit := isDigit_of_mem_toDigits (by decide) (by decide) mem
    simp [Char.isDigit] at digit

theorem recordSuffix_free (n : ℕ) : ∀ f ∈ recordSuffix n, ColonFree f := by
  have literal : ColonFree "h" := by
    unfold ColonFree
    decide
  simp [recordSuffix, literal, colonFree_padded]

section
variable [RouteCrypto] {s : RouteState} {route : BridgeRoute} {anchor : LightClientAnchor}
  {update : Bytes} {writes : List ClientWrite}

theorem bootstrap_records {a : Anchor} {tipHeight : ℕ} {r r' : Reader}
    (h : bootstrap s route anchor a r = .ok ((writes, tipHeight), r')) :
    ∀ w ∈ writes, ∃ n, w.1 = recordSuffix n := by
  obtain ⟨header, r₁, -, h⟩ := read_bind_ok.1 h
  obtain ⟨⟨⟩, r₂, -, h⟩ := read_bind_ok.1 h
  obtain ⟨⟨⟩, r₃, -, h⟩ := read_bind_ok.1 h
  obtain ⟨held, r₄, -, h⟩ := read_bind_ok.1 h
  obtain ⟨⟨⟩, r₅, -, h⟩ := read_bind_ok.1 h
  obtain ⟨w, r₆, -, h⟩ := read_bind_ok.1 h
  obtain ⟨same, -⟩ := read_pure_ok.1 h
  cases same
  simp

theorem build_records {a : Anchor} {tipHeight : ℕ} {r r' : Reader}
    (h : build s route anchor a r = .ok ((writes, tipHeight), r')) :
    ∀ w ∈ writes, ∃ n, w.1 = recordSuffix n := by
  obtain ⟨parentHeight, r₁, -, h⟩ := read_bind_ok.1 h
  obtain ⟨n, r₂, -, h⟩ := read_bind_ok.1 h
  obtain ⟨⟨⟩, r₃, -, h⟩ := read_bind_ok.1 h
  obtain ⟨held, r₄, -, h⟩ := read_bind_ok.1 h
  cases held with
  | none => cases h
  | some best =>
    obtain ⟨⟨⟩, r₅, -, h⟩ := read_bind_ok.1 h
    obtain ⟨stored, r₆, -, h⟩ := read_bind_ok.1 h
    cases stored with
    | none => cases h
    | some parent =>
      obtain ⟨⟨pending, last⟩, r₇, -, h⟩ := read_bind_ok.1 h
      obtain ⟨⟨⟩, r₈, -, h⟩ := read_bind_ok.1 h
      obtain ⟨⟨⟩, r₉, -, h⟩ := read_bind_ok.1 h
      obtain ⟨same, -⟩ := read_pure_ok.1 h
      cases same
      intro w mem
      obtain ⟨p, -, rfl⟩ := mem_map.1 mem
      exact ⟨p.1, rfl⟩

theorem advance_ok (h : advance s route anchor update = .ok writes) :
    ∃ a r r' records tipHeight, anchorParts anchor = .ok a ∧
      (bootstrap s route anchor a r = .ok ((records, tipHeight), r') ∨
        build s route anchor a r = .ok ((records, tipHeight), r')) ∧
      writes = records ++ [([], beBytes 8 tipHeight)] := by
  obtain ⟨⟨result, r'⟩, run, rfl⟩ := map_ok.1 h
  obtain ⟨a, r₁, parts, run⟩ := read_bind_ok.1 run
  obtain ⟨tag, r₂, -, run⟩ := read_bind_ok.1 run
  obtain ⟨⟨records, tipHeight⟩, r₃, done, run⟩ := read_bind_ok.1 run
  obtain ⟨rfl, -⟩ := read_pure_ok.1 run
  refine ⟨a, r₂, r₃, records, tipHeight, (liftRead_ok.1 parts).1, ?_, rfl⟩
  split_ifs at done with first second
  · exact .inl done
  · exact .inr done
  · cases done

theorem advance_suffixes (h : advance s route anchor update = .ok writes) :
    ∀ w ∈ writes, w.1 ≠ ["utxos"] ∧ ∀ f ∈ w.1, ColonFree f := by
  obtain ⟨a, r, r', records, tipHeight, -, done, rfl⟩ := advance_ok h
  have heights : ∀ w ∈ records, ∃ n, w.1 = recordSuffix n :=
    done.elim bootstrap_records build_records
  intro w mem
  rcases mem_append.1 mem with mem | mem
  · obtain ⟨n, suffix⟩ := heights w mem
    rw [suffix]
    exact ⟨by simp [recordSuffix], recordSuffix_free n⟩
  · rw [mem_singleton.1 mem]
    simp

end
end BitcoinLightClient

def bitcoinLightClient [RouteCrypto] : LightClientVerifier where
  verify := BitcoinLightClient.verify
  advance := BitcoinLightClient.advance
  suffixes _ _ _ _ _ := BitcoinLightClient.advance_suffixes

end Tenzro.Bridge
