import Tenzro.BitcoinHeaders
import Tenzro.Protobuf
import Tenzro.RouteIbc

set_option autoImplicit false
set_option linter.dupNamespace false

/-!
# The Tendermint light client

Headers, validator sets and commits as CometBFT hashes and signs them, the consensus states a
route keeps, and the update that adds one.
-/
namespace Tenzro.Bridge
open ByteCodec FixedWidth Outcome Protobuf Nat

/-- Signature verification of the Ed25519 crate. -/
class Ed25519 where
  /-- Whether a key is a point of the curve. -/
  isPoint : Bytes → Bool
  verifyStrict : Bytes → Bytes → Bytes → Bool

namespace Tendermint

def maxValidators : ℕ := 300

def maxClockDriftMs : ℤ := 60000

def maxHashField : ℕ := 64

def maxChainIdLen : ℕ := 50

def flagAbsent : ℕ := 1

def flagCommit : ℕ := 2

def flagNil : ℕ := 3

def precommit : ℕ := 2

def refusal (what : String) : String := "tendermint light client: " ++ what

def timestamp (seconds nanos : ℕ) : Bytes := pbUint 1 seconds ++ pbUint 2 nanos

def wrapped (b : Bytes) : Bytes := pbBytes 1 b

def blockId (hash : Bytes) (partsTotal : ℕ) (partsHash : Bytes) : Bytes :=
  pbBytes 1 hash ++ pbMsg 2 (pbUint 1 partsTotal ++ pbBytes 2 partsHash)

/-! ### Merkle roots -/

/-- The greatest power of two below `n`, from two on. -/
def splitPoint (n : ℕ) : ℕ := 2 ^ clog 2 n / 2

theorem splitPoint_bounds {n : ℕ} (many : 2 ≤ n) : 0 < splitPoint n ∧ splitPoint n < n := by
  have exponent : 0 < clog 2 n := clog_pos (by omega) many
  have below : 2 ^ (clog 2 n - 1) < n := pow_pred_clog_lt_self (by omega) many
  have half : splitPoint n = 2 ^ (clog 2 n - 1) := by
    obtain ⟨k, eq⟩ := exists_eq_succ_of_ne_zero exponent.ne'
    rw [splitPoint, eq, succ_eq_add_one, Nat.pow_succ, Nat.mul_div_cancel _ (by omega),
      Nat.add_sub_cancel]
  rw [half]
  exact ⟨Nat.two_pow_pos _, below⟩

section
variable [RouteCrypto]

def merkleRoot : List Bytes → Bytes
  | [] => sha256 []
  | [a] => sha256 (0 :: a)
  | a :: b :: l =>
    let items := a :: b :: l
    let k := splitPoint items.length
    sha256 (1 :: (merkleRoot (items.take k) ++ merkleRoot (items.drop k)))
termination_by items => items.length
decreasing_by
  all_goals
    have bounds := splitPoint_bounds (show 2 ≤ (a :: b :: l).length by simp)
    simp only [List.length_take, List.length_drop]
    omega

end

/-! ### Headers -/

structure Header where
  versionBlock : ℕ
  versionApp : ℕ
  chainId : String
  height : ℕ
  timeSeconds : ℕ
  timeNanos : ℕ
  lastBlockHash : Bytes
  lastPartsTotal : ℕ
  lastPartsHash : Bytes
  lastCommitHash : Bytes
  dataHash : Bytes
  validatorsHash : Bytes
  nextValidatorsHash : Bytes
  consensusHash : Bytes
  appHash : Bytes
  lastResultsHash : Bytes
  evidenceHash : Bytes
  proposer : Bytes
deriving DecidableEq, Repr

def timeNs (seconds nanos : ℕ) : ℤ := seconds * 1000000000 + nanos

namespace Header

def read : Read Header := do
  let versionBlock ← readBe 8
  let versionApp ← readBe 8
  let chainId ← Packet.readStr maxChainIdLen
  let height ← readBe 8
  let timeSeconds ← readBe 8
  let timeNanos ← readBe 4
  let lastBlockHash ← readBeBytes maxHashField
  let lastPartsTotal ← readBe 4
  let lastPartsHash ← readBeBytes maxHashField
  let lastCommitHash ← readBeBytes maxHashField
  let dataHash ← readBeBytes maxHashField
  let validatorsHash ← readBeBytes maxHashField
  let nextValidatorsHash ← readBeBytes maxHashField
  let consensusHash ← readBeBytes maxHashField
  let appHash ← readBeBytes maxHashField
  let lastResultsHash ← readBeBytes maxHashField
  let evidenceHash ← readBeBytes maxHashField
  let proposer ← readBeBytes maxHashField
  require (timeNanos < 1000000000 ∧ timeSeconds < 2 ^ 63) (refusal "header time out of range")
  require (height ≠ 0 ∧ validatorsHash.length = 32 ∧ nextValidatorsHash.length = 32)
    (refusal "a header needs a height and both validator set hashes")
  return { versionBlock, versionApp, chainId, height, timeSeconds, timeNanos, lastBlockHash,
           lastPartsTotal, lastPartsHash, lastCommitHash, dataHash, validatorsHash,
           nextValidatorsHash, consensusHash, appHash, lastResultsHash, evidenceHash, proposer }

def write (h : Header) : Bytes :=
  beBytes 8 h.versionBlock ++ beBytes 8 h.versionApp ++ Packet.writeStr h.chainId ++
    beBytes 8 h.height ++ beBytes 8 h.timeSeconds ++ beBytes 4 h.timeNanos ++
    writeBeBytes h.lastBlockHash ++ beBytes 4 h.lastPartsTotal ++ writeBeBytes h.lastPartsHash ++
    writeBeBytes h.lastCommitHash ++ writeBeBytes h.dataHash ++ writeBeBytes h.validatorsHash ++
    writeBeBytes h.nextValidatorsHash ++ writeBeBytes h.consensusHash ++ writeBeBytes h.appHash ++
    writeBeBytes h.lastResultsHash ++ writeBeBytes h.evidenceHash ++ writeBeBytes h.proposer

def items (h : Header) : List Bytes :=
  [pbUint 1 h.versionBlock ++ pbUint 2 h.versionApp,
    wrapped (utf8 h.chainId),
    pbUint 1 h.height,
    timestamp h.timeSeconds h.timeNanos,
    blockId h.lastBlockHash h.lastPartsTotal h.lastPartsHash,
    wrapped h.lastCommitHash,
    wrapped h.dataHash,
    wrapped h.validatorsHash,
    wrapped h.nextValidatorsHash,
    wrapped h.consensusHash,
    wrapped h.appHash,
    wrapped h.lastResultsHash,
    wrapped h.evidenceHash,
    wrapped h.proposer]

def hash [RouteCrypto] (h : Header) : Bytes := merkleRoot h.items

def timeNs (h : Header) : ℤ := Tendermint.timeNs h.timeSeconds h.timeNanos

end Header

/-! ### Validator sets -/

/-- An Ed25519 key and its voting power. -/
abbrev Validator := Bytes × ℕ

def readValidators : Read (List Validator) := do
  let n ← readBe 2
  require (n ≠ 0 ∧ n ≤ maxValidators) (refusal s!"a validator set of {n}")
  repeated (do
    let key ← take 32
    let power ← readBe 8
    require (power ≠ 0 ∧ power < 2 ^ 63) (refusal "validator power out of range")
    return (key, power)) n

def writeValidators (set : List Validator) : Bytes :=
  beBytes 2 set.length ++ set.flatMap fun v => v.1 ++ beBytes 8 v.2

def validatorBytes (v : Validator) : Bytes := pbMsg 1 (pbBytes 1 v.1) ++ pbUint 2 v.2

def totalPower (set : List Validator) : ℕ := (set.map Prod.snd).sum

section
variable [RouteCrypto]

def validatorsHash (set : List Validator) : Bytes := merkleRoot (set.map validatorBytes)

def address (key : Bytes) : Bytes := (sha256 key).take 20

end

/-! ### Commits -/

structure CommitSig where
  flag : ℕ
  address : Bytes
  seconds : ℕ
  nanos : ℕ
  signature : Bytes
deriving DecidableEq, Repr

structure Commit where
  height : ℕ
  round : ℕ
  blockHash : Bytes
  partsTotal : ℕ
  partsHash : Bytes
  signatures : List CommitSig
deriving DecidableEq, Repr

namespace CommitSig

def read : Read CommitSig := do
  let flag ← readBe 1
  if flag = flagAbsent then
    return ⟨flag, List.replicate 20 0, 0, 0, List.replicate 64 0⟩
  else if flag = flagCommit ∨ flag = flagNil then
    let address ← take 20
    let seconds ← readBe 8
    let nanos ← readBe 4
    let signature ← take 64
    return ⟨flag, address, seconds, nanos, signature⟩
  else fail (refusal s!"unknown commit flag {flag}")

def write (s : CommitSig) : Bytes :=
  beBytes 1 s.flag ++
    if s.flag = flagAbsent then []
    else s.address ++ beBytes 8 s.seconds ++ beBytes 4 s.nanos ++ s.signature

end CommitSig

namespace Commit

def read : Read Commit := do
  let height ← readBe 8
  let round ← readBe 4
  let blockHash ← readBeBytes 32
  require (blockHash.length = 32) (refusal "a commit's block hash is 32 bytes")
  let partsTotal ← readBe 4
  let partsHash ← readBeBytes maxHashField
  let n ← readBe 2
  require (n ≠ 0 ∧ n ≤ maxValidators) (refusal s!"a commit with {n} signatures")
  let signatures ← repeated CommitSig.read n
  return { height, round, blockHash, partsTotal, partsHash, signatures }

def write (c : Commit) : Bytes :=
  beBytes 8 c.height ++ beBytes 4 c.round ++ writeBeBytes c.blockHash ++ beBytes 4 c.partsTotal ++
    writeBeBytes c.partsHash ++ beBytes 2 c.signatures.length ++ c.signatures.flatMap CommitSig.write

/-- The canonical precommit a validator signed, after its length. -/
def signBytes (c : Commit) (chainId : String) (sig : CommitSig) : Bytes :=
  let vote := pbUint 1 precommit ++ pbSfixed64 2 c.height ++ pbSfixed64 3 c.round ++
    pbMsg 4 (blockId c.blockHash c.partsTotal c.partsHash) ++
    pbMsg 5 (timestamp sig.seconds sig.nanos) ++ pbBytes 6 (utf8 chainId)
  uvarint vote.length ++ vote

section
variable [RouteCrypto] [Ed25519] (c : Commit) (chainId : String)

def checkSignature (key : Bytes) (sig : CommitSig) : Except String Unit := do
  ensure (Ed25519.isPoint key = true) (refusal "a validator key is not a curve point")
  ensure (Ed25519.verifyStrict key (c.signBytes chainId sig) sig.signature = true)
    (refusal s!"bad precommit signature from {hexEncode sig.address}")

def countByIndex : List (CommitSig × Validator) → Except String ℕ
  | [] => .ok 0
  | (sig, key, p) :: rest =>
    if sig.flag = flagAbsent then countByIndex rest
    else do
      ensure (sig.address = Tendermint.address key)
        (refusal "a commit signature is out of validator order")
      if sig.flag = flagCommit then
        checkSignature c chainId key sig
        return p + (← countByIndex rest)
      else countByIndex rest

def powerByIndex (set : List Validator) : Except String ℕ := do
  ensure (c.signatures.length = set.length)
    (refusal "the commit does not match the validator set's size")
  countByIndex c chainId (c.signatures.zip set)

def countByAddress (trusted : List Validator) : List Bytes → List CommitSig → Except String ℕ
  | _, [] => .ok 0
  | seen, sig :: rest =>
    match trusted.find? fun v => Tendermint.address v.1 = sig.address with
    | none => countByAddress trusted seen rest
    | some (key, p) => do
      ensure (sig.address ∉ seen) (refusal "a validator signed the commit twice")
      checkSignature c chainId key sig
      return p + (← countByAddress trusted (sig.address :: seen) rest)

def powerByAddress (trusted : List Validator) : Except String ℕ :=
  c.countByAddress chainId trusted [] (c.signatures.filter fun s => s.flag = flagCommit)

end

end Commit

/-! ### Consensus states -/

/-- What the client keeps for each accepted height. -/
structure ConsensusState where
  timeSeconds : ℕ
  timeNanos : ℕ
  appHash : Bytes
  nextValidatorsHash : Bytes
deriving DecidableEq, Repr

namespace ConsensusState

def ofHeader (h : Header) : Except String ConsensusState := do
  ensure (h.nextValidatorsHash.length = 32) (refusal "next validators hash")
  return ⟨h.timeSeconds, h.timeNanos, h.appHash, h.nextValidatorsHash⟩

def encode (s : ConsensusState) : Bytes :=
  beBytes 8 s.timeSeconds ++ (beBytes 4 s.timeNanos ++ (writeBeBytes s.appHash ++
    s.nextValidatorsHash))

def decode (b : Bytes) : Except String ConsensusState :=
  decodeWith (do
    let timeSeconds ← readBe 8
    let timeNanos ← readBe 4
    let appHash ← readBeBytes maxHashField
    let nextValidatorsHash ← take 32
    return { timeSeconds, timeNanos, appHash, nextValidatorsHash }) b

def timeNs (s : ConsensusState) : ℤ := Tendermint.timeNs s.timeSeconds s.timeNanos

end ConsensusState

structure Anchor where
  chainId : String
  trustedHeight : ℕ
  trustedHeaderHash : Bytes
  trustingPeriodNs : ℤ
deriving DecidableEq, Repr

def anchorParts : LightClientAnchor → Except String Anchor
  | .tendermint chainId trustedHeight trustedHeaderHash trustingPeriodSecs =>
    .ok ⟨chainId, trustedHeight, trustedHeaderHash, trustingPeriodSecs * 1000000000⟩
  | _ => refuse (refusal "the route's anchor is not a Tendermint anchor")

section
variable [RouteCrypto]

def consensusKey (route : BridgeRoute) (anchor : LightClientAnchor) (height : ℕ) : RouteKey :=
  .lightClient route.routeName anchor.id ["cs", BitcoinLightClient.padded height]

def latestKey (route : BridgeRoute) (anchor : LightClientAnchor) : RouteKey :=
  .lightClient route.routeName anchor.id []

def nowNs (s : RouteState) : ℤ := s.view.nowMs * 1000000

variable (s : RouteState) (route : BridgeRoute) (anchor : LightClientAnchor)

def consensus (height : ℕ) : Except String (Option ConsensusState) :=
  match s.get (consensusKey route anchor height) with
  | none => .ok none
  | some b => some <$> ConsensusState.decode b

def latest : Option ℕ :=
  (s.get (latestKey route anchor)).bind fun b => if b.length = 8 then some (ofBeBytes b) else none

def consensusAt (height : ℕ) (missing : String) : Except String ConsensusState := do
  match ← consensus s route anchor height with
  | some cs => return cs
  | none => refuse (refusal missing)

theorem consensusAt_ok {s : RouteState} {route : BridgeRoute} {anchor : LightClientAnchor}
    {height : ℕ} {missing : String} {cs : ConsensusState} :
    consensusAt s route anchor height missing = .ok cs ↔
      consensus s route anchor height = .ok (some cs) := by
  unfold consensusAt
  rw [bind_ok]
  constructor
  · rintro ⟨found, read, value⟩
    cases found with
    | none => cases value
    | some c => rw [read, pure_ok.1 value]
  · intro read
    exact ⟨some cs, read, rfl⟩

/-- The client must have a consensus state within the trusting period. -/
def checkNotExpired (a : Anchor) : Except String ℕ :=
  match latest s route anchor with
  | none => refuse (refusal "not bootstrapped from the anchor")
  | some height => do
    let cs ← consensusAt s route anchor height "latest state missing"
    ensure (nowNs s < cs.timeNs + a.trustingPeriodNs)
      (refusal "the client has expired: no header within the trusting period")
    return height

/-! ### Updates -/

inductive Update where
  | bootstrap (header : Header)
  | next (trustedHeight : ℕ) (header : Header) (commit : Commit)
      (validators trustedValidators : List Validator)
deriving DecidableEq, Repr

def Update.header : Update → Header
  | bootstrap header => header
  | next _ header .. => header

def Update.read : Read Update := do
  let tag ← readBe 1
  if tag = 0 then
    let header ← Header.read
    finish
    return bootstrap header
  else if tag = 1 then
    let trustedHeight ← readBe 8
    let header ← Header.read
    let commit ← Commit.read
    let validators ← readValidators
    let trustedValidators ← readValidators
    finish
    return next trustedHeight header commit validators trustedValidators
  else fail (refusal s!"unknown update tag {tag}")

variable [Ed25519]

def verifyHeader (a : Anchor) (trustedHeight : ℕ) (trusted : ConsensusState) (header : Header)
    (commit : Commit) (validators trustedValidators : List Validator) : Except String Unit := do
  ensure (header.chainId = a.chainId) (refusal "the header names another chain")
  ensure (trustedHeight < header.height ∧ trusted.timeNs < header.timeNs)
    (refusal "the header is not newer than the trusted header")
  ensure (nowNs s < trusted.timeNs + a.trustingPeriodNs)
    (refusal "the trusted header is outside the trusting period")
  ensure (header.timeNs ≤ nowNs s + maxClockDriftMs * 1000000) (refusal "the header is from the future")
  ensure (commit.height = header.height ∧ commit.blockHash = header.hash)
    (refusal "the commit is for another block")
  ensure (header.validatorsHash = validatorsHash validators)
    (refusal "the validator set is not the header's")
  ensure (validatorsHash trustedValidators = trusted.nextValidatorsHash)
    (refusal "the trusted validators are not the trusted header's next set")
  if header.height = trustedHeight + 1 then
    ensure (header.validatorsHash = trusted.nextValidatorsHash)
      (refusal "the next header's validators are not the ones the trusted header named")
  else
    let signed ← commit.powerByAddress a.chainId trustedValidators
    ensure (totalPower trustedValidators < signed * 3)
      (refusal "a third of the trusted validators' power did not sign")
  let signed ← commit.powerByIndex a.chainId validators
  ensure (totalPower validators * 2 < signed * 3)
    (refusal "two thirds of the validators' power did not sign")

def Update.check (a : Anchor) : Update → Except String Unit
  | bootstrap header => do
    ensure (header.height = a.trustedHeight ∧ header.hash = a.trustedHeaderHash)
      (refusal "the bootstrap header is not the anchor's")
    ensure (header.chainId = a.chainId) (refusal "the bootstrap header names another chain")
  | next trustedHeight header commit validators trustedValidators => do
    let trusted ← consensusAt s route anchor trustedHeight
      s!"no verified header at height {trustedHeight}"
    verifyHeader s a trustedHeight trusted header commit validators trustedValidators

def advance (update : Bytes) : Except String (List ClientWrite × ℕ) := do
  let a ← anchorParts anchor
  let u ← Update.read.run' ⟨0, update⟩
  u.check s route anchor a
  let cs ← ConsensusState.ofHeader u.header
  let existing ← consensus s route anchor u.header.height
  ensure (existing = none ∨ existing = some cs)
    (refusal s!"a conflicting header at height {u.header.height}: the chain's validators signed two blocks")
  let height := (latest s route anchor).elim u.header.height fun l => max l u.header.height
  return ([(["cs", BitcoinLightClient.padded u.header.height], cs.encode), ([], beBytes 8 height)],
    height)

def applyUpdate (update : Bytes) : Except String ℕ × RouteState :=
  s.commit ((advance s route anchor update).map fun r =>
    (r.1.map fun w => (.lightClient route.routeName anchor.id w.1, w.2), r.2))

end

end Tendermint
end Tenzro.Bridge
