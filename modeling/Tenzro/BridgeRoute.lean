import Tenzro.ByteCodec
import Tenzro.Outcome

set_option autoImplicit false

/-!
# Governed bridge routes

What a route names and the rules it must satisfy before it carries traffic. Hashes and
the deposit descriptor's output key are computed outside; 32-byte fields are byte strings.
-/
namespace Tenzro.Bridge
open ByteCodec

/-- The cryptographic functions the routes use. -/
class RouteCrypto where
  sha256 : Bytes → Bytes
  length_sha256 : ∀ b, (sha256 b).length = 32
  keccak256 : Bytes → Bytes
  length_keccak256 : ∀ b, (keccak256 b).length = 32
  /-- The x coordinate of `tr(NUMS, multi_a(threshold, signers))`, and whether its y is odd. -/
  outputKey : List Bytes → ℕ → Except String (Bytes × Bool)
  length_outputKey : ∀ signers threshold key odd,
    outputKey signers threshold = .ok (key, odd) → key.length = 32

export RouteCrypto (sha256 keccak256)

theorem RouteCrypto.length_refused {refusal : String} (signers : List Bytes) (threshold : ℕ)
    (key : Bytes) (odd : Bool)
    (out : (.error refusal : Except String (Bytes × Bool)) = .ok (key, odd)) : key.length = 32 := by
  cases out

def utf8 (s : String) : Bytes := s.toByteArray.data.toList

theorem utf8_injective {s t : String} (h : utf8 s = utf8 t) : s = t := by
  apply String.toByteArray_inj.1
  exact ByteArray.ext (Array.toList_inj.1 h)

inductive BridgeRouteAdapter where
  | ccip
  | ibc
  | deposit
  | contract
deriving DecidableEq, Repr

inductive ChainFamily where
  | evm
  | solana
  | cosmos
  | bitcoin
  | stellar
  | sui
  | aptos
  | ton
deriving DecidableEq, Repr

inductive BridgeRouteMode where
  | opened
  | disabled
  | paused
deriving DecidableEq, Repr

def BridgeRouteAdapter.asStr : BridgeRouteAdapter → String
  | .ccip => "ccip"
  | .ibc => "ibc"
  | .deposit => "deposit"
  | .contract => "contract"

def BridgeRouteAdapter.all : List BridgeRouteAdapter := [.ccip, .ibc, .deposit, .contract]

def BridgeRouteAdapter.families : BridgeRouteAdapter → List ChainFamily
  | .ccip => [.evm, .solana]
  | .ibc => [.cosmos]
  | .deposit => [.bitcoin]
  | .contract => [.stellar, .sui, .aptos, .ton]

def BridgeRouteMode.asStr : BridgeRouteMode → String
  | .opened => "open"
  | .disabled => "disabled"
  | .paused => "paused"

/-- A cap on one mint and on the mints of one epoch. -/
structure MintRateLimit where
  perMint : ℕ
  perEpoch : ℕ
deriving DecidableEq, Repr

def MintRateLimit.tightest (a b : MintRateLimit) : MintRateLimit :=
  ⟨min a.perMint b.perMint, min a.perEpoch b.perEpoch⟩

def MintRateLimit.validate (l : MintRateLimit) : Bool :=
  0 < l.perMint && 0 < l.perEpoch && l.perMint ≤ l.perEpoch

structure LaneRateLimit where
  capacity : ℕ
  rate : ℕ
deriving DecidableEq, Repr

def LaneRateLimit.validate (l : LaneRateLimit) : Bool := 0 < l.rate && l.rate < l.capacity

inductive CcipLaneVersion where
  | v2_0
  | v1_6
  | v1_5
deriving DecidableEq, Repr

structure CcipLane where
  version : CcipLaneVersion
  inbound : LaneRateLimit
deriving DecidableEq, Repr

inductive IbcVersion where
  | classic
  | v2
deriving DecidableEq, Repr

structure IbcRoute where
  version : IbcVersion
  counterpartyClientId : String
  counterpartyConnectionId : Option String
  counterpartyChannelId : Option String
  packetTimeoutSecs : ℕ
deriving DecidableEq, Repr

structure VerifierMember where
  address : Bytes
  pqPublicKey : Bytes
  operator : String
  rpcProvider : String
deriving DecidableEq, Repr

structure VerifierQuorum where
  size : ℕ
  members : List VerifierMember
  threshold : ℕ
deriving DecidableEq, Repr

inductive LightClientAnchor where
  | ethereumSyncCommittee (genesisValidatorsRoot trustedBlockRoot : Bytes)
  | tendermint (chainId : String) (trustedHeight : ℕ) (trustedHeaderHash : Bytes)
      (trustingPeriodSecs : ℕ)
  | bitcoinHeaders (trustedHeight : ℕ) (trustedHeaderHash : Bytes) (confirmations : ℕ)
      (signers : List Bytes) (threshold feeRate : ℕ)
  | suiCommittee (trustedCheckpointDigest : Bytes)
  | aptosValidators (trustedLedgerInfoHash : Bytes)
  | stellarScp (networkId : Bytes) (validators : List Bytes) (threshold : ℕ)
  | tonKeyBlock (trustedSeqno : ℕ) (trustedRootHash : Bytes)
deriving DecidableEq, Repr

inductive LightClientKind where
  | ethereumSyncCommittee
  | tendermint
  | bitcoinHeaders
  | suiCommittee
  | aptosValidators
  | stellarScp
  | tonValidators
deriving DecidableEq, Repr

inductive AssetTransfer where
  | lockAndMint
  | burnAndMint (protocol operator : String)
deriving DecidableEq, Repr

/-- A listed external token a route carries. -/
structure CarriedAsset where
  symbol : String
  name : String
  decimals : ℕ
  pool : Bytes
  remoteToken : Bytes
  caip19 : String
  transfer : AssetTransfer
  mintLimit : MintRateLimit
  outflow : LaneRateLimit
  /-- The inbound bucket of the asset's lane. -/
  lane : Option LaneRateLimit
  maxOutstanding : ℕ
  enabled : Bool
deriving DecidableEq, Repr

structure BridgeRoute where
  adapter : BridgeRouteAdapter
  family : ChainFamily
  sourceChain : String
  sourceChainId : ℕ
  localSelector : ℕ
  peer : Bytes
  ramp : Bytes
  localEndpoint : Bytes
  remoteToken : Bytes
  verifiers : VerifierQuorum
  blessing : Option VerifierQuorum
  lightClient : Option LightClientAnchor
  mintLimit : MintRateLimit
  outflow : LaneRateLimit
  laneLimits : Option CcipLane
  ibc : Option IbcRoute
  settlementLock : Option Bytes
  assets : List CarriedAsset
  nativeAsset : Option String
deriving DecidableEq, Repr

/-! ### Names -/

def BridgeRoute.storageFields (r : BridgeRoute) : List String :=
  ["bridge_route", r.adapter.asStr, r.sourceChain]

def BridgeRoute.storageKey (r : BridgeRoute) : String := ":".intercalate r.storageFields

def isUppercaseOrDigit (c : Char) : Bool := c.isUpper || c.isDigit

/-- 1 to 12 upper-case letters or digits. -/
def isSymbol (s : String) : Bool :=
  s ≠ "" && s.length ≤ 12 && s.toList.all isUppercaseOrDigit

def isChainName (s : String) : Bool :=
  s ≠ "" && s.utf8ByteSize ≤ 64 && s.toList.all (fun c => c.isLower || c.isDigit || c = '-' || c = '_')

def toAsciiLower (s : String) : String := String.ofList (s.toList.map Char.toLower)

def toAsciiUpper (s : String) : String := String.ofList (s.toList.map Char.toUpper)

def isIbcIdentifier (s : String) (shortest : ℕ) : Bool :=
  shortest ≤ s.length && s.length ≤ 64 &&
    s.toList.all (fun c => c.isAlphanum || c ∈ ['.', '-', '_', '+', '#', '[', ']', '<', '>'])

def splitOnce (c : Char) (l : List Char) : Option (List Char × List Char) :=
  match l.span (· ≠ c) with
  | (a, _ :: b) => some (a, b)
  | (_, []) => none

/-- `namespace:reference/asset_namespace:asset_reference`. -/
def isCaip19 (s : String) : Bool :=
  let part (p : List Char) (nsMax refMax : ℕ) (extra : List Char) : Bool :=
    match splitOnce ':' p with
    | none => false
    | some (ns, r) =>
      3 ≤ ns.length && ns.length ≤ nsMax &&
        ns.all (fun c => c.isLower || c.isDigit || c = '-') &&
        1 ≤ r.length && r.length ≤ refMax &&
        r.all (fun c => c.isAlphanum || c = '-' || c ∈ extra)
  match splitOnce '/' s.toList with
  | none => false
  | some (chain, asset) =>
    part chain 8 32 ['_'] && part asset 8 128 ['.', '%', ':', '_']

def trim (s : String) : String :=
  let front := s.toList.dropWhile Char.isWhitespace
  String.ofList (front.reverse.dropWhile Char.isWhitespace).reverse

/-! ### IBC names -/

section
variable [RouteCrypto]

def ibcTransferPort : String := "transfer"

namespace IbcRoute

def identifierNumber (chain : String) : ℕ := ofBeBytes ((sha256 (utf8 chain)).take 8)

def tenzroClientId (chain : String) : String := s!"07-tendermint-{identifierNumber chain}"

def tenzroConnectionId (chain : String) : String := s!"connection-{identifierNumber chain}"

def tenzroChannelId (chain : String) : String := s!"channel-{identifierNumber chain}"

def tenzroPacketId (ibc : IbcRoute) (chain : String) : String :=
  match ibc.version with
  | .classic => tenzroChannelId chain
  | .v2 => tenzroClientId chain

def counterpartyPacketId (ibc : IbcRoute) : String :=
  match ibc.version with
  | .classic => ibc.counterpartyChannelId.getD ""
  | .v2 => ibc.counterpartyClientId

def endHash (id : String) : Bytes := sha256 (utf8 s!"{ibcTransferPort}/{id}")

def tnzoTrace (ibc : IbcRoute) : String := s!"{ibcTransferPort}/{ibc.counterpartyPacketId}/atnzo"

def validate (ibc : IbcRoute) (route : BridgeRoute) : Bool :=
  isIbcIdentifier (tenzroClientId route.sourceChain) 9 &&
    isIbcIdentifier ibc.counterpartyClientId 9 &&
    (match ibc.version, ibc.counterpartyConnectionId, ibc.counterpartyChannelId with
      | .classic, some connection, some channel =>
        isIbcIdentifier connection 10 && isIbcIdentifier channel 8
      | .v2, none, none => true
      | _, _, _ => false) &&
    0 < ibc.packetTimeoutSecs && ibc.packetTimeoutSecs ≤ 24 * 3600 &&
    route.peer = endHash ibc.counterpartyPacketId &&
    route.localEndpoint = endHash (ibc.tenzroPacketId route.sourceChain) &&
    route.remoteToken = sha256 (utf8 ibc.tnzoTrace)

end IbcRoute

/-! ### Light-client anchors -/

namespace LightClientAnchor

def kind : LightClientAnchor → LightClientKind
  | .ethereumSyncCommittee .. => .ethereumSyncCommittee
  | .tendermint .. => .tendermint
  | .bitcoinHeaders .. => .bitcoinHeaders
  | .suiCommittee .. => .suiCommittee
  | .aptosValidators .. => .aptosValidators
  | .stellarScp .. => .stellarScp
  | .tonKeyBlock .. => .tonValidators

def id : LightClientAnchor → Bytes
  | .ethereumSyncCommittee _ trustedBlockRoot => trustedBlockRoot
  | .tendermint _ _ trustedHeaderHash _ => trustedHeaderHash
  | .bitcoinHeaders _ trustedHeaderHash confirmations signers threshold _ =>
    sha256 (trustedHeaderHash ++ beBytes 4 confirmations ++ beBytes 4 threshold ++ signers.flatten)
  | .suiCommittee trustedCheckpointDigest => trustedCheckpointDigest
  | .aptosValidators trustedLedgerInfoHash => trustedLedgerInfoHash
  | .stellarScp networkId validators threshold =>
    sha256 (networkId ++ beBytes 4 threshold ++ validators.flatten)
  | .tonKeyBlock _ trustedRootHash => trustedRootHash

def isZero (b : Bytes) : Bool := b = List.replicate 32 0

def validate (route : BridgeRoute) : LightClientAnchor → Bool
  | .tendermint chainId trustedHeight trustedHeaderHash trustingPeriodSecs =>
    route.family = .cosmos && chainId ≠ "" && chainId.utf8ByteSize ≤ 50 && trustedHeight ≠ 0 &&
      !isZero trustedHeaderHash && trustingPeriodSecs ≠ 0
  | .bitcoinHeaders trustedHeight trustedHeaderHash confirmations signers threshold feeRate =>
    route.family = .bitcoin && trustedHeight % 2016 = 0 && !isZero trustedHeaderHash &&
      6 ≤ confirmations && signers ≠ [] && signers.length ≤ 32 && signers.Nodup &&
      !signers.any isZero && signers.length / 2 < threshold && threshold ≤ signers.length &&
      feeRate ≠ 0 && feeRate ≤ 1000
  | .suiCommittee trustedCheckpointDigest =>
    route.family = .sui && !isZero trustedCheckpointDigest
  | .tonKeyBlock trustedSeqno trustedRootHash =>
    route.family = .ton && trustedSeqno ≠ 0 && !isZero trustedRootHash
  | .aptosValidators trustedLedgerInfoHash =>
    route.family = .aptos && !isZero trustedLedgerInfoHash
  | .stellarScp networkId validators threshold =>
    route.family = .stellar && !isZero networkId && 3 ≤ validators.length &&
      validators.length ≤ 64 && validators.Nodup && !validators.any isZero &&
      validators.length * 2 / 3 < threshold && threshold ≤ validators.length
  | .ethereumSyncCommittee genesisValidatorsRoot trustedBlockRoot =>
    route.family = .evm && route.sourceChain = "ethereum" && !isZero genesisValidatorsRoot &&
      !isZero trustedBlockRoot

def storeFields (anchor : LightClientAnchor) (route : BridgeRoute) : List String :=
  "bridge_lc" :: route.storageFields ++ [hexEncode anchor.id]

end LightClientAnchor

def ChainFamily.requiredLightClient : ChainFamily → Option LightClientKind
  | .cosmos => some .tendermint
  | .bitcoin => some .bitcoinHeaders
  | .stellar => some .stellarScp
  | .sui => some .suiCommittee
  | .aptos => some .aptosValidators
  | .ton => some .tonValidators
  | .evm => none
  | .solana => none

/-! ### The route rules -/

/-- A drawn committee: its size and threshold, distinct members with both keys, and no
operator or RPC provider that reaches the threshold alone. -/
def VerifierQuorum.validate (q : VerifierQuorum) : Bool :=
  3 ≤ q.size && q.size ≤ 255 && q.size / 2 + 1 ≤ q.threshold && q.threshold ≤ q.size &&
    q.members.length = q.size && (q.members.map VerifierMember.address).Nodup &&
    q.members.all (fun m =>
      m.address ≠ List.replicate 20 0 && m.pqPublicKey.length = 1952 &&
        trim m.operator ≠ "" && trim m.rpcProvider ≠ "" &&
        (trim m.operator).utf8ByteSize ≤ 128 && (trim m.rpcProvider).utf8ByteSize ≤ 128 &&
        q.members.countP (fun x => trim x.operator = trim m.operator) < q.threshold &&
        q.members.countP (fun x => trim x.rpcProvider = trim m.rpcProvider) < q.threshold)

def CarriedAsset.representationId (a : CarriedAsset) : Bytes :=
  sha256 (utf8 "tenzro/bridge/representation/" ++ utf8 (toAsciiUpper a.symbol))

def isHexAccount (s : String) : Bool :=
  s.length = 64 && s.toList.all (fun c =>
    c.isDigit || ('a' ≤ c && c ≤ 'f') || ('A' ≤ c && c ≤ 'F'))

def CarriedAsset.validate (a : CarriedAsset) (route : BridgeRoute) : Bool :=
  isSymbol a.symbol && a.symbol ≠ "TNZO" && a.name ≠ "" && a.name.utf8ByteSize ≤ 64 &&
    a.decimals ≤ 18 && !LightClientAnchor.isZero a.pool &&
    !LightClientAnchor.isZero a.remoteToken && isCaip19 a.caip19 && 0 < a.maxOutstanding &&
    a.mintLimit.validate && a.mintLimit.perMint ≤ a.maxOutstanding && a.outflow.validate &&
    (match route.adapter, a.lane with
      | .ccip, none => false
      | .ccip, some inbound => inbound.validate && inbound.capacity ≤ a.mintLimit.perEpoch
      | _, some _ => false
      | _, none => true) &&
    (match a.transfer with
      | .lockAndMint => true
      | .burnAndMint protocol operator =>
        protocol ≠ "" && protocol.utf8ByteSize ≤ 128 && isHexAccount operator)

namespace BridgeRoute

def validateAssets (r : BridgeRoute) : Bool :=
  r.nativeAsset.all (fun native => isCaip19 native && !r.assets.any (fun a => a.caip19 = native)) &&
    r.assets.length ≤ 8 && (r.assets = [] || r.adapter = .ccip || r.adapter = .contract) &&
    r.assets.all (fun a => a.validate r) &&
    (r.assets.map (fun a => toAsciiUpper a.symbol)).Nodup &&
    (r.assets.map CarriedAsset.caip19).Nodup && (r.peer :: r.assets.map CarriedAsset.pool).Nodup

/-- Every rule a route that carries traffic must satisfy. -/
def validate (r : BridgeRoute) : Bool :=
  isChainName r.sourceChain && r.family ∈ r.adapter.families && r.sourceChainId ≠ 0 &&
    r.localSelector ≠ 0 && !LightClientAnchor.isZero r.peer && !LightClientAnchor.isZero r.ramp &&
    !LightClientAnchor.isZero r.localEndpoint && !LightClientAnchor.isZero r.remoteToken &&
    r.verifiers.validate &&
    (match r.adapter, r.blessing with
      | .ccip, none => false
      | .ccip, some blessing => blessing.validate && !blessing.members.any (fun m =>
          (r.verifiers.members.map VerifierMember.address).contains m.address)
      | _, some _ => false
      | _, none => true) &&
    r.lightClient.all (fun anchor => anchor.validate r) &&
    (match r.family.requiredLightClient, r.lightClient with
      | some kind, some anchor => anchor.kind = kind
      | some _, none => false
      | none, _ => true) &&
    r.mintLimit.validate && r.outflow.validate &&
    (match r.adapter, r.ibc with
      | .ibc, none => false
      | .ibc, some ibc => ibc.validate r
      | _, some _ => false
      | _, none => true) &&
    !(r.settlementLock.isSome && r.family = .bitcoin) && r.validateAssets &&
    (match r.adapter, r.laneLimits with
      | .ccip, none => false
      | .ccip, some lane =>
        !(r.family = .solana && lane.version ≠ .v1_6) && lane.inbound.validate &&
          lane.inbound.capacity ≤ r.mintLimit.perEpoch
      | _, some _ => false
      | _, none => true)

def asset (r : BridgeRoute) (symbol : String) : Option CarriedAsset :=
  r.assets.find? (fun a => toAsciiLower a.symbol = toAsciiLower symbol)

def assetByPool (r : BridgeRoute) (pool : Bytes) : Option CarriedAsset :=
  r.assets.find? (fun a => a.pool = pool)

end BridgeRoute
end

def depositUnit : ChainFamily → Option String
  | .bitcoin => some "BTC"
  | _ => none

def tnzoUnit : String := "TNZO"

end Tenzro.Bridge
