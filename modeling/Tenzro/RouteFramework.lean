import Tenzro.RouteIbc
import Tenzro.BitcoinCodec

set_option autoImplicit false

/-!
# The route framework

One set of rules for every bridge route: the delivery envelope, the limits, the supply
records and the outbound sequence. Adapters translate formats; a call either writes all
its records or none.
-/
namespace Tenzro.Bridge
open ByteCodec FixedWidth Outcome

/-- A delivery's envelope: its signatures are kept as the committees' checks take them. -/
structure Delivery where
  destChainId : ℕ
  nonce : ℕ
  expiryMs : ℤ
  body : Bytes
  proof : Bytes
  committee : List (Bytes × Bytes)
  committeePq : List (Bytes × Bytes)
  blessing : List (Bytes × Bytes)
  blessingPq : List (Bytes × Bytes)
deriving DecidableEq, Repr

namespace Delivery

def readSignatures (width : ℕ) : Read (List (Bytes × Bytes)) := do
  let count ← readBe 1
  repeated (do return (← take 20, ← take width)) count

def read : Read Delivery := do
  let destChainId ← readBe 8
  let nonce ← readBe 8
  let expiryMs ← readBe 8
  require (expiryMs < 2 ^ 63) "expiry out of range"
  let body ← readBeBytes (64 * 1024)
  let proof ← readBeBytes (2 * 1024 * 1024)
  let committee ← readSignatures 65
  let committeePq ← readSignatures 3309
  let blessing ← readSignatures 65
  let blessingPq ← readSignatures 3309
  return { destChainId, nonce, expiryMs, body, proof, committee, committeePq, blessing, blessingPq }

def decode (b : Bytes) : Except String Delivery := decodeWith read b

end Delivery

/-- What one chain family implements. -/
structure FamilyAdapter where
  decodeInbound : BridgeRoute → Read RouteMessage
  encodeOutbound : BridgeRoute → RouteMessage → Except String Bytes
  decodeOutbound : BridgeRoute → Read RouteMessage
  outboundMessageId : BridgeRoute → RouteMessage → Except String Bytes

/-- An issuer's own transfer protocol. -/
structure IssuerHook where
  verifyBurn : BridgeRoute → CarriedAsset → RouteMessage → Bytes → Except String Unit
  mintInstruction : BridgeRoute → CarriedAsset → RouteMessage → Except String Bytes

abbrev ClientWrite := List String × Bytes

/-- A light client keeps its records under its store key, and none under the key of the
route's output set. -/
structure LightClientVerifier where
  verify : RouteState → BridgeRoute → LightClientAnchor → Bytes → Bytes → Except String Unit
  advance : RouteState → BridgeRoute → LightClientAnchor → Bytes → Except String (List ClientWrite)
  suffixes : ∀ s route anchor update writes, advance s route anchor update = .ok writes →
    ∀ w ∈ writes, w.1 ≠ ["utxos"] ∧ ∀ f ∈ w.1, ':' ∉ f.toList

/-- What is installed around the framework, the IBC and Bitcoin adapters apart. -/
class RouteEnv where
  attestationDigest : BridgeRoute → Delivery → Bytes
  verifyCommittee : VerifierQuorum → Bytes → List (Bytes × Bytes) → List (Bytes × Bytes) →
    Except String Unit
  checkExecution : BridgeRoute → Bytes → Delivery → Except String Unit
  otherAdapter : BridgeRouteAdapter → ChainFamily → Option FamilyAdapter
  lightClient : LightClientKind → Option LightClientVerifier
  issuerHook : String → Option IssuerHook

inductive Traffic where
  | inbound
  | outbound
  | redeem
deriving DecidableEq, Repr

structure AdmittedTransfer where
  message : RouteMessage
  usage : EpochUsage
  supply : SupplyRecord
  asset : Option CarriedAsset
deriving DecidableEq, Repr

structure OutboundMessage where
  message : RouteMessage
  bytes : Bytes
  supply : SupplyRecord
  asset : Option CarriedAsset
deriving DecidableEq, Repr

structure OutboundData where
  sequence : ℕ
  messageId : Bytes
  bytes : Bytes
deriving DecidableEq, Repr

def exitUnit (route : BridgeRoute) (asset : Option CarriedAsset) : Except String String :=
  match asset with
  | some a => .ok a.symbol
  | none =>
    if route.adapter ≠ .deposit then .ok tnzoUnit
    else
      match depositUnit route.family with
      | some unit => .ok unit
      | none => refuse "the route's family has no deposit asset"

section
variable [RouteCrypto]

/-! ### The Bitcoin adapter -/

def routeDescriptor (route : BridgeRoute) : Except String (DepositDescriptor × ℕ) :=
  match route.lightClient with
  | some (.bitcoinHeaders _ _ _ signers threshold feeRate) => do
    let desc : DepositDescriptor := ⟨signers, threshold⟩
    let script ← desc.scriptPubkey
    ensure (sha256 script = route.peer)
      "bitcoin: the route's peer is not the hash of its deposit descriptor's script"
    return (desc, feeRate)
  | _ => .error "bitcoin: a deposit route needs its header-chain anchor"

def depositOutputs (route : BridgeRoute) (tx : BitcoinTx) : List (TxOut × ℕ) :=
  tx.outputs.zipIdx.filter fun o => sha256 o.1.script = route.peer

def markerAccount (script : Bytes) : Option Bytes :=
  match script with
  | 0x6a :: 36 :: tag => if tag.length = 36 ∧ tag.take 4 = utf8 "TNZO" then some (tag.drop 4) else none
  | _ => none

def badDeposit (what : String) : String := "bitcoin deposit: " ++ what

/-- A reader that reads nothing more. -/
def liftRead {α : Type} (x : Except String α) : Read α := fun r => x.map fun a => (a, r)

def bitcoinDecodeInbound (route : BridgeRoute) : Read RouteMessage := do
  let _ ← liftRead (routeDescriptor route)
  let d ← Deposit.read
  let tx ← liftRead (BitcoinTx.decode d.tx)
  match depositOutputs route tx, tx.outputs.filter (fun o => o.script.head? = some 0x6a) with
  | [(deposit, _)], [marker] =>
    match markerAccount marker.script with
    | none => fail (badDeposit "the OP_RETURN output is not a Tenzro deposit marker")
    | some account =>
      require (marker.value = 0 ∧ deposit.value ≠ 0)
        (badDeposit "the marker carries value or the deposit carries none")
      return { messageId := d.txid, sourceSelector := route.sourceChainId,
               destSelector := route.localSelector, sequence := d.sequence,
               sender := ((tx.inputs.head?).map TxIn.prevout).getD [], receiver := account,
               tokenPool := route.peer, token := route.localEndpoint, amount := deposit.value }
  | [_], _ => fail (badDeposit "exactly one OP_RETURN output must name the recipient")
  | _, _ => fail (badDeposit "exactly one output must pay the deposit script")

def depositUtxo (route : BridgeRoute) (body : Bytes) : Except String Utxo := do
  let d ← decodeWith Deposit.read body
  let tx ← BitcoinTx.decode d.tx
  match tx.outputs.zipIdx.find? (fun o => sha256 o.1.script = route.peer) with
  | none => .error (badDeposit "no output pays the deposit script")
  | some (out, vout) => return ⟨d.txid, vout, out.value⟩

def utxoSetKey (route : BridgeRoute) (anchor : LightClientAnchor) : RouteKey :=
  .utxos route.routeName anchor.id

def readUtxos (s : RouteState) (route : BridgeRoute) : Except String (List Utxo) :=
  match route.lightClient with
  | none => .error "bitcoin: a deposit route needs its header-chain anchor"
  | some anchor =>
    match s.get (utxoSetKey route anchor) with
    | some b => decodeUtxos b
    | none => .ok []

def bitcoinAdapter : FamilyAdapter where
  decodeInbound := bitcoinDecodeInbound
  encodeOutbound _ _ := .error "bitcoin: a withdrawal is planned from the descriptor's outputs, not encoded from a message"
  decodeOutbound _ := fail "bitcoin: a withdrawal is planned from the descriptor's outputs, not encoded from a message"
  outboundMessageId _ _ := .ok (List.replicate 32 0)

variable [Json]

def ibcAdapter : FamilyAdapter where
  decodeInbound := ibcDecodeInbound
  encodeOutbound _ _ := .error (badPacket "an outbound packet is built with its timeout by the IBC layer")
  decodeOutbound route := do
    let ibc ← liftRead (settings route)
    let p ← Packet.read ibc.version
    liftRead (outboundMessage route p)
  outboundMessageId _ _ := .ok (List.replicate 32 0)

variable [RouteEnv]

/-! ### Rules every use shares -/

def adapterOf (route : BridgeRoute) : Except String FamilyAdapter :=
  match route.adapter, route.family with
  | .deposit, .bitcoin => .ok bitcoinAdapter
  | .ibc, .cosmos => .ok ibcAdapter
  | adapter, family =>
    match RouteEnv.otherAdapter adapter family with
    | some a => .ok a
    | none => refuse s!"no {adapter.asStr} adapter for the route's chains"

def issuerHookOf (asset : CarriedAsset) : Except String (Option IssuerHook) :=
  match asset.transfer with
  | .lockAndMint => .ok none
  | .burnAndMint protocol _ =>
    match RouteEnv.issuerHook protocol with
    | some hook => .ok (some hook)
    | none => refuse s!"no issuer transfer hook '{protocol}' is installed for {asset.symbol}"

def lightClientOf (route : BridgeRoute) : Except String (LightClientVerifier × LightClientAnchor) :=
  match route.lightClient with
  | none => refuse s!"route {route.storageKey} has no light client"
  | some anchor =>
    match RouteEnv.lightClient anchor.kind with
    | some verifier => .ok (verifier, anchor)
    | none => refuse s!"route {route.storageKey} requires a light-client proof and no verifier of its kind is installed"

/-- Whether the circuit breaker lets the traffic through. -/
def passes (route : BridgeRoute) (traffic : Traffic) : Option (BridgeRouteMode × String) → Bool
  | none => true
  | some (.disabled, _) =>
    (traffic = .inbound && route.adapter ≠ .deposit) || traffic = .redeem
  | some _ => false

def liveRoute (s : RouteState) (adapter : BridgeRouteAdapter) (chain : String)
    (traffic : Traffic) : Except String BridgeRoute :=
  let chain := toAsciiLower chain
  match s.view.route adapter chain with
  | none => refuse s!"no governed {adapter.asStr} route for '{chain}'; traffic refused"
  | some route => do
    ensure (route.adapter = adapter ∧ route.sourceChain = chain)
      s!"no governed {adapter.asStr} route for '{chain}'; traffic refused"
    ensure (route.validate = true)
      s!"route {route.storageKey} breaks the route rules; traffic refused"
    ensure (passes route traffic (s.view.stopped route) = true)
      s!"route {route.storageKey} is stopped; governance must open it"
    return route

/-- The longest an attestation may remain usable, in milliseconds. -/
def maxAttestationValidityMs : ℤ := 60 * 60 * 1000

def verifyProof (s : RouteState) (route : BridgeRoute) (digest : Bytes) (d : Delivery) :
    Except String Unit :=
  if route.lightClient.isSome then do
    let (verifier, anchor) ← lightClientOf route
    verifier.verify s route anchor (keccak256 d.body) d.proof
  else if route.family = .solana then RouteEnv.checkExecution route digest d
  else ensure (d.proof = []) "a proof on a route that takes none"

def verifiedDelivery (s : RouteState) (route : BridgeRoute) (delivery : Bytes) :
    Except String Delivery := do
  let d ← Delivery.decode delivery
  ensure (d.destChainId = s.view.localChainId)
    s!"attestation names chain {d.destChainId} but this chain is {s.view.localChainId}"
  ensure (s.view.nowMs < d.expiryMs) "attestation has expired"
  ensure (d.expiryMs - s.view.nowMs ≤ maxAttestationValidityMs)
    s!"attestation expiry is more than {maxAttestationValidityMs} ms ahead"
  let digest := RouteEnv.attestationDigest route d
  RouteEnv.verifyCommittee route.verifiers digest d.committee d.committeePq
  match route.blessing with
  | some blessing => RouteEnv.verifyCommittee blessing digest d.blessing d.blessingPq
  | none =>
    ensure (d.blessing = [] ∧ d.blessingPq = [])
      "blessing signatures on a route without a blessing committee"
  verifyProof s route digest d
  return d

/-! ### Data messages -/

def publishedMessage (body : Bytes) : Bytes := 2 :: keccak256 body

def consumedMessage : Bytes := [1]

def admitMessage (s : RouteState) (adapter : BridgeRouteAdapter) (chain : String)
    (delivery : Bytes) : Except String (List Write × BridgeRoute × Delivery) := do
  let route ← liveRoute s adapter chain .inbound
  let d ← verifiedDelivery s route delivery
  let key := RouteKey.messageNonce route.routeName d.nonce
  ensure (s.get key = none ∨ s.get key = some (publishedMessage d.body))
    s!"message nonce {d.nonce} on route {route.storageKey} was already used"
  return ([(key, consumedMessage)], route, d)

def publishMessage (s : RouteState) (adapter : BridgeRouteAdapter) (chain : String)
    (delivery : Bytes) : Except String (List Write × BridgeRoute × Delivery) := do
  let route ← liveRoute s adapter chain .inbound
  let d ← verifiedDelivery s route delivery
  let key := RouteKey.messageNonce route.routeName d.nonce
  ensure (s.get key = none)
    s!"message nonce {d.nonce} on route {route.storageKey} was already used"
  return ([(key, publishedMessage d.body)], route, d)

def handleIbc [StoreProofs] (s : RouteState) (chain : String) (msg : IbcMsg) :
    Except String (List Write × BridgeRoute × IbcOutcome) := do
  let route ← liveRoute s .ibc chain .inbound
  let (writes, outcome) ← handle s route msg
  return (writes, route, outcome)

def advanceLightClient (s : RouteState) (adapter : BridgeRouteAdapter) (chain : String)
    (update : Bytes) : Except String (List Write × BridgeRoute) :=
  match s.view.route adapter (toAsciiLower chain) with
  | none => refuse s!"no governed {adapter.asStr} route for '{toAsciiLower chain}'"
  | some route => do
    ensure (route.validate = true) s!"route {route.storageKey} breaks the route rules"
    let (verifier, anchor) ← lightClientOf route
    let writes ← verifier.advance s route anchor update
    return (writes.map fun w => (.lightClient route.routeName anchor.id w.1, w.2), route)

/-! ### Inbound transfers -/

def inboundAsset (s : RouteState) (route : BridgeRoute) (message : RouteMessage) (body : Bytes) :
    Except String (Option CarriedAsset) :=
  if message.tokenPool = route.peer then do
    ensure (message.token = route.localEndpoint)
      "message is not addressed to the route's Tenzro endpoint"
    return none
  else
    match route.assetByPool message.tokenPool with
    | none => refuse "message was not sent by the route's token pool"
    | some asset => do
      ensure (message.token = asset.representationId)
        s!"message is not addressed to the {asset.symbol} representation"
      ensure (asset.enabled = true) s!"{asset.symbol} is not enabled on route {route.storageKey}"
      ensure (s.view.stopped route = none)
        s!"route {route.storageKey} is stopped; it credits no new {asset.symbol}"
      match ← issuerHookOf asset with
      | some hook => hook.verifyBurn route asset message body
      | none => pure ()
      return some asset

/-- What an inbound transfer draws on: the epoch record, the lane and the supply record. -/
structure InboundDraw where
  usage : Write × EpochUsage
  lane : List Write
  supplyKey : RouteKey
  supply : SupplyRecord

def drawInbound (s : RouteState) (route : BridgeRoute) (asset : Option CarriedAsset)
    (amount : ℕ) : Except String InboundDraw :=
  match asset with
  | some asset => do
    let usage ← consumeAssetEpoch s route asset amount
    let lane ← consumeAssetLane s route asset .inbound amount
    let supply ← (readAssetSupply s route asset).lockAndMint amount route
    ensure (supply.locked ≤ asset.maxOutstanding)
      s!"{asset.symbol} would back {supply.locked} on route {route.storageKey}, above its cap of {asset.maxOutstanding}"
    return ⟨usage, lane, .assetSupply route.routeName asset.symbol, supply⟩
  | none =>
    match s.view.networkLimit route with
    | none => refuse "no network-wide bridge mint limits are set; no route may mint"
    | some network => do
      let usage ← consumeEpoch s route network amount
      let lane ← consumeLane s route .inbound amount
      -- a deposit raises both counts; every other route releases what it locked when it went out
      let supply ← (if route.adapter = .deposit then (readSupply s route).lockAndMint amount route
        else (readSupply s route).release amount route)
      return ⟨usage, lane, .supply route.routeName, supply⟩

def transportWrites (s : RouteState) (route : BridgeRoute) (sequence : ℕ) (body : Bytes) :
    Except String (List Write) := do
  let ibc ← (if route.adapter = .ibc then do
      checkOpen s route
      receivedWrites route sequence
    else pure [])
  match route.adapter, route.lightClient with
  | .deposit, some anchor => do
    let utxos ← readUtxos s route
    let utxo ← depositUtxo route body
    return ibc ++ [(utxoSetKey route anchor, encodeUtxos (utxos ++ [utxo]))]
  | _, _ => return ibc

def admitInbound (s : RouteState) (adapter : BridgeRouteAdapter) (chain : String)
    (delivery : Bytes) : Except String (List Write × BridgeRoute × AdmittedTransfer) := do
  let route ← liveRoute s adapter chain .inbound
  let family ← adapterOf route
  let d ← verifiedDelivery s route delivery
  let message ← decodeWith (family.decodeInbound route) d.body
  ensure (message.sourceSelector = route.sourceChainId ∧ message.destSelector = route.localSelector)
    "message travels between other selectors than the route's"
  let asset ← inboundAsset s route message d.body
  ensure (message.sequence = d.nonce)
    s!"attestation nonce {d.nonce} does not match message sequence {message.sequence}"
  ensure (message.amount ≠ 0) "a transfer must carry a positive amount"
  let nonceKey := RouteKey.nonce route.routeName d.nonce
  ensure (s.get nonceKey = none) s!"nonce {d.nonce} on route {route.storageKey} was already used"
  let drawn ← drawInbound s route asset message.amount
  let transport ← transportWrites s route message.sequence d.body
  return ([(nonceKey, [1]), drawn.usage.1, (drawn.supplyKey, drawn.supply.encode)] ++
    drawn.lane ++ transport, route, ⟨message, drawn.usage.2, drawn.supply, asset⟩)

/-! ### Outbound transfers -/

def routeForChain (s : RouteState) (chain : String) : Except String BridgeRoute :=
  match BridgeRouteAdapter.all.filter (fun a => (s.view.route a (toAsciiLower chain)).isSome) with
  | [adapter] => liveRoute s adapter chain .outbound
  | [] => refuse s!"no governed route serves '{chain}'"
  | _ => refuse s!"more than one route serves '{chain}'; governance must keep one"

def checkOutbound (s : RouteState) (chain : String) (amount : ℕ) : Except String Unit := do
  let route ← routeForChain s chain
  match s.view.networkLimit route with
  | none => refuse "no network-wide bridge mint limits are set; no route may mint"
  | some network => do
    let cap := (route.mintLimit.tightest network).perMint
    ensure (amount ≠ 0 ∧ amount ≤ cap)
      s!"amount {amount} is outside the {route.storageKey} route's per-mint cap of {cap}"
    let _ ← consumeLane s route .outbound amount
    let _ ← consumeOutflow s (← exitUnit route none) amount
    return ()

def nextSequence (s : RouteState) (key : RouteKey) (what : String) : Except String ℕ := do
  let sequence := s.readU64 key
  ensure (sequence < maxValue 64) s!"{what} sequence exhausted"
  return sequence + 1

def buildOutbound (family : FamilyAdapter) (route : BridgeRoute) (message : RouteMessage) :
    Except String Bytes := do
  let bytes ← family.encodeOutbound route message
  let back ← decodeWith (family.decodeOutbound route) bytes
  ensure (back = message) "outbound message does not read back as built"
  return bytes

def outboundDraft (route : BridgeRoute) (sequence : ℕ) (transfer : OutboundTransfer)
    (tokenPool token : Bytes) : RouteMessage :=
  { messageId := List.replicate 32 0, sourceSelector := route.localSelector,
    destSelector := route.sourceChainId, sequence := sequence, sender := transfer.sender,
    receiver := transfer.recipient, tokenPool := tokenPool, token := token,
    amount := transfer.amount }

/-- The planned transaction burns the amount, spends from the tracked outputs and keeps its
change among them. -/
def withdraw (s : RouteState) (route : BridgeRoute) (sequence : ℕ) (transfer : OutboundTransfer)
    (limits : List Write) : Except String (List Write × BridgeRoute × OutboundMessage) := do
  let (desc, feeRate) ← routeDescriptor route
  match route.lightClient with
  | none => refuse "a deposit route needs its anchor"
  | some anchor => do
    ensure (transfer.amount ≤ maxValue 64) "a withdrawal amount fits 64 bits"
    let utxos ← readUtxos s route
    let (withdrawal, remaining) ←
      planWithdrawal desc utxos transfer.recipient transfer.amount feeRate
    let supply ← (readSupply s route).release transfer.amount route
    let bytes := withdrawal.encode
    let message := { outboundDraft route sequence transfer route.localEndpoint route.remoteToken with
      messageId := withdrawal.txid }
    return ([(.sequence route.routeName, beBytes 8 sequence),
      (.supply route.routeName, supply.encode), (.outbound route.routeName sequence, bytes),
      (utxoSetKey route anchor, encodeUtxos remaining)] ++ limits,
      route, ⟨message, bytes, supply, none⟩)

def buildTransfer (s : RouteState) (route : BridgeRoute) (family : FamilyAdapter) (sequence : ℕ)
    (transfer : OutboundTransfer) : Except String (RouteMessage × Bytes × List Write) :=
  if route.adapter = .ibc then do
    let (message, bytes, commit) ← sendPacket s route sequence transfer
    return (message, bytes, [commit])
  else do
    let draft := outboundDraft route sequence transfer route.localEndpoint route.remoteToken
    let messageId ← family.outboundMessageId route draft
    let message := { draft with messageId := messageId }
    let bytes ← buildOutbound family route message
    return (message, bytes, [])

def routeForAsset (s : RouteState) (chain symbol : String) :
    Except String (BridgeRoute × CarriedAsset) :=
  match BridgeRouteAdapter.all.filter (fun a =>
      (s.view.route a (toAsciiLower chain)).any (fun r => (r.asset symbol).isSome)) with
  | [adapter] => do
    let route ← liveRoute s adapter chain .redeem
    match route.asset symbol with
    | none => refuse s!"no governed route carries {symbol} to '{chain}'"
    | some asset => do
      ensure (asset.enabled = true) s!"{symbol} is not enabled on route {route.storageKey}"
      return (route, asset)
  | [] => refuse s!"no governed route carries {symbol} to '{chain}'"
  | _ => refuse s!"more than one route carries {symbol} to '{chain}'; governance must keep one"

def checkRedeem (s : RouteState) (chain symbol : String) (amount : ℕ) : Except String Unit := do
  let (route, asset) ← routeForAsset s chain symbol
  ensure (amount ≠ 0 ∧ amount ≤ asset.mintLimit.perMint)
    s!"amount {amount} is outside the {route.storageKey} {symbol} per-transfer cap of {asset.mintLimit.perMint}"
  let _ ← (readAssetSupply s route asset).release amount route
  let _ ← consumeAssetLane s route asset .outbound amount
  let _ ← consumeOutflow s (← exitUnit route (some asset)) amount
  return ()

/-- A carried asset's representation going back to its vault. -/
def redeem (s : RouteState) (chain symbol : String) (transfer : OutboundTransfer) :
    Except String (List Write × BridgeRoute × OutboundMessage) := do
  checkRedeem s chain symbol transfer.amount
  let (route, asset) ← routeForAsset s chain symbol
  let family ← adapterOf route
  let sequence ← nextSequence s (.sequence route.routeName) "outbound"
  let draft := outboundDraft route sequence transfer asset.representationId asset.remoteToken
  let messageId ← family.outboundMessageId route draft
  let message := { draft with messageId := messageId }
  let bytes ← (do
    match ← issuerHookOf asset with
    | some hook => hook.mintInstruction route asset message
    | none => buildOutbound family route message)
  let supply ← (readAssetSupply s route asset).release transfer.amount route
  let lane ← consumeAssetLane s route asset .outbound transfer.amount
  let outflow ← consumeOutflow s (← exitUnit route (some asset)) transfer.amount
  return ([(.sequence route.routeName, beBytes 8 sequence),
    (.assetSupply route.routeName asset.symbol, supply.encode),
    (.outbound route.routeName sequence, bytes), outflow] ++ lane,
    route, ⟨message, bytes, supply, some asset⟩)

def sendOutbound (s : RouteState) (chain : String) (transfer : OutboundTransfer) :
    Except String (List Write × BridgeRoute × OutboundMessage) :=
  match transfer.asset with
  | some symbol => redeem s chain symbol transfer
  | none => do
    checkOutbound s chain transfer.amount
    let route ← routeForChain s chain
    let family ← adapterOf route
    let lane ← consumeLane s route .outbound transfer.amount
    let outflow ← consumeOutflow s (← exitUnit route none) transfer.amount
    let limits := lane ++ [outflow]
    let sequence ← nextSequence s (.sequence route.routeName) "outbound"
    if route.adapter = .deposit then withdraw s route sequence transfer limits
    else do
      let (message, bytes, commit) ← buildTransfer s route family sequence transfer
      let supply ← (readSupply s route).lockAndMint transfer.amount route
      return (commit ++ [(.sequence route.routeName, beBytes 8 sequence),
        (.supply route.routeName, supply.encode), (.outbound route.routeName sequence, bytes)] ++
        limits, route, ⟨message, bytes, supply, none⟩)

def sendMessage (s : RouteState) (chain : String) (body : Bytes) :
    Except String (List Write × BridgeRoute × OutboundData) := do
  let route ← routeForChain s chain
  ensure (body ≠ [] ∧ body.length ≤ 64 * 1024) s!"a message body must be 1 to {64 * 1024} bytes"
  let sequence ← nextSequence s (.messageSequence route.routeName) "message"
  let bytes := utf8 "tenzro/bridge/route-message" ++ beBytes 8 route.localSelector ++
    beBytes 8 route.sourceChainId ++ beBytes 8 sequence ++ writeBeBytes body
  return ([(.messageSequence route.routeName, beBytes 8 sequence),
    (.outboundMessage route.routeName sequence, bytes)],
    route, ⟨sequence, keccak256 bytes, bytes⟩)

/-! ### Calls -/

inductive Call where
  | admitInbound (adapter : BridgeRouteAdapter) (chain : String) (delivery : Bytes)
  | sendOutbound (chain : String) (transfer : OutboundTransfer)
  | admitMessage (adapter : BridgeRouteAdapter) (chain : String) (delivery : Bytes)
  | publishMessage (adapter : BridgeRouteAdapter) (chain : String) (delivery : Bytes)
  | handleIbc (chain : String) (msg : IbcMsg)
  | sendMessage (chain : String) (body : Bytes)
  | advanceLightClient (adapter : BridgeRouteAdapter) (chain : String) (update : Bytes)
deriving DecidableEq, Repr

inductive CallResult where
  | admitted (route : BridgeRoute) (transfer : AdmittedTransfer)
  | sent (route : BridgeRoute) (out : OutboundMessage)
  | consumed (route : BridgeRoute) (d : Delivery)
  | published (route : BridgeRoute) (d : Delivery)
  | ibc (route : BridgeRoute) (outcome : IbcOutcome)
  | queued (route : BridgeRoute) (data : OutboundData)
  | advanced (route : BridgeRoute)
deriving DecidableEq, Repr

variable [StoreProofs]

def Call.plan (s : RouteState) : Call → Except String (List Write × CallResult)
  | .admitInbound adapter chain delivery =>
    Prod.map id (fun r => .admitted r.1 r.2) <$> Bridge.admitInbound s adapter chain delivery
  | .sendOutbound chain transfer =>
    Prod.map id (fun r => .sent r.1 r.2) <$> Bridge.sendOutbound s chain transfer
  | .admitMessage adapter chain delivery =>
    Prod.map id (fun r => .consumed r.1 r.2) <$> Bridge.admitMessage s adapter chain delivery
  | .publishMessage adapter chain delivery =>
    Prod.map id (fun r => .published r.1 r.2) <$> Bridge.publishMessage s adapter chain delivery
  | .handleIbc chain msg => Prod.map id (fun r => .ibc r.1 r.2) <$> Bridge.handleIbc s chain msg
  | .sendMessage chain body =>
    Prod.map id (fun r => .queued r.1 r.2) <$> Bridge.sendMessage s chain body
  | .advanceLightClient adapter chain update =>
    Prod.map id .advanced <$> Bridge.advanceLightClient s adapter chain update

def Call.perform (view : RouteView) (kv : Kv) (c : Call) : Except String CallResult × Kv :=
  let (result, s) := RouteState.commit ⟨view, kv⟩ (c.plan ⟨view, kv⟩)
  (result, s.kv)

end
end Tenzro.Bridge
