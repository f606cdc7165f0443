import Tenzro.RouteKeys
import Tenzro.RouteState

set_option autoImplicit false

/-!
# Paths of the IBC store

Packets and their store keys, the connection and channel ends, and the
relayer's messages. JSON and the proofs of the other chain's store are checked
outside.
-/
namespace Tenzro.Bridge
open ByteCodec FixedWidth Outcome List

/-- ICS-20 packet data. -/
structure FungibleTokenPacketData where
  amount : String
  denom : String
  memo : String
  receiver : String
  sender : String
deriving DecidableEq, Repr

/-- The JSON library. -/
class Json where
  toVec : FungibleTokenPacketData → Bytes
  toString : String → Bytes
  fromSlice : Bytes → Except String FungibleTokenPacketData
  /-- The string fields of an object. -/
  fromSliceMap : Bytes → Except String (String → Option String)
  /-- Whether the bytes are an object whose only entry is a string `error`. -/
  isErrorObject : Bytes → Bool

/-- The proof that the route's chain held the value under the key, or none: the block time of its
height in nanoseconds. -/
class StoreProofs where
  verifyStoreEntry : RouteState → BridgeRoute → Bytes → Option Bytes → Bytes → Except String ℤ

export StoreProofs (verifyStoreEntry)

def badPacket (what : String) : String := "IBC packet: " ++ what

def refuseIbc (what : String) : String := "IBC: " ++ what

def settings (route : BridgeRoute) : Except String IbcRoute :=
  match route.ibc with
  | some ibc => .ok ibc
  | none => .error (badPacket "the route has no IBC settings")

def maxPacketData : ℕ := 4 * 1024

def ics20Version : String := "ics20-1"

def ics20Encoding : String := "application/json"

def successAck : Bytes := utf8 "\x7b\"result\":\"AQ==\"\x7d"

structure Packet where
  version : IbcVersion
  sequence : ℕ
  sourcePort : String
  sourceChannel : String
  destinationPort : String
  destinationChannel : String
  data : Bytes
  timeoutRevisionNumber : ℕ
  timeoutRevisionHeight : ℕ
  timeoutTimestamp : ℕ
deriving DecidableEq, Repr

/-! ### Store keys -/

def packetKey (version : IbcVersion) (kind : String) (v2Prefix : UInt8) (port id : String)
    (sequence : ℕ) : Bytes :=
  match version with
  | .classic => utf8 s!"{kind}/ports/{port}/channels/{id}/sequences/{sequence}"
  | .v2 => utf8 id ++ v2Prefix :: beBytes 8 sequence

def receiptKey (version : IbcVersion) (port id : String) (sequence : ℕ) : Bytes :=
  packetKey version "receipts" 2 port id sequence

def receiptValue : IbcVersion → Bytes
  | .classic => [1]
  | .v2 => [2]

def ackKey (version : IbcVersion) (port id : String) (sequence : ℕ) : Bytes :=
  packetKey version "acks" 3 port id sequence

def connectionPath (id : String) : Bytes := utf8 s!"connections/{id}"

def channelPath (id : String) : Bytes :=
  utf8 s!"channelEnds/ports/{ibcTransferPort}/channels/{id}"

/-! ### Packets -/

section
variable [RouteCrypto]

def ackCommitment (version : IbcVersion) (ack : Bytes) : Bytes :=
  match version with
  | .classic => sha256 ack
  | .v2 => sha256 (2 :: sha256 ack)

def isErrorAck [Json] (version : IbcVersion) (ack : Bytes) : Bool :=
  match version with
  | .classic => Json.isErrorObject ack
  | .v2 => ack = sha256 (utf8 "UNIVERSAL_ERROR_ACKNOWLEDGEMENT")

namespace Packet

def writeStr (s : String) : Bytes := beBytes 2 (utf8 s).length ++ utf8 s

def encode (p : Packet) : Bytes :=
  beBytes 8 p.sequence ++ writeStr p.sourcePort ++ writeStr p.sourceChannel ++
    writeStr p.destinationPort ++ writeStr p.destinationChannel ++ writeBeBytes p.data ++
    beBytes 8 p.timeoutRevisionNumber ++ beBytes 8 p.timeoutRevisionHeight ++
    beBytes 8 p.timeoutTimestamp

def readStr (max : ℕ) : Read String := do
  let len ← readBe 2
  require (len ≤ max) s!"malformed bridge payload: string of {len} bytes exceeds {max}"
  let b ← take len
  match String.fromUTF8? ⟨b.toArray⟩ with
  | some s => return s
  | none => fail "malformed bridge payload: string is not UTF-8"

def read (version : IbcVersion) : Read Packet := do
  let sequence ← readBe 8
  let sourcePort ← readStr 128
  let sourceChannel ← readStr 64
  let destinationPort ← readStr 128
  let destinationChannel ← readStr 64
  let data ← readBeBytes maxPacketData
  let timeoutRevisionNumber ← readBe 8
  let timeoutRevisionHeight ← readBe 8
  let timeoutTimestamp ← readBe 8
  let shortest := match version with
    | .classic => 8
    | .v2 => 9
  let port (s : String) : Bool := 2 ≤ s.length && s.length ≤ 128 &&
    s.toList.all (fun c => c.isAlphanum || c ∈ ['.', '-', '_', '+', '#', '[', ']', '<', '>'])
  require (port sourcePort = true) (badPacket s!"'{sourcePort}' is not an ICS-24 identifier")
  require (port destinationPort = true)
    (badPacket s!"'{destinationPort}' is not an ICS-24 identifier")
  require (isIbcIdentifier sourceChannel shortest = true)
    (badPacket s!"'{sourceChannel}' is not an ICS-24 identifier")
  require (isIbcIdentifier destinationChannel shortest = true)
    (badPacket s!"'{destinationChannel}' is not an ICS-24 identifier")
  require (sequence ≠ 0) (badPacket "sequence 0")
  match version with
  | .classic =>
    require (timeoutTimestamp ≠ 0 ∨ timeoutRevisionHeight ≠ 0) (badPacket "a packet needs a timeout")
  | .v2 =>
    require (timeoutTimestamp ≠ 0 ∧ timeoutRevisionNumber = 0 ∧ timeoutRevisionHeight = 0)
      (badPacket "a v2 packet times out by timestamp only")
  return { version, sequence, sourcePort, sourceChannel, destinationPort, destinationChannel, data,
           timeoutRevisionNumber, timeoutRevisionHeight, timeoutTimestamp }

def decode (body : Bytes) (version : IbcVersion) : Except String Packet :=
  decodeWith (read version) body

/-- The timeout by timestamp in nanoseconds; the largest i128 for one by height only. -/
def timeoutNs (p : Packet) : ℤ :=
  match p.version with
  | .classic => if p.timeoutTimestamp = 0 then 2 ^ 127 - 1 else p.timeoutTimestamp
  | .v2 => p.timeoutTimestamp * 1000000000

def commitment (p : Packet) : Bytes :=
  match p.version with
  | .classic =>
    sha256 (beBytes 8 p.timeoutTimestamp ++ beBytes 8 p.timeoutRevisionNumber ++
      beBytes 8 p.timeoutRevisionHeight ++ sha256 p.data)
  | .v2 =>
    let payload := sha256 (sha256 (utf8 p.sourcePort) ++ sha256 (utf8 p.destinationPort) ++
      sha256 (utf8 ics20Version) ++ sha256 (utf8 ics20Encoding) ++ sha256 p.data)
    sha256 (2 :: sha256 (utf8 p.destinationChannel) ++ sha256 (beBytes 8 p.timeoutTimestamp) ++
      sha256 payload)

def commitmentKey (p : Packet) : Bytes :=
  packetKey p.version "commitments" 1 p.sourcePort p.sourceChannel p.sequence

end Packet

namespace FungibleTokenPacketData
variable [Json]

def encode (d : FungibleTokenPacketData) (version : IbcVersion) : Bytes :=
  match version with
  | .classic => Json.toVec d
  | .v2 =>
    let memo := if d.memo = "" then [] else utf8 ",\"memo\":" ++ Json.toString d.memo
    utf8 "\x7b\"denom\":" ++ Json.toString d.denom ++ utf8 ",\"amount\":" ++ Json.toString d.amount ++
      utf8 ",\"sender\":" ++ Json.toString d.sender ++ utf8 ",\"receiver\":" ++
      Json.toString d.receiver ++ memo ++ utf8 "\x7d"

def parse (data : Bytes) (version : IbcVersion) : Except String FungibleTokenPacketData :=
  match version with
  | .classic => Json.fromSlice data
  | .v2 => do
    let v ← Json.fromSliceMap data
    let field (k : String) : Except String String :=
      match v k with
      | some x => .ok x
      | none => .error (badPacket s!"data has no {k}")
    return { amount := ← field "amount", denom := ← field "denom", memo := (v "memo").getD "",
             receiver := ← field "receiver", sender := ← field "sender" }

def decode (data : Bytes) (version : IbcVersion) : Except String FungibleTokenPacketData := do
  let d ← parse data version
  ensure (d.encode version = data)
    (badPacket "data is not in the transfer module's canonical form")
  ensure (d.sender ≠ "" ∧ d.sender.utf8ByteSize ≤ 128 ∧ d.receiver ≠ "" ∧
      d.receiver.utf8ByteSize ≤ 128)
    (badPacket "sender and receiver must be 1 to 128 bytes")
  return d

/-- The amount, a positive decimal without leading zeros. -/
def amountOf (d : FungibleTokenPacketData) : Except String ℕ := do
  let a := d.amount.toList
  ensure (a ≠ [] ∧ a.all Char.isDigit = true ∧ a.head? ≠ some '0')
    (badPacket s!"amount '{d.amount}' is not a positive decimal")
  let n := a.foldl (fun n c => n * 10 + (c.toNat - '0'.toNat)) 0
  ensure (n ≤ maxValue 128) (badPacket "amount does not fit in 128 bits")
  return n

end FungibleTokenPacketData

def hexValue (c : Char) : ℕ := if c.isDigit then c.toNat - 48 else c.toNat - 87

def hexPairs : List Char → Bytes
  | a :: b :: l => UInt8.ofNat (hexValue a * 16 + hexValue b) :: hexPairs l
  | _ => []

def tenzroAccount (s : String) : Except String Bytes :=
  match s.toList with
  | '0' :: 'x' :: h =>
    if h.length = 64 ∧ h.all (fun c => c.isDigit || ('a' ≤ c && c ≤ 'f')) = true then
      .ok (hexPairs h)
    else .error (badPacket "receiver must be a 0x-prefixed lowercase 32-byte Tenzro account")
  | _ => .error (badPacket "receiver must be a 0x-prefixed lowercase 32-byte Tenzro account")

def printable (b : Bytes) : Except String String := do
  ensure (b ≠ [] ∧ b.length ≤ 128 ∧ b.all (fun c => 0x21 ≤ c && c ≤ 0x7e) = true)
    (badPacket "a Cosmos account must be 1 to 128 printable ASCII bytes")
  return String.ofList (b.map fun c => Char.ofNat c.toNat)

section
variable [Json]

def outboundPacket (route : BridgeRoute) (msg : RouteMessage) (timeoutSecs : ℕ) :
    Except String Packet := do
  let ibc ← settings route
  ensure (msg.sender.length = 32) (badPacket "the Tenzro sender must be a 32-byte account")
  let receiver ← printable msg.receiver
  let data : FungibleTokenPacketData :=
    { amount := toString msg.amount, denom := "atnzo", memo := "", receiver := receiver,
      sender := "0x" ++ hexEncode msg.sender }
  let timestamp := match ibc.version with
    | .classic => timeoutSecs * 1000000000
    | .v2 => timeoutSecs
  ensure (timestamp ≤ maxValue 64) (badPacket "timeout out of range")
  return { version := ibc.version, sequence := msg.sequence, sourcePort := ibcTransferPort,
           sourceChannel := ibc.tenzroPacketId route.sourceChain,
           destinationPort := ibcTransferPort, destinationChannel := ibc.counterpartyPacketId,
           data := data.encode ibc.version, timeoutRevisionNumber := 0,
           timeoutRevisionHeight := 0, timeoutTimestamp := timestamp }

def outboundMessage (route : BridgeRoute) (p : Packet) : Except String RouteMessage := do
  let ibc ← settings route
  ensure (p.version = ibc.version ∧ p.sourcePort = ibcTransferPort ∧
      p.sourceChannel = ibc.tenzroPacketId route.sourceChain ∧
      p.destinationPort = ibcTransferPort ∧ p.destinationChannel = ibc.counterpartyPacketId)
    (badPacket "the packet is not one of the route's outbound packets")
  let data ← FungibleTokenPacketData.decode p.data p.version
  ensure (data.denom = "atnzo") (badPacket "an outbound packet sends atnzo")
  let sender ← tenzroAccount data.sender
  let amount ← data.amountOf
  return { messageId := p.commitment, sourceSelector := route.localSelector,
           destSelector := route.sourceChainId, sequence := p.sequence, sender := sender,
           receiver := utf8 data.receiver, tokenPool := route.localEndpoint,
           token := route.remoteToken, amount := amount }

/-- The transfer an inbound packet carries, of TNZO coming back. -/
def ibcDecodeInbound (route : BridgeRoute) : Read RouteMessage := do
  let ibc ← (fun r => (settings route).map fun ibc => (ibc, r) : Read IbcRoute)
  let p ← Packet.read ibc.version
  require (p.sourcePort = ibcTransferPort ∧ p.sourceChannel = ibc.counterpartyPacketId)
    (badPacket "packet was not sent from the route's end on the Cosmos chain")
  require (p.destinationPort = ibcTransferPort ∧
      p.destinationChannel = ibc.tenzroPacketId route.sourceChain)
    (badPacket "packet is not addressed to the route's end on Tenzro")
  require (p.timeoutRevisionNumber = 0 ∧ p.timeoutRevisionHeight = 0)
    (badPacket "a packet to Tenzro may time out only by timestamp")
  fun r => do
    let data ← FungibleTokenPacketData.decode p.data ibc.version
    ensure (data.denom = ibc.tnzoTrace ∧ sha256 (utf8 ibc.tnzoTrace) = route.remoteToken)
      (badPacket s!"denomination '{data.denom}' is not returning TNZO")
    let receiver ← tenzroAccount data.receiver
    let amount ← data.amountOf
    return ({ messageId := p.commitment, sourceSelector := route.sourceChainId,
              destSelector := route.localSelector, sequence := p.sequence,
              sender := utf8 data.sender, receiver := receiver,
              tokenPool := IbcRoute.endHash p.sourceChannel,
              token := IbcRoute.endHash p.destinationChannel, amount := amount }, r)

end

/-! ### Connection and channel ends -/

def varint : ℕ → ℕ → Bytes
  | 0, v => [UInt8.ofNat v]
  | groups + 1, v =>
    if v < 0x80 then [UInt8.ofNat v] else UInt8.ofNat (v % 0x80 + 0x80) :: varint groups (v / 0x80)

def fieldBytes (field : ℕ) (b : Bytes) : Bytes :=
  varint 9 (field * 8 + 2) ++ varint 9 b.length ++ b

def fieldStr (field : ℕ) (s : String) : Bytes := if s = "" then [] else fieldBytes field (utf8 s)

def fieldUint (field v : ℕ) : Bytes := if v = 0 then [] else varint 9 (field * 8) ++ varint 9 v

inductive EndState where
  | init
  | tryOpen
  | opened
deriving DecidableEq, Repr

def EndState.number : EndState → ℕ
  | .init => 1
  | .tryOpen => 2
  | .opened => 3

def connectionEnd (state : EndState) (clientId counterpartyClientId : String)
    (counterpartyConnectionId : String) : Bytes :=
  let version := fieldStr 1 "1" ++ fieldStr 2 "ORDER_ORDERED" ++ fieldStr 2 "ORDER_UNORDERED"
  let commitmentPrefix := fieldBytes 1 (utf8 "ibc")
  let counterparty := fieldStr 1 counterpartyClientId ++ fieldStr 2 counterpartyConnectionId ++
    fieldBytes 3 commitmentPrefix
  fieldStr 1 clientId ++ fieldBytes 2 version ++ fieldUint 3 state.number ++
    fieldBytes 4 counterparty

def channelEnd (state : EndState) (counterpartyChannelId connectionHop : String) : Bytes :=
  let counterparty := fieldStr 1 ibcTransferPort ++ fieldStr 2 counterpartyChannelId
  fieldUint 1 state.number ++ fieldUint 2 1 ++ fieldBytes 3 counterparty ++
    fieldStr 4 connectionHop ++ fieldStr 5 ics20Version

/-- Tenzro's identifiers and the other chain's, on a classic route. -/
structure Classic where
  client : String
  connection : String
  channel : String
  cpClient : String
  cpConnection : String
  cpChannel : String
deriving DecidableEq, Repr

def classic (route : BridgeRoute) (ibc : IbcRoute) : Except String Classic :=
  match ibc.version, ibc.counterpartyConnectionId, ibc.counterpartyChannelId with
  | .classic, some cpConnection, some cpChannel =>
    .ok { client := IbcRoute.tenzroClientId route.sourceChain,
          connection := IbcRoute.tenzroConnectionId route.sourceChain,
          channel := IbcRoute.tenzroChannelId route.sourceChain,
          cpClient := ibc.counterpartyClientId, cpConnection := cpConnection,
          cpChannel := cpChannel }
  | _, _, _ => .error (refuseIbc "an IBC v2 route has no connection or channel handshake")

namespace Classic

def ourConnection (c : Classic) (state : EndState) : Bytes :=
  connectionEnd state c.client c.cpClient c.cpConnection

def ourChannel (c : Classic) (state : EndState) : Bytes :=
  channelEnd state c.cpChannel c.connection

end Classic

def checkOpen (s : RouteState) (route : BridgeRoute) : Except String Unit := do
  let ibc ← settings route
  match ibc.version with
  | .v2 => return ()
  | .classic =>
    let c ← classic route ibc
    ensure (s.get (.ibc (channelPath c.channel)) = some (c.ourChannel .opened))
      (refuseIbc s!"channel {c.channel} is not open")

/-! ### Sending and settling packets -/

def delivered : Bytes := [0]

def refunded : Bytes := [1]

section
variable [Json]

def sendPacket (s : RouteState) (route : BridgeRoute) (sequence : ℕ)
    (transfer : OutboundTransfer) : Except String (RouteMessage × Bytes × Write) := do
  checkOpen s route
  let ibc ← settings route
  ensure (0 ≤ s.view.nowMs.tdiv 1000) (refuseIbc "the clock is before 1970")
  let timeout := (s.view.nowMs.tdiv 1000).toNat + ibc.packetTimeoutSecs
  ensure (timeout ≤ maxValue 64) (refuseIbc "timeout out of range")
  let draft : RouteMessage :=
    { messageId := replicate 32 0, sourceSelector := route.localSelector,
      destSelector := route.sourceChainId, sequence := sequence, sender := transfer.sender,
      receiver := transfer.recipient, tokenPool := route.localEndpoint,
      token := route.remoteToken, amount := transfer.amount }
  let packet ← outboundPacket route draft timeout
  let message := { draft with messageId := packet.commitment }
  let bytes := packet.encode
  let back ← outboundMessage route (← Packet.decode bytes ibc.version)
  ensure (back = message) (refuseIbc "the outbound packet does not read back as built")
  return (message, bytes, (.ibc packet.commitmentKey, packet.commitment))

def receivedWrites (route : BridgeRoute) (sequence : ℕ) : Except String (List Write) := do
  let ibc ← settings route
  let id := ibc.tenzroPacketId route.sourceChain
  return [(.ibc (receiptKey ibc.version ibcTransferPort id sequence), receiptValue ibc.version),
    (.ibc (ackKey ibc.version ibcTransferPort id sequence), ackCommitment ibc.version successAck)]

inductive IbcMsg where
  | connectionOpenTry (proof : Bytes)
  | connectionOpenConfirm (proof : Bytes)
  | channelOpenTry (proof : Bytes)
  | channelOpenConfirm (proof : Bytes)
  | acknowledge (sequence : ℕ) (acknowledgement proof : Bytes)
  | timeout (sequence : ℕ) (proof : Bytes)
deriving DecidableEq, Repr

structure IbcOutcome where
  kind : String
  path : Bytes
  sequence : Option ℕ
  refund : Option (Bytes × ℕ)
deriving DecidableEq, Repr

def pending (s : RouteState) (route : BridgeRoute) (ibc : IbcRoute) (sequence : ℕ) :
    Except String (Packet × Bytes) :=
  match s.get (.outbound route.routeName sequence) with
  | none => .error (refuseIbc s!"no outbound packet {sequence}")
  | some bytes => do
    let packet ← Packet.decode bytes ibc.version
    ensure (s.get (.ibc packet.commitmentKey) = some packet.commitment)
      (refuseIbc s!"packet {sequence} is already settled")
    return (packet, packet.commitmentKey)

def refundOf (route : BridgeRoute) (packet : Packet) : Except String (Bytes × ℕ) := do
  let data ← FungibleTokenPacketData.decode packet.data packet.version
  let sender ← tenzroAccount data.sender
  let message ← outboundMessage route packet
  return (sender, message.amount)

def settle (s : RouteState) (route : BridgeRoute) (path : Bytes) (refund : Option (Bytes × ℕ)) :
    Except String (List Write) :=
  match refund with
  | none => .ok [(.ibc path, delivered)]
  | some (_, amount) => do
    let supply ← (readSupply s route).release amount route
    return [(.ibc path, refunded), (.supply route.routeName, supply.encode)]

variable [StoreProofs]

/-- One handshake step: Tenzro's end must stand as `before` says, and becomes `ours` once the
other chain's end is proven. -/
def openStep (s : RouteState) (route : BridgeRoute) (kind : String) (path : Bytes)
    (before : Option Bytes) (error : String) (theirPath theirs ours proof : Bytes) :
    Except String (List Write × IbcOutcome) := do
  ensure (s.get (.ibc path) = before) (refuseIbc error)
  let _ ← verifyStoreEntry s route theirPath (some theirs) proof
  return ([(.ibc path, ours)], ⟨kind, path, none, none⟩)

def handle (s : RouteState) (route : BridgeRoute) (msg : IbcMsg) : Except String (List Write × IbcOutcome) := do
  let ibc ← settings route
  match msg with
  | .connectionOpenTry proof =>
    let c ← classic route ibc
    openStep s route "connection_open_try" (connectionPath c.connection) none
      s!"connection {c.connection} already exists" (connectionPath c.cpConnection)
      (connectionEnd .init c.cpClient c.client "") (c.ourConnection .tryOpen) proof
  | .connectionOpenConfirm proof =>
    let c ← classic route ibc
    openStep s route "connection_open_confirm" (connectionPath c.connection)
      (some (c.ourConnection .tryOpen)) s!"connection {c.connection} is not TRYOPEN"
      (connectionPath c.cpConnection) (connectionEnd .opened c.cpClient c.client c.connection)
      (c.ourConnection .opened) proof
  | .channelOpenTry proof =>
    let c ← classic route ibc
    ensure (s.get (.ibc (connectionPath c.connection)) = some (c.ourConnection .opened))
      (refuseIbc s!"connection {c.connection} is not open")
    openStep s route "channel_open_try" (channelPath c.channel) none
      s!"channel {c.channel} already exists" (channelPath c.cpChannel)
      (channelEnd .init "" c.cpConnection) (c.ourChannel .tryOpen) proof
  | .channelOpenConfirm proof =>
    let c ← classic route ibc
    openStep s route "channel_open_confirm" (channelPath c.channel)
      (some (c.ourChannel .tryOpen)) s!"channel {c.channel} is not TRYOPEN"
      (channelPath c.cpChannel) (channelEnd .opened c.channel c.cpConnection)
      (c.ourChannel .opened) proof
  | .acknowledge sequence acknowledgement proof =>
    let (packet, path) ← pending s route ibc sequence
    let _ ← verifyStoreEntry s route
      (ackKey ibc.version ibcTransferPort ibc.counterpartyPacketId sequence)
      (some (ackCommitment ibc.version acknowledgement)) proof
    let refund ←
      (if acknowledgement = successAck then .ok none
        else if isErrorAck ibc.version acknowledgement then some <$> refundOf route packet
        else .error (refuseIbc
          "the acknowledgement is neither a success nor an error acknowledgement") :
        Except String (Option (Bytes × ℕ)))
    let writes ← settle s route path refund
    return (writes, ⟨"acknowledge", path, some sequence, refund⟩)
  | .timeout sequence proof =>
    let (packet, path) ← pending s route ibc sequence
    let proofTimeNs ← verifyStoreEntry s route
      (receiptKey ibc.version ibcTransferPort ibc.counterpartyPacketId sequence) none proof
    ensure (packet.timeoutNs ≤ proofTimeNs)
      (refuseIbc "the proof's block is before the packet's timeout")
    let refund ← refundOf route packet
    let writes ← settle s route path (some refund)
    return (writes, ⟨"timeout", path, some sequence, some refund⟩)

end
end

theorem utf8_append (s t : String) : utf8 (s ++ t) = utf8 s ++ utf8 t := by
  simp [utf8, String.toByteArray_append]

section
variable {version : IbcVersion} {kind kind' port id : String} {tag tag' : UInt8} {m n : ℕ}

theorem packetKey_classic : packetKey .classic kind tag port id n =
    utf8 kind ++ (utf8 "/ports/" ++ (utf8 port ++ (utf8 "/channels/" ++ (utf8 id ++
      (utf8 "/sequences/" ++ utf8 (toString n)))))) := by
  simp only [packetKey, utf8_append, append_assoc]
  rfl

theorem packetKey_v2 : packetKey .v2 kind tag port id n = utf8 id ++ tag :: beBytes 8 n := rfl

theorem packetKey_injective (hm : m ≤ maxValue 64) (hn : n ≤ maxValue 64)
    (h : packetKey version kind tag port id m = packetKey version kind tag port id n) : m = n := by
  unfold maxValue at hm hn
  cases version with
  | classic =>
    rw [packetKey_classic, packetKey_classic] at h
    simp only [append_cancel_left_eq] at h
    exact toString_injective (utf8_injective h)
  | v2 =>
    rw [packetKey_v2, packetKey_v2, append_cancel_left_eq, List.cons.injEq] at h
    exact beBytes_injective (by omega) (by omega) h.2

def head3 (path : Bytes) : Bytes := path.take 3

theorem head3_append {a b : Bytes} (long : 3 ≤ a.length) : head3 (a ++ b) = head3 a :=
  take_append_of_le_length long

theorem packetKey_ne (heads : head3 (utf8 kind) ≠ head3 (utf8 kind')) (tags : tag ≠ tag')
    (long : 3 ≤ (utf8 kind).length) (long' : 3 ≤ (utf8 kind').length) :
    packetKey version kind tag port id m ≠ packetKey version kind' tag' port id n := by
  intro h
  cases version with
  | classic =>
    have first := congrArg head3 h
    rw [packetKey_classic, packetKey_classic, head3_append long, head3_append long'] at first
    exact heads first
  | v2 =>
    rw [packetKey_v2, packetKey_v2, append_cancel_left_eq, List.cons.injEq] at h
    exact tags h.1

theorem head3_connectionPath : head3 (connectionPath id) = [99, 111, 110] := by
  have path : connectionPath id = utf8 "connections/" ++ utf8 id := by
    simp only [connectionPath, utf8_append]
    rfl
  rw [path, head3_append (by decide)]
  decide

theorem head3_channelPath : head3 (channelPath id) = [99, 104, 97] := by
  have path : channelPath id =
      utf8 "channelEnds/ports/" ++ (utf8 ibcTransferPort ++ (utf8 "/channels/" ++ utf8 id)) := by
    simp only [channelPath, utf8_append, append_assoc]
    rfl
  rw [path, head3_append (by decide)]
  decide

theorem connectionPath_ne_channelPath {id' : String} : connectionPath id ≠ channelPath id' := by
  intro h
  have first := congrArg head3 h
  rw [head3_connectionPath, head3_channelPath] at first
  simp at first

end

section
variable [RouteCrypto] {ibc : IbcRoute} {chain : String} {n m : ℕ}

def IbcRoute.commitmentPath (ibc : IbcRoute) (chain : String) (n : ℕ) : Bytes :=
  packetKey ibc.version "commitments" 1 ibcTransferPort (ibc.tenzroPacketId chain) n

theorem head3_packetKey {kind : String} {tag : UInt8} (long : 3 ≤ (utf8 kind).length) :
    head3 (packetKey ibc.version kind tag ibcTransferPort (ibc.tenzroPacketId chain) n) =
      match ibc.version with
      | .classic => head3 (utf8 kind)
      | .v2 => [48, 55, 45] := by
  cases version : ibc.version with
  | classic => rw [packetKey_classic, head3_append long]
  | v2 =>
    have client : utf8 (IbcRoute.tenzroClientId chain) =
        utf8 "07-tendermint-" ++ utf8 (toString (IbcRoute.identifierNumber chain)) := by
      simp only [IbcRoute.tenzroClientId, utf8_append]
      rfl
    rw [IbcRoute.tenzroPacketId, version, packetKey_v2, client, append_assoc,
      head3_append (by decide)]
    change _ = [48, 55, 45]
    decide

theorem packetKey_ne_end {kind : String} {tag : UInt8} (long : 3 ≤ (utf8 kind).length)
    (connection : head3 (utf8 kind) ≠ [99, 111, 110]) (channel : head3 (utf8 kind) ≠ [99, 104, 97])
    (id : String) :
    packetKey ibc.version kind tag ibcTransferPort (ibc.tenzroPacketId chain) n ≠ connectionPath id ∧
      packetKey ibc.version kind tag ibcTransferPort (ibc.tenzroPacketId chain) n ≠
        channelPath id := by
  have first : head3 (packetKey ibc.version kind tag ibcTransferPort (ibc.tenzroPacketId chain) n) =
      _ := head3_packetKey long
  refine ⟨fun h => ?_, fun h => ?_⟩
  · rw [h, head3_connectionPath] at first
    cases version : ibc.version <;> simp_all
  · rw [h, head3_channelPath] at first
    cases version : ibc.version <;> simp_all

theorem commitmentPath_ne_end (id : String) :
    ibc.commitmentPath chain n ≠ connectionPath id ∧ ibc.commitmentPath chain n ≠ channelPath id :=
  packetKey_ne_end (by decide) (by decide) (by decide) id

def IbcRoute.Received (ibc : IbcRoute) (chain : String) (path : Bytes) : Prop :=
  ∃ n, path = receiptKey ibc.version ibcTransferPort (ibc.tenzroPacketId chain) n ∨
    path = ackKey ibc.version ibcTransferPort (ibc.tenzroPacketId chain) n

theorem IbcRoute.Received.ne_commitment {path : Bytes} (h : ibc.Received chain path) :
    path ≠ ibc.commitmentPath chain n := by
  obtain ⟨m, rfl | rfl⟩ := h
  · exact packetKey_ne (by decide) (by decide) (by decide) (by decide)
  · exact packetKey_ne (by decide) (by decide) (by decide) (by decide)

theorem IbcRoute.Received.ne_end {path : Bytes} (h : ibc.Received chain path) (id : String) :
    path ≠ connectionPath id ∧ path ≠ channelPath id := by
  obtain ⟨m, rfl | rfl⟩ := h
  · exact packetKey_ne_end (by decide) (by decide) (by decide) id
  · exact packetKey_ne_end (by decide) (by decide) (by decide) id

end
end Tenzro.Bridge
