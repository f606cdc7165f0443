import Tenzro.RouteFramework
import Tenzro.TokenLedger

set_option autoImplicit false
set_option linter.dupNamespace false

/-!
# Queued exits

A large exit over a bridge route, or one the network's outflow cap cannot carry this epoch, waits
with its value in the exit escrow until it is released or cancelled.
-/
namespace Tenzro.BridgeExit
open ByteCodec FixedWidth Outcome
open Bridge Token

inductive VmError where
  | ledger (e : Token.VmError)
  | insufficientBalance (required available : ℕ)
deriving DecidableEq, Repr

def refuse {α : Type} (msg : String) : Except VmError α := .error (.ledger (.invalidTransaction msg))

def routeRefused {α : Type} (x : Except String α) : Except VmError α :=
  x.mapError fun e => .ledger (.invalidTransaction s!"refused by the route: {e}")

def onLedger {α : Type} (x : Except Token.VmError α) : Except VmError α := x.mapError .ledger

structure PendingExit where
  id : ℕ
  sender : Bytes
  targetChain : String
  recipient : Bytes
  amount : ℕ
  /-- The carried asset's symbol, or none for the route's own value. -/
  asset : Option String
  /-- The token the escrow holds, or none for native TNZO. -/
  token : Option Bytes
  route : String
  /-- The unit it counts in against the network outflow caps. -/
  unit : String
  queuedAtMs : ℤ
  releaseAtMs : ℤ
deriving DecidableEq, Repr

/-- What a transaction reads besides the records. -/
structure ExitView where
  route : RouteView
  exitDelayMs : ℕ
  exitDelayThresholdBps : ℕ
  queueMaxEpochs : ℕ
  lastFaultMs : String → Option ℤ
  seated : Bytes → Bool
  /-- Whether a route's record reads back. -/
  installed : String → Bool
  /-- What the bridge's vault held and owed when the monitor froze it. -/
  frozen : Option (ℕ × ℕ)
  gasCost : ℕ

namespace ExitView

def nowMs (view : ExitView) : ℤ := view.route.nowMs

def ignoringNetworkOutflow (v : RouteView) : RouteView :=
  { v with outflowLimits := v.outflowLimits.map fun caps =>
      caps.map fun c => { c with perEpoch := maxValue 128 } }

end ExitView

structure ExitState where
  kv : Kv
  ledger : Ledger
  lastExitId : ℕ
  exits : ℕ → Option PendingExit
  queued : String → ℕ

/-- What an operation reports. -/
inductive ExitResult where
  | exitQueued (exit : PendingExit)
  | outbound
  | exitReleased (exit : PendingExit)
  | exitCancelled (exit : PendingExit) (authority : String)
deriving DecidableEq, Repr

inductive BridgeOp where
  | outbound (targetChain : String) (recipient : Bytes) (amount : ℕ) (asset : Option String)
  | releaseExit (id : ℕ)
  | cancelExit (id : ℕ)
deriving DecidableEq, Repr

def maxChainNameLen : ℕ := 64

def maxAssetSymbolLen : ℕ := 12

def maxBridgePayloadLen : ℕ := 256 * 1024

/-- Shape checks that need no state. -/
def BridgeOp.validate : BridgeOp → Except VmError Unit
  | outbound targetChain recipient amount asset => do
    if amount = 0 then refuse "an outbound transfer moves a positive amount"
    if asset.any (fun a => a.utf8ByteSize = 0 ∨ maxAssetSymbolLen < a.utf8ByteSize ∨
        !a.toList.all Char.isAlphanum) then
      refuse "an asset symbol is 1..=12 ASCII letters or digits"
    if targetChain.utf8ByteSize = 0 ∨ maxChainNameLen < targetChain.utf8ByteSize then
      refuse "a chain name is 1 to 64 bytes"
    if recipient = [] ∨ maxBridgePayloadLen < recipient.length then
      refuse "a delivery, recipient, update or payload is 1 byte to 256 KiB"
  | releaseExit _ | cancelExit _ => .ok ()

def waits (view : ExitView) (amount capacity : ℕ) : Bool :=
  capacity * min view.exitDelayThresholdBps 10000 < amount * 10000

def saturatingAddMs (now : ℤ) (delay : ℕ) : ℤ := min (now + min delay (2 ^ 63 - 1)) (2 ^ 63 - 1)

def setNative (l : Ledger) (addr : Bytes) (v : ℕ) : Ledger :=
  { l with native := Function.update l.native (ledgerAccount addr) v }

def moveBalance (l : Ledger) (source dest : Bytes) (amount : ℕ) : Except VmError Ledger :=
  let held := l.native (ledgerAccount source)
  if held < amount then .error (.insufficientBalance amount held)
  else
    match checkedAdd (l.native (ledgerAccount dest)) amount with
    | none => .error (.ledger (.internal "balance overflow"))
    | some after => .ok (setNative (setNative l source (held - amount)) dest after)

section
variable [RouteCrypto]

def exitEscrow : Bytes := RouteCrypto.sha256 (Bridge.utf8 "tenzro/bridge/exit-escrow")

def routeVault (route : BridgeRoute) : Bytes :=
  RouteCrypto.sha256 (Bridge.utf8 "tenzro/bridge/route-vault" ++ Bridge.utf8 route.storageKey)

def familyName : ChainFamily → String
  | .evm => "evm"
  | .solana => "solana"
  | .cosmos => "cosmos"
  | .bitcoin => "bitcoin"
  | .stellar => "stellar"
  | .sui => "sui"
  | .aptos => "aptos"
  | .ton => "ton"

def depositAsset (family : ChainFamily) : Option Bytes :=
  (depositUnit family).map fun _ =>
    RouteCrypto.sha256 (Bridge.utf8 "tenzro/bridge/deposit-asset/" ++ Bridge.utf8 (familyName family))

def token (route : BridgeRoute) (asset : Option CarriedAsset) : Except VmError (Option Bytes) :=
  match asset with
  | some a => .ok (some a.representationId)
  | none =>
    if route.adapter ≠ .deposit then .ok none
    else
      match depositAsset route.family with
      | some id => .ok (some id)
      | none => refuse "the route's family has no deposit asset"

variable [FactoryHash]

/-- Moves an exit's value. A transfer of a token that the source holds too little of is none. -/
def hold (l : Ledger) (token : Option Bytes) (source dest : Bytes) (amount : ℕ) (nowMs : ℤ) :
    Except VmError Ledger :=
  match token with
  | none => moveBalance l source dest amount
  | some id => (fun moved => moved.getD l) <$> onLedger (l.transfer id source dest amount nowMs)

/-- Locks TNZO in the route's vault, or burns the deposit asset or the carried asset's
representation. -/
def debitOutbound (l : Ledger) (view : ExitView) (route : BridgeRoute) (asset : Option CarriedAsset)
    (sender : Bytes) (amount : ℕ) : Except VmError Ledger :=
  match view.frozen with
  | some (held, owed) =>
    refuse s!"bridge is frozen: its vault held {held} against {owed} owed; governance must lift the freeze"
  | none =>
    match asset with
    | some a => onLedger (l.burn a.representationId sender amount)
    | none =>
      if route.adapter ≠ .deposit then moveBalance l sender (routeVault route) amount
      else
        match depositAsset route.family with
        | some id => onLedger (l.burn id sender amount)
        | none => refuse "the route's family has no deposit asset"

namespace ExitState
variable (s : ExitState) (view : ExitView)

def charge (sender : Bytes) : Except VmError ExitState :=
  let balance := s.ledger.native (ledgerAccount sender)
  if balance < view.gasCost then .error (.insufficientBalance view.gasCost balance)
  else .ok { s with ledger := setNative s.ledger sender (balance - view.gasCost) }

def addQueued (unit : String) (amount : ℕ) (add : Bool) : ExitState :=
  let next := if add then saturatingAdd 128 (s.queued unit) amount else s.queued unit - amount
  { s with queued := Function.update s.queued unit next }

def checkQueueRoom (unit : String) (amount : ℕ) : Except VmError Unit :=
  let cap := (outflowCap ⟨view.route, s.kv⟩ unit).getD 0
  let room := saturatingMul 128 cap view.queueMaxEpochs
  if room < saturatingAdd 128 (s.queued unit) amount then
    refuse s!"the network outflow cap on {unit} is spent this epoch and the exit queue already holds {view.queueMaxEpochs} epochs of it; send the exit later"
  else .ok ()

/-- Moves an exit's value into escrow and records it. -/
def queue (route : BridgeRoute) (asset : Option CarriedAsset) (sender : Bytes)
    (targetChain : String) (recipient : Bytes) (amount : ℕ) (delayed : Bool) :
    Except VmError (ExitState × PendingExit) := do
  let delay := if delayed then view.exitDelayMs else 0
  let heldToken ← token route asset
  let unit ← onLedger ((exitUnit route asset).mapError .invalidTransaction)
  if s.lastExitId = maxValue 64 then refuse "exit ids exhausted"
  else
    let id := s.lastExitId + 1
    let exit : PendingExit :=
      { id, sender, targetChain, recipient, amount, asset := asset.map CarriedAsset.symbol,
        token := heldToken, route := route.storageKey, unit, queuedAtMs := view.nowMs,
        releaseAtMs := saturatingAddMs view.nowMs delay }
    let ledger ← hold s.ledger heldToken sender exitEscrow amount view.nowMs
    let s := { s with
      ledger := ledger
      lastExitId := id
      exits := Function.update s.exits id (some exit) }
    return (s.addQueued unit amount true, exit)

def readExit (id : ℕ) : Except VmError PendingExit :=
  match s.exits id with
  | some exit => .ok exit
  | none => refuse s!"no exit {id} is queued"

/-- Whether a proven committee fault emptied the route's committees since the exit was queued. -/
def faultedSinceQueued (exit : PendingExit) : Bool :=
  (view.lastFaultMs exit.route).any fun fault => exit.queuedAtMs ≤ fault

def take (id : ℕ) : Except VmError (ExitState × PendingExit) := do
  let exit ← s.readExit id
  let s := { s with exits := Function.update s.exits id none }
  return (s.addQueued exit.unit exit.amount false, exit)

/-- Returns an exit's value from escrow to its sender. -/
def refund (exit : PendingExit) : Except VmError ExitState := do
  let ledger ← hold s.ledger exit.token exitEscrow exit.sender exit.amount view.nowMs
  return { s with ledger := ledger }

def cancelAuthority (exit : PendingExit) (id : ℕ) (sender : Bytes) : Except VmError String :=
  if sender = exit.sender then .ok "sender"
  else if faultedSinceQueued view exit then .ok "committee_fault"
  else if view.nowMs < exit.releaseAtMs ∧ view.seated sender then .ok "guardian"
  else refuse s!"exit {id} may be cancelled by its sender, by a seated guardian until {exit.releaseAtMs}, or by anyone after a proven fault of its route's committee"

def cancel (id : ℕ) (sender : Bytes) : Except VmError (ExitState × ExitResult) := do
  let exit ← s.readExit id
  let authority ← cancelAuthority view exit id sender
  let (s, exit) ← s.take id
  let s ← s.refund view exit
  return (s, .exitCancelled exit authority)

/-- Takes an exit out of the queue, its value back with its sender. -/
def release (id : ℕ) : Except VmError (ExitState × PendingExit) := do
  let exit ← s.readExit id
  if view.nowMs < exit.releaseAtMs then refuse s!"exit {id} may be released from {exit.releaseAtMs}"
  else if faultedSinceQueued view exit then
    refuse s!"a fault of route {exit.route}'s committee was proven after exit {id} was queued; it can only be cancelled"
  else if !view.installed exit.route then refuse s!"route {exit.route} is no longer installed"
  else do
    let (s, exit) ← s.take id
    let s ← s.refund view exit
    return (s, exit)

variable [Json] [RouteEnv]

def exitNow (sender : Bytes) (chain : String) (recipient : Bytes) (amount : ℕ)
    (asset : Option String) : Except VmError ExitState := do
  let records : RouteState := ⟨view.route, s.kv⟩
  routeRefused (match asset with
    | some symbol => checkRedeem records chain symbol amount
    | none => checkOutbound records chain amount)
  let (writes, route, out) ←
    routeRefused (sendOutbound records chain ⟨sender, recipient, amount, asset⟩)
  let records ← routeRefused (records.apply writes)
  let ledger ← debitOutbound s.ledger view route out.asset sender amount
  return { s with kv := records.kv, ledger := ledger }

def planExit (chain : String) (amount : ℕ) (asset : Option String) :
    Except VmError (BridgeRoute × Option CarriedAsset × Option String) := do
  let records : RouteState := ⟨view.route, s.kv⟩
  let (route, carried) ← routeRefused (match asset with
    | some symbol => (fun found => (found.1, some found.2)) <$> routeForAsset records chain symbol
    | none => (fun route => (route, none)) <$> routeForChain records chain)
  let unit ← routeRefused (exitUnit route carried)
  let overCap := (outflowCap records unit).any fun perEpoch =>
    perEpoch - records.mintedAt (.outflow unit) records.view.epoch < amount
  let records : RouteState :=
    if overCap then ⟨ExitView.ignoringNetworkOutflow view.route, s.kv⟩ else records
  routeRefused (match asset with
    | some symbol => checkRedeem records chain symbol amount
    | none => checkOutbound records chain amount)
  return (route, carried, if overCap then some unit else none)

def outbound (sender : Bytes) (targetChain : String) (recipient : Bytes) (amount : ℕ)
    (asset : Option String) : Except VmError (ExitState × ExitResult) := do
  let chain := toAsciiLower targetChain
  let (route, carried, overCap) ← s.planExit view chain amount asset
  match overCap with
  | some unit => do
    s.checkQueueRoom view unit amount
    let (s, exit) ← s.queue view route carried sender chain recipient amount false
    return (s, .exitQueued exit)
  | none =>
    let capacity := (carried.map fun a => a.outflow.capacity).getD route.outflow.capacity
    if waits view amount capacity then do
      let (s, exit) ← s.queue view route carried sender chain recipient amount true
      return (s, .exitQueued exit)
    else do
      let s ← s.exitNow view sender chain recipient amount asset
      return (s, .outbound)

def executeBridge (sender : Bytes) (op : BridgeOp) : Except VmError (ExitState × ExitResult) := do
  op.validate
  let s ← s.charge view sender
  match op with
  | .outbound targetChain recipient amount asset =>
    s.outbound view sender targetChain recipient amount asset
  | .releaseExit id => do
    let (s, exit) ← s.release view id
    let s ← s.exitNow view exit.sender exit.targetChain exit.recipient exit.amount exit.asset
    return (s, .exitReleased exit)
  | .cancelExit id => s.cancel view id sender

end ExitState

end

end Tenzro.BridgeExit
