import Tenzro.RoutePackets

set_option autoImplicit false

/-!
# Packets settle once and refund what they sent

A settled packet never changes again, a refund releases what the packet was sent with, and
a handshake only moves forward.
-/
namespace Tenzro.Bridge
open ByteCodec FixedWidth Outcome List Option

/-! ### Ends -/

theorem channelEnd_ne (channel connection : String) :
    channelEnd .tryOpen channel connection ≠ channelEnd .opened channel connection := by
  intro h
  have first := congrArg (List.take 2) h
  revert first
  simp [channelEnd, fieldUint, varint, EndState.number]

theorem connectionEnd_ne (client cpClient cpConnection : String) :
    connectionEnd .tryOpen client cpClient cpConnection ≠
      connectionEnd .opened client cpClient cpConnection := by
  intro h
  simp [connectionEnd, fieldUint, varint, EndState.number] at h

/-- How an end moves in one call. -/
inductive EndMove (tryOpen opened : Bytes) : Option Bytes → Option Bytes → Prop where
  | stays (b : Option Bytes) : EndMove tryOpen opened b b
  | tries : EndMove tryOpen opened none (some tryOpen)
  | opens : EndMove tryOpen opened (some tryOpen) (some opened)

def Stands (tryOpen opened : Bytes) (b : Option Bytes) : Prop :=
  b = none ∨ b = some tryOpen ∨ b = some opened

theorem EndMove.stands {tryOpen opened : Bytes} {before after : Option Bytes}
    (move : EndMove tryOpen opened before after) (h : Stands tryOpen opened before) :
    Stands tryOpen opened after := by
  cases move with
  | stays b => exact h
  | tries => exact .inr (.inl rfl)
  | opens => exact .inr (.inr rfl)

theorem checkOpen_ok [RouteCrypto] {s : RouteState} {route : BridgeRoute} {ibc : IbcRoute}
    {c : Classic} (configured : route.ibc = some ibc) (ends : classic route ibc = .ok c)
    (h : checkOpen s route = .ok ()) :
    s.get (.ibc (channelPath c.channel)) = some (c.ourChannel .opened) := by
  have version : ibc.version = .classic := by
    unfold classic at ends
    cases found : ibc.version with
    | classic => rfl
    | v2 => simp [found] at ends
  simpa [checkOpen, settings, configured, version, ends, bind_ok] using h

theorem sendOutbound_carries [RouteCrypto] [Json] [RouteEnv] {s : RouteState} {writes : List Write}
    {route : BridgeRoute} {chain : String} {transfer : OutboundTransfer} {out : OutboundMessage}
    (h : sendOutbound s chain transfer = .ok (writes, route, out)) :
    out.message.sender = transfer.sender ∧ out.message.amount = transfer.amount := by
  unfold sendOutbound at h
  cases carried : transfer.asset with
  | some symbol =>
    simp only [carried, redeem, bind_ok, pure_ok] at h
    obtain ⟨_, _, ⟨r, asset⟩, _, _, _, _, _, _, _, _, _, _, _, _, _, _, _, _, _, h⟩ := h
    cases h
    exact ⟨rfl, rfl⟩
  | none =>
    simp only [carried, bind_ok] at h
    obtain ⟨_, _, r, _, family, _, _, _, _, _, _, _, sequence, _, h⟩ := h
    split_ifs at h with deposit
    · simp only [withdraw, bind_ok] at h
      obtain ⟨⟨desc, feeRate⟩, -, h⟩ := h
      cases anchored : r.lightClient with
      | none => simp [anchored, refuse] at h
      | some anchor =>
        simp only [anchored, bind_ok, pure_ok, ensure_ok, exists_const] at h
        obtain ⟨_, _, _, ⟨withdrawal, remaining⟩, _, _, _, same⟩ := h
        cases same
        exact ⟨rfl, rfl⟩
    · simp only [bind_ok, pure_ok] at h
      obtain ⟨⟨message, bytes, commit⟩, built, _, _, same⟩ := h
      cases same
      have b := buildTransfer_built built
      exact ⟨b.sender, b.amount⟩

/-! ### The handshake over runs -/

section
variable [RouteCrypto] [Json] [RouteEnv] [StoreProofs] {g : RouteView} {past : List Event} {kv : Kv}
  {s : RouteState} {writes : List Write} {result : CallResult} {route : BridgeRoute}
  {ibc : IbcRoute} {n : ℕ}

theorem Effect.atEnd {v : RouteView} {path : Bytes} (e : Effect ⟨v, kv⟩ writes result)
    (next : Continues g past v) (sole : SoleIbc g route ibc) (stored : Stored ⟨v, kv⟩ route ibc)
    (isEnd : ∃ id, path = connectionPath id ∨ path = channelPath id) :
    written writes (.ibc path) = none ∨ ∃ c before ours, classic route ibc = .ok c ∧
      Opens c path before ours ∧ RouteState.get ⟨v, kv⟩ (.ibc path) = before ∧
      written writes (.ibc path) = some ours := by
  have commits (n : ℕ) : ibc.commitmentPath route.sourceChain n ≠ path := by
    obtain ⟨id, rfl | rfl⟩ := isEnd
    · exact (commitmentPath_ne_end id).1
    · exact (commitmentPath_ne_end id).2
  have receives {p : Bytes} (received : ibc.Received route.sourceChain p) : p ≠ path := by
    obtain ⟨id, rfl | rfl⟩ := isEnd
    · exact (received.ne_end id).1
    · exact (received.ne_end id).2
  cases result with
  | sent r out =>
    left
    rw [written_ibc]
    by_cases isIbc : r.adapter = .ibc
    · obtain rfl := sole.of_live (e.sends.live.of_continues next) isIbc
      rw [(e.ibcSend isIbc sole.configured).commit]
      simp [commits]
    · rw [e.ibc_nil_of_sent isIbc]
      rfl
  | admitted r t =>
    left
    rw [written_ibc]
    by_cases isIbc : r.adapter = .ibc
    · obtain rfl := sole.of_live (e.admits.live.of_continues next) isIbc
      apply written_of_ne
      intro w mem same
      obtain ⟨p, key, received⟩ := (e.ibcReceive isIbc sole.configured).2 w mem
      rw [key] at same
      exact receives received (RouteKey.ibc.inj same)
    · rw [e.ibc_nil_of_admitted isIbc]
      rfl
  | ibc r outcome =>
    have relays := e.relays
    have isIbc : r.adapter = .ibc := by
      cases e with
      | ibc live adapter handled => exact adapter
    obtain rfl := sole.of_live (relays.live.of_continues next) isIbc
    cases relays.handled with
    | @opens _ ibc' c p ours before configured ends step stands =>
      rw [sole.configured] at configured
      cases configured
      by_cases here : p = path
      · subst here
        exact .inr ⟨c, before, ours, ends, step, stands, by simp⟩
      · exact .inl (by simp [here])
    | @settles _ ibc' packet p sequence refund _ configured packetOpen owed settled =>
      rw [sole.configured] at configured
      cases configured
      obtain ⟨-, out, -, -, -, rfl, -⟩ := pending_stored sole.configured stored packetOpen
      left
      cases refund with
      | none =>
        cases settled
        simp [commits]
      | some x =>
        simp only [settle, bind_ok, pure_ok] at settled
        obtain ⟨supply, -, rfl⟩ := settled
        simp [commits]
  | _ => exact .inl (e.unwritten (by simp [RouteKey.kind, CallResult.kinds]))

theorem Effect.endMove {v : RouteView} {c : Classic} (e : Effect ⟨v, kv⟩ writes result)
    (next : Continues g past v) (sole : SoleIbc g route ibc) (stored : Stored ⟨v, kv⟩ route ibc)
    (ends : classic route ibc = .ok c) :
    EndMove (c.ourConnection .tryOpen) (c.ourConnection .opened)
        (RouteState.get ⟨v, kv⟩ (.ibc (connectionPath c.connection)))
        (RouteState.get (RouteState.put ⟨v, kv⟩ writes) (.ibc (connectionPath c.connection))) ∧
      EndMove (c.ourChannel .tryOpen) (c.ourChannel .opened)
        (RouteState.get ⟨v, kv⟩ (.ibc (channelPath c.channel)))
        (RouteState.get (RouteState.put ⟨v, kv⟩ writes) (.ibc (channelPath c.channel))) := by
  rw [get_put_ibc e.clean, get_put_ibc e.clean]
  constructor
  · rcases e.atEnd next sole stored ⟨c.connection, .inl rfl⟩ with
      still | ⟨c', before, ours, ends', step, stands, write⟩
    · rw [still, none_or]
      exact .stays _
    · rw [ends] at ends'
      cases ends'
      rw [stands, write, some_or]
      generalize at_ : connectionPath c.connection = path at step
      cases step with
      | connectionTry => exact .tries
      | connectionConfirm => exact .opens
      | channelTry => exact absurd at_ connectionPath_ne_channelPath
      | channelConfirm => exact absurd at_ connectionPath_ne_channelPath
  · rcases e.atEnd next sole stored ⟨c.channel, .inr rfl⟩ with
      still | ⟨c', before, ours, ends', step, stands, write⟩
    · rw [still, none_or]
      exact .stays _
    · rw [ends] at ends'
      cases ends'
      rw [stands, write, some_or]
      generalize at_ : channelPath c.channel = path at step
      cases step with
      | connectionTry => exact absurd at_.symm connectionPath_ne_channelPath
      | connectionConfirm => exact absurd at_.symm connectionPath_ne_channelPath
      | channelTry => exact .tries
      | channelConfirm => exact .opens

theorem Run.stands {c : Classic} (sole : SoleIbc g route ibc) (run : Run g past kv)
    (ends : classic route ibc = .ok c) :
    Stands (c.ourConnection .tryOpen) (c.ourConnection .opened)
        (RouteState.get ⟨g, kv⟩ (.ibc (connectionPath c.connection))) ∧
      Stands (c.ourChannel .tryOpen) (c.ourChannel .opened)
        (RouteState.get ⟨g, kv⟩ (.ibc (channelPath c.channel))) := by
  refine Run.induct (P := fun past kv =>
    Stands (c.ourConnection .tryOpen) (c.ourConnection .opened)
        (RouteState.get ⟨g, kv⟩ (.ibc (connectionPath c.connection))) ∧
      Stands (c.ourChannel .tryOpen) (c.ourChannel .opened)
        (RouteState.get ⟨g, kv⟩ (.ibc (channelPath c.channel)))) ?_ ?_ ?_ run
  · exact ⟨.inl rfl, .inl rfl⟩
  · exact fun past kv v c e run ih next => ih
  · intro past kv v call writes result run ih next effect
    have stored : Stored ⟨g, kv⟩ route ibc := run.stored sole
    obtain ⟨connection, channel⟩ := effect.endMove next sole stored ends
    exact ⟨connection.stands ih.1, channel.stands ih.2⟩

/-! ### One more call -/

/-- What one more call can do on the route. -/
structure NextCall (g : RouteView) (kv : Kv) (route : BridgeRoute) (ibc : IbcRoute) (v : RouteView)
    (call : Call) : Prop where
  /-- A settled packet stays as it is. -/
  final : ∀ n ≤ maxValue 64, ∀ refund,
    RouteState.get ⟨g, kv⟩ (.ibc (ibc.commitmentPath route.sourceChain n)) = some (marker refund) →
      RouteState.get ⟨g, (call.perform v kv).2⟩ (.ibc (ibc.commitmentPath route.sourceChain n)) =
        some (marker refund)
  /-- A packet is sent with the account and the amount of its transfer. -/
  carries : ∀ chain transfer out, call = .sendOutbound chain transfer →
    (call.perform v kv).1 = .ok (.sent route out) →
      out.message.sender = transfer.sender ∧ out.message.amount = transfer.amount
  /-- A refund releases its amount, and a delivery nothing. -/
  releases : ∀ outcome, (call.perform v kv).1 = .ok (.ibc route outcome) →
    let amount := outcome.refund.elim 0 Prod.snd
    let before := RouteState.supplyAt ⟨g, kv⟩ (.supply route.routeName)
    amount ≤ before.locked ∧ amount ≤ before.bridged ∧
      RouteState.supplyAt ⟨g, (call.perform v kv).2⟩ (.supply route.routeName) =
        ⟨before.locked - amount, before.bridged - amount⟩
  /-- The ends move from absent to half open to open. -/
  ends : ∀ c, classic route ibc = .ok c →
    EndMove (c.ourConnection .tryOpen) (c.ourConnection .opened)
        (RouteState.get ⟨g, kv⟩ (.ibc (connectionPath c.connection)))
        (RouteState.get ⟨g, (call.perform v kv).2⟩ (.ibc (connectionPath c.connection))) ∧
      EndMove (c.ourChannel .tryOpen) (c.ourChannel .opened)
        (RouteState.get ⟨g, kv⟩ (.ibc (channelPath c.channel)))
        (RouteState.get ⟨g, (call.perform v kv).2⟩ (.ibc (channelPath c.channel)))
  /-- Packets travel once the channel end is open. -/
  opened : ∀ c, classic route ibc = .ok c →
    ((∃ out, (call.perform v kv).1 = .ok (.sent route out)) ∨
      ∃ t, (call.perform v kv).1 = .ok (.admitted route t)) →
      RouteState.get ⟨g, kv⟩ (.ibc (channelPath c.channel)) = some (c.ourChannel .opened)

theorem Run.final (sole : SoleIbc g route ibc) (run : Run g past kv) {v : RouteView}
    (next : Continues g past v) (call : Call) (fits : n ≤ maxValue 64) {refund : Option (Bytes × ℕ)}
    (h : RouteState.get ⟨g, kv⟩ (.ibc (ibc.commitmentPath route.sourceChain n)) =
      some (marker refund)) :
    RouteState.get ⟨g, (call.perform v kv).2⟩ (.ibc (ibc.commitmentPath route.sourceChain n)) =
      some (marker refund) := by
  have after := (run.step call next).packets sole fits
  cases run.packets sole fits with
  | unsent _ _ _ commit =>
    rw [commit] at h
    cases h
  | pending out reads _ _ _ commit =>
    rw [commit] at h
    exact absurd (Option.some.inj h).symm (marker_ne (reads.length sole.configured) refund)
  | settled _ before _ _ settled _ _ commit =>
    rw [commit] at h
    cases after with
    | unsent _ none =>
      rw [outcomes_append, filterMap_append, settled] at none
      cases none
    | pending _ _ _ none =>
      rw [outcomes_append, filterMap_append, settled] at none
      cases none
    | settled _ refund' _ _ settled' _ _ commit' =>
      rw [outcomes_append, filterMap_append, settled] at settled'
      obtain rfl : before = refund' := (List.cons.inj settled').1
      exact commit'.trans h

theorem Run.releases (sole : SoleIbc g route ibc) (run : Run g past kv) {v : RouteView}
    (next : Continues g past v) {call : Call} {outcome : IbcOutcome}
    (h : (call.perform v kv).1 = .ok (.ibc route outcome)) :
    let amount := outcome.refund.elim 0 Prod.snd
    let before := RouteState.supplyAt ⟨g, kv⟩ (.supply route.routeName)
    amount ≤ before.locked ∧ amount ≤ before.bridged ∧
      RouteState.supplyAt ⟨g, (call.perform v kv).2⟩ (.supply route.routeName) =
        ⟨before.locked - amount, before.bridged - amount⟩ := by
  have clean : ColonFree route.sourceChain := sole.live.ruled.chain
  have later := run.step call next
  rw [h] at later
  obtain ⟨m, record', -, total'⟩ := later.supply (.supply route.routeName) rfl clean
  obtain ⟨k, record, -, total⟩ := run.supply (.supply route.routeName) rfl clean
  have change : CallResult.supplyChange (.supply route.routeName) (.ibc route outcome) =
      -((outcome.refund.elim 0 Prod.snd : ℕ) : ℤ) := by
    cases refund : outcome.refund <;> simp [CallResult.supplyChange, BridgeRoute.supplyKey, refund]
  rw [outcomes_ok, map_append, sum_append, map_singleton, sum_singleton,
    change, ← total] at total'
  intro amount before
  have held : before = ⟨k, k⟩ := record
  have small : amount ≤ k := by omega
  rw [held, record']
  refine ⟨small, small, ?_⟩
  have left : m = k - amount := by omega
  rw [left]

theorem Run.nextCall (sole : SoleIbc g route ibc) (run : Run g past kv) {v : RouteView}
    (next : Continues g past v) (call : Call) : NextCall g kv route ibc v call := by
  have performed := call.performed v kv
  have stored : Stored ⟨g, kv⟩ route ibc := run.stored sole
  constructor
  case final => exact fun n fits refund h => run.final sole next call fits h
  case carries =>
    rintro chain transfer out rfl sent
    obtain ⟨writes, planned⟩ := Call.plan_of_performed sent
    obtain ⟨⟨_, r, o⟩, sends, same⟩ := map_ok.1 planned
    cases same
    exact sendOutbound_carries sends
  case releases => exact fun outcome h => run.releases sole next h
  case ends =>
    intro c ends
    generalize (call.perform v kv).1 = r at performed
    generalize (call.perform v kv).2 = kv' at performed ⊢
    cases performed with
    | failed e => exact ⟨.stays _, .stays _⟩
    | done effect => exact effect.endMove next sole stored ends
  case opened =>
    intro c ends travels
    generalize (call.perform v kv).1 = r at performed travels
    generalize (call.perform v kv).2 = kv' at performed
    rcases travels with ⟨out, rfl⟩ | ⟨t, rfl⟩
    · cases performed with
      | done effect =>
        exact checkOpen_ok sole.configured ends (effect.ibcSend sole.adapter sole.configured).opened
    · cases performed with
      | done effect =>
        exact checkOpen_ok sole.configured ends
          (effect.ibcReceive sole.adapter sole.configured).1

end

/-! ### A packet that timed out -/

namespace Refund

open AssetMint (crypto id32 committee)
attribute [local instance] crypto

def entries : List Bytes → List (Bytes × Bytes)
  | _ :: k :: _ :: v :: rest => (k, v) :: entries rest
  | _ => []

def text (b : Bytes) : String := String.ofList (b.map fun c => Char.ofNat c.toNat)

@[reducible] def json : Json where
  toVec _ := []
  toString s := 0x22 :: utf8 s ++ [0x22]
  fromSlice _ := .error "not an object"
  fromSliceMap b := .ok fun k => ((entries (b.splitOn 0x22)).lookup (utf8 k)).map text
  isErrorObject _ := false

@[reducible] def env : RouteEnv where
  attestationDigest _ _ := []
  verifyCommittee _ _ _ _ := .error "no committee"
  checkExecution _ _ _ := .error "no execution"
  otherAdapter _ _ := none
  lightClient _ := none
  issuerHook _ := none

/-- The other chain's block of the proof is a day later. -/
@[reducible] def proofs : StoreProofs where
  verifyStoreEntry _ _ _ _ _ := .ok (86400 * 1000000000)

attribute [local instance] json env proofs

def ibc : IbcRoute where
  version := .v2
  counterpartyClientId := "07-tendermint-9"
  counterpartyConnectionId := none
  counterpartyChannelId := none
  packetTimeoutSecs := 3600

def hub : BridgeRoute where
  adapter := .ibc
  family := .cosmos
  sourceChain := "cosmoshub"
  sourceChainId := 4
  localSelector := 7
  peer := IbcRoute.endHash "07-tendermint-9"
  ramp := id32 2
  localEndpoint := IbcRoute.endHash (IbcRoute.tenzroClientId "cosmoshub")
  remoteToken := sha256 (utf8 "transfer/07-tendermint-9/atnzo")
  verifiers := committee 1
  blessing := none
  lightClient := some (.tendermint "cosmoshub-4" 1 (id32 5) 1)
  mintLimit := ⟨100, 100⟩
  outflow := ⟨100, 1⟩
  laneLimits := none
  ibc := some ibc
  settlementLock := none
  assets := []
  nativeAsset := none

def g : RouteView where
  localChainId := 7
  nowMs := 1000
  epoch := 1
  route adapter chain := if adapter = .ibc ∧ chain = "cosmoshub" then some hub else none
  stopped _ := none
  networkLimit _ := some ⟨10, 10⟩
  outflowLimits := some [⟨"TNZO", 100⟩]

def send : Call := .sendOutbound "cosmoshub" ⟨id32 8, utf8 "cosmos1abc", 5, none⟩

def timeout : Call := .handleIbc "cosmoshub" (.timeout 1 [])

/-- The packet is sent and then times out. -/
def past : List Event :=
  [⟨g, send, (send.perform g fun _ => none).1⟩,
    ⟨g, timeout, (timeout.perform g (send.perform g fun _ => none).2).1⟩]

def kv : Kv := (timeout.perform g (send.perform g fun _ => none).2).2

theorem evaluated : hub.validate = true ∧
    (outcomes past).filterMap (CallResult.settledAs hub.routeName 1) = [some (id32 8, 5)] :=
  ⟨by decide +kernel, by decide +kernel⟩

theorem sole : SoleIbc g hub ibc where
  live := ⟨rfl, evaluated.1⟩
  adapter := rfl
  configured := rfl
  sole chain r h := by
    simp only [g] at h
    split_ifs at h
    exact (Option.some.inj h).symm

theorem continues (earlier : List Event) (same : ∀ e ∈ earlier, e.view = g) :
    Continues g earlier g where
  route := rfl
  networkLimit := rfl
  outflowLimits := rfl
  time e mem := by rw [same e mem]
  epoch e mem := by rw [same e mem]
  epochFits := by decide

theorem run : Run g past kv := by
  rw [past, kv]
  exact (Run.start.step send (continues [] (by simp))).step timeout (continues _ (by simp))

end Refund
end Tenzro.Bridge
