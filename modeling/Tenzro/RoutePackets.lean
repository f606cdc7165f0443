import Tenzro.RouteSafety

set_option autoImplicit false

/-!
# The packets of an IBC route over runs

The value at a packet's commitment path is the packet's commitment while it is pending and
a marker once it is delivered or refunded.
-/
namespace Tenzro.Bridge
open ByteCodec FixedWidth Outcome List Option

/-! ### What an outbound packet names -/

theorem length_commitment [RouteCrypto] {packet : Packet} : packet.commitment.length = 32 := by
  unfold Packet.commitment
  cases packet.version <;> exact RouteCrypto.length_sha256 _

section
variable [RouteCrypto] [Json] {route : BridgeRoute} {ibc : IbcRoute} {packet : Packet}
  {message : RouteMessage}

theorem outboundMessage_ok (configured : route.ibc = some ibc)
    (h : outboundMessage route packet = .ok message) :
    message.messageId = packet.commitment ∧
      packet.commitmentKey = ibc.commitmentPath route.sourceChain message.sequence := by
  simp only [outboundMessage, settings, configured, bind_ok, pure_ok, ensure_ok, exists_const,
    Except.ok.injEq, exists_eq_left'] at h
  obtain ⟨⟨version, port, channel, -⟩, data, -, -, sender, -, amount, -, rfl⟩ := h
  refine ⟨rfl, ?_⟩
  rw [Packet.commitmentKey, IbcRoute.commitmentPath, version, port, channel]

theorem refundOf_ok {refund : Bytes × ℕ} (h : outboundMessage route packet = .ok message)
    (owed : refundOf route packet = .ok refund) : refund = (message.sender, message.amount) := by
  simp only [refundOf, bind_ok, pure_ok] at owed
  obtain ⟨data, decoded, sender, account, message', again, rfl⟩ := owed
  rw [h] at again
  cases again
  simp only [outboundMessage, bind_ok, pure_ok, ensure_ok, exists_const] at h
  obtain ⟨ibc, -, -, data', decoded', -, sender', account', amount, -, rfl⟩ := h
  rw [decoded] at decoded'
  cases decoded'
  rw [account] at account'
  cases account'
  rfl

/-! ### Sending -/

def ReadsBack (route : BridgeRoute) (ibc : IbcRoute) (out : OutboundMessage) : Prop :=
  ∃ packet, Packet.decode out.bytes ibc.version = .ok packet ∧
    outboundMessage route packet = .ok out.message

theorem ReadsBack.length {out : OutboundMessage} (configured : route.ibc = some ibc)
    (h : ReadsBack route ibc out) : out.message.messageId.length = 32 := by
  obtain ⟨packet, -, reads⟩ := h
  rw [(outboundMessage_ok configured reads).1, length_commitment]

theorem ReadsBack.unique {out out' : OutboundMessage} (h : ReadsBack route ibc out)
    (h' : ReadsBack route ibc out') (same : out.bytes = out'.bytes) :
    out.message = out'.message := by
  obtain ⟨packet, decoded, reads⟩ := h
  obtain ⟨packet', decoded', reads'⟩ := h'
  rw [same, decoded'] at decoded
  cases decoded
  exact Except.ok.inj (reads.symm.trans reads')

/-- What sending on an IBC route checks, and the one write to the IBC store. -/
structure IbcSend (s : RouteState) (writes : List Write) (route : BridgeRoute) (ibc : IbcRoute)
    (out : OutboundMessage) : Prop where
  opened : checkOpen s route = .ok ()
  reads : ReadsBack route ibc out
  commit : ofKind .ibc writes =
    [(.ibc (ibc.commitmentPath route.sourceChain out.message.sequence), out.message.messageId)]

variable {s : RouteState} {writes : List Write}

theorem sendPacket_ok {sequence : ℕ} {transfer : OutboundTransfer} {bytes : Bytes} {commit : Write}
    (configured : route.ibc = some ibc)
    (h : sendPacket s route sequence transfer = .ok (message, bytes, commit)) :
    checkOpen s route = .ok () ∧
      (∃ packet, Packet.decode bytes ibc.version = .ok packet ∧
        outboundMessage route packet = .ok message) ∧
      commit = (.ibc (ibc.commitmentPath route.sourceChain message.sequence), message.messageId) := by
  simp only [sendPacket, settings, configured, bind_ok, pure_ok, ensure_ok, exists_const,
    Except.ok.injEq, exists_eq_left'] at h
  obtain ⟨⟨⟩, opened, -, -, packet, built, back, decoded, m, reads, same, last⟩ := h
  cases last
  subst same
  refine ⟨opened, ⟨back, decoded, reads⟩, ?_⟩
  simp only [outboundPacket, settings, configured, bind_ok, pure_ok, ensure_ok, exists_const,
    Except.ok.injEq, exists_eq_left'] at built
  obtain ⟨-, receiver, -, -, rfl⟩ := built
  rfl

variable [RouteEnv] [StoreProofs]

theorem Effect.ibcSend {out : OutboundMessage} (e : Effect s writes (.sent route out))
    (isIbc : route.adapter = .ibc) (configured : route.ibc = some ibc) :
    IbcSend s writes route ibc out := by
  cases e with
  | @transferred _ _ transfer unit lane outflow sequence message bytes commit supply live stays lanes
      counted leaves next built locked =>
    obtain ⟨cap, -, counts⟩ := consumeOutflow_counts leaves
    have lane : ofKind .ibc lane = [] := ofKind_of_key (consumeLane_keys lanes) (by simp [RouteKey.kind])
    unfold buildTransfer at built
    simp only [if_pos isIbc, bind_ok, pure_ok] at built
    obtain ⟨⟨m, b, w⟩, sent, same⟩ := built
    cases same
    obtain ⟨opened, reads, rfl⟩ := sendPacket_ok configured sent
    exact ⟨opened, reads, by simp [lane, counts.write, RouteKey.kind]⟩
  | withdrawn live deposit =>
    rw [isIbc] at deposit
    cases deposit
  | @redeemed _ asset _ _ _ _ _ _ _ live listed =>
    have carries := live.ruled.carries (ne_nil_of_mem listed)
    rw [isIbc] at carries
    simp at carries

theorem Effect.ibc_nil_of_sent {out : OutboundMessage} (e : Effect s writes (.sent route out))
    (other : route.adapter ≠ .ibc) : ofKind .ibc writes = [] := by
  cases e with
  | @transferred _ _ transfer unit lane outflow sequence message bytes commit supply live stays lanes
      counted leaves next built locked =>
    obtain ⟨cap, -, counts⟩ := consumeOutflow_counts leaves
    have lane : ofKind .ibc lane = [] := ofKind_of_key (consumeLane_keys lanes) (by simp [RouteKey.kind])
    unfold buildTransfer at built
    simp only [if_neg other, bind_ok, pure_ok] at built
    obtain ⟨id, -, b, -, same⟩ := built
    cases same
    simp [lane, counts.write, RouteKey.kind]
  | withdrawn live deposit lanes counted leaves =>
    obtain ⟨cap, -, counts⟩ := consumeOutflow_counts leaves
    have lane : ofKind .ibc _ = [] := ofKind_of_key (consumeLane_keys lanes) (by simp [RouteKey.kind])
    simp [lane, counts.write, RouteKey.kind, utxoSetKey]
  | redeemed live listed next released lanes leaves =>
    obtain ⟨cap, -, counts⟩ := consumeOutflow_counts leaves
    have lane : ofKind .ibc _ = [] :=
      ofKind_of_key (consumeAssetLane_keys lanes) (by simp [RouteKey.kind])
    simp [lane, counts.write, RouteKey.kind]

/-! ### Receiving -/

theorem Effect.ibc_of_admitted {t : AdmittedTransfer} (e : Effect s writes (.admitted route t)) :
    ∃ n body transport, transportWrites s route n body = .ok transport ∧
      ofKind .ibc writes = ofKind .ibc transport := by
  cases e with
  | @admitted _ _ _ message asset drawn transport live _ _ _ _ draw recorded =>
    obtain ⟨⟨cap, -, counts⟩, lane, supplyKey, -, -⟩ := drawInbound_draws draw
    have lanes : ofKind .ibc drawn.lane = [] := ofKind_of_key lane (by simp)
    have usage : drawn.usage.1.1.kind = .minted := by rw [counts.write, kind_mintKey]
    have key : drawn.supplyKey.kind = .supply := by rw [supplyKey, kind_supplyKey]
    have nonce : (RouteKey.nonce route.routeName message.sequence).kind = .nonce := rfl
    exact ⟨_, _, transport, recorded, by simp [lanes, usage, key, nonce]⟩

theorem Effect.ibcReceive {t : AdmittedTransfer} (e : Effect s writes (.admitted route t))
    (isIbc : route.adapter = .ibc) (configured : route.ibc = some ibc) :
    checkOpen s route = .ok () ∧ ∀ w ∈ ofKind .ibc writes, ∃ path, w.1 = .ibc path ∧
      ibc.Received route.sourceChain path := by
  obtain ⟨n, body, transport, recorded, only⟩ := e.ibc_of_admitted
  rw [only]
  simp only [transportWrites, isIbc, if_true, bind_ok, pure_ok] at recorded
  obtain ⟨ibcWrites, ⟨⟨⟩, opened, received⟩, rfl⟩ := recorded
  simp only [receivedWrites, settings, configured, bind_ok, pure_ok, Except.ok.injEq,
    exists_eq_left'] at received
  subst received
  refine ⟨opened, fun w mem => ?_⟩
  have both := mem_of_mem_filter mem
  simp only [mem_cons, not_mem_nil, or_false] at both
  rcases both with rfl | rfl
  · exact ⟨_, rfl, _, .inl rfl⟩
  · exact ⟨_, rfl, _, .inr rfl⟩

theorem Effect.ibc_nil_of_admitted {t : AdmittedTransfer} (e : Effect s writes (.admitted route t))
    (other : route.adapter ≠ .ibc) : ofKind .ibc writes = [] := by
  obtain ⟨n, body, transport, recorded, only⟩ := e.ibc_of_admitted
  rw [only]
  simp only [transportWrites, if_neg other, bind_ok, pure_ok, exists_eq_left'] at recorded
  split at recorded
  · simp only [bind_ok, pure_ok] at recorded
    obtain ⟨utxos, -, utxo, -, rfl⟩ := recorded
    simp [RouteKey.kind, utxoSetKey]
  · cases pure_ok.1 recorded
    rfl

end

/-! ### Packets over runs -/

theorem written_ibc {writes : List Write} {path : Bytes} :
    written writes (.ibc path) = written (ofKind .ibc writes) (.ibc path) := by
  have kind : (RouteKey.ibc path).kind = .ibc := rfl
  rw [← kind, written_ofKind]

theorem get_put_ibc {s : RouteState} {writes : List Write} {path : Bytes}
    (all : ∀ w ∈ writes, w.1.Clean) :
    (s.put writes).get (.ibc path) = (written writes (.ibc path)).or (s.get (.ibc path)) :=
  RouteState.put_get trivial all

theorem pending_ok [RouteCrypto] {s : RouteState} {route : BridgeRoute} {ibc : IbcRoute} {n : ℕ}
    {packet : Packet} {path : Bytes} (h : pending s route ibc n = .ok (packet, path)) :
    ∃ bytes, s.get (.outbound route.routeName n) = some bytes ∧
      Packet.decode bytes ibc.version = .ok packet ∧ path = packet.commitmentKey ∧
      s.get (.ibc path) = some packet.commitment := by
  unfold pending at h
  cases found : s.get (.outbound route.routeName n) with
  | none => simp [found] at h
  | some bytes =>
    simp only [found, bind_ok, pure_ok, ensure_ok, exists_const] at h
    obtain ⟨p, decoded, committed, same⟩ := h
    cases same
    exact ⟨bytes, rfl, decoded, rfl, committed⟩

def CallResult.sentUnder (r : RouteName) (n : ℕ) : CallResult → Option OutboundMessage
  | .sent route out => if route.routeName = r ∧ out.message.sequence = n then some out else none
  | _ => none

def CallResult.settledAs (r : RouteName) (n : ℕ) : CallResult → Option (Option (Bytes × ℕ))
  | .ibc route outcome =>
    if route.routeName = r ∧ outcome.sequence = some n then some outcome.refund else none
  | _ => none

def marker : Option (Bytes × ℕ) → Bytes
  | none => delivered
  | some _ => refunded

theorem marker_ne {b : Bytes} (long : b.length = 32) (refund : Option (Bytes × ℕ)) :
    marker refund ≠ b := by
  rintro rfl
  cases refund <;> simp [marker, delivered, refunded] at long

section
variable [RouteCrypto] [Json]

/-- Where a packet of the route stands, from what was called so far and what is stored: not sent,
pending, delivered, or refunded to its sender in full. -/
inductive PacketState (route : BridgeRoute) (ibc : IbcRoute) (past : List CallResult)
    (s : RouteState) (n : ℕ) : Prop where
  | unsent (sent : past.filterMap (CallResult.sentUnder route.routeName n) = [])
      (settled : past.filterMap (CallResult.settledAs route.routeName n) = [])
      (stored : s.get (.outbound route.routeName n) = none)
      (commit : s.get (.ibc (ibc.commitmentPath route.sourceChain n)) = none)
  | pending (out : OutboundMessage) (reads : ReadsBack route ibc out)
      (sent : past.filterMap (CallResult.sentUnder route.routeName n) = [out])
      (settled : past.filterMap (CallResult.settledAs route.routeName n) = [])
      (stored : s.get (.outbound route.routeName n) = some out.bytes)
      (commit : s.get (.ibc (ibc.commitmentPath route.sourceChain n)) =
        some out.message.messageId)
  | settled (out : OutboundMessage) (refund : Option (Bytes × ℕ)) (reads : ReadsBack route ibc out)
      (sent : past.filterMap (CallResult.sentUnder route.routeName n) = [out])
      (settled : past.filterMap (CallResult.settledAs route.routeName n) = [refund])
      (whole : ∀ r, refund = some r → r = (out.message.sender, out.message.amount))
      (stored : s.get (.outbound route.routeName n) = some out.bytes)
      (commit : s.get (.ibc (ibc.commitmentPath route.sourceChain n)) = some (marker refund))

end

/-- The one IBC route the network governs. -/
structure SoleIbc [RouteCrypto] (g : RouteView) (route : BridgeRoute) (ibc : IbcRoute) : Prop where
  live : Live g route
  adapter : route.adapter = .ibc
  configured : route.ibc = some ibc
  sole : ∀ chain r, g.route .ibc chain = some r → r = route

theorem SoleIbc.of_live [RouteCrypto] {g : RouteView} {route other : BridgeRoute}
    {ibc : IbcRoute}
    (sole : SoleIbc g route ibc) (live : Live g other) (adapter : other.adapter = .ibc) :
    other = route := by
  have governed := live.governed
  rw [adapter] at governed
  exact sole.sole _ _ governed

section
variable [RouteCrypto] [Json] {s : RouteState} {writes : List Write} {route : BridgeRoute}
  {ibc : IbcRoute} {n : ℕ}

/-- What a call does at a packet's commitment path. -/
inductive CommitMove (s : RouteState) (writes : List Write) (route : BridgeRoute) (ibc : IbcRoute)
    (n : ℕ) (result : CallResult) : Prop where
  | still (sent : result.sentUnder route.routeName n = none)
      (settled : result.settledAs route.routeName n = none)
      (none : written writes (.ibc (ibc.commitmentPath route.sourceChain n)) = none)
  | sends (out : OutboundMessage) (reads : ReadsBack route ibc out)
      (sent : result.sentUnder route.routeName n = some out)
      (settled : result.settledAs route.routeName n = none)
      (commit : written writes (.ibc (ibc.commitmentPath route.sourceChain n)) =
        some out.message.messageId)
  | settles (out : OutboundMessage) (refund : Option (Bytes × ℕ)) (reads : ReadsBack route ibc out)
      (sent : result.sentUnder route.routeName n = none)
      (settled : result.settledAs route.routeName n = some refund)
      (stored : s.get (.outbound route.routeName n) = some out.bytes)
      (pending : s.get (.ibc (ibc.commitmentPath route.sourceChain n)) =
        some out.message.messageId)
      (whole : ∀ r, refund = some r → r = (out.message.sender, out.message.amount))
      (commit : written writes (.ibc (ibc.commitmentPath route.sourceChain n)) =
        some (marker refund))

def Stored (s : RouteState) (route : BridgeRoute) (ibc : IbcRoute) : Prop :=
  ∀ n, s.get (.outbound route.routeName n) = none ∨
    ∃ out, ReadsBack route ibc out ∧ out.message.sequence = n ∧ n ≤ maxValue 64 ∧
      s.get (.outbound route.routeName n) = some out.bytes

theorem pending_stored {packet : Packet} {path : Bytes} (configured : route.ibc = some ibc)
    (stored : Stored s route ibc) (h : pending s route ibc n = .ok (packet, path)) :
    n ≤ maxValue 64 ∧ ∃ out : OutboundMessage,
      s.get (.outbound route.routeName n) = some out.bytes ∧ ReadsBack route ibc out ∧
      outboundMessage route packet = .ok out.message ∧
      path = ibc.commitmentPath route.sourceChain n ∧
      s.get (.ibc path) = some out.message.messageId := by
  obtain ⟨bytes, found, decoded, rfl, committed⟩ := pending_ok h
  rcases stored n with none | ⟨out, ⟨p, decoded', reads⟩, sequence, fits, found'⟩
  · rw [none] at found
    cases found
  · rw [found] at found'
    cases found'
    obtain rfl : packet = p := Except.ok.inj (decoded.symm.trans decoded')
    obtain ⟨id, key⟩ := outboundMessage_ok configured reads
    refine ⟨fits, out, found, ⟨packet, decoded', reads⟩, reads, by rw [key, sequence], ?_⟩
    rw [committed, id]

theorem Handled.commitMove {outcome : IbcOutcome} (h : Handled s route writes outcome)
    (configured : route.ibc = some ibc) (stored : Stored s route ibc) (fits : n ≤ maxValue 64) :
    CommitMove s writes route ibc n (.ibc route outcome) := by
  cases h with
  | opens configured' ends step stands =>
    refine .still rfl (by simp [CallResult.settledAs]) ?_
    have other (id : String) : ibc.commitmentPath route.sourceChain n ≠ connectionPath id ∧
        ibc.commitmentPath route.sourceChain n ≠ channelPath id := commitmentPath_ne_end id
    cases step <;> simp [Ne.symm (other _).1, Ne.symm (other _).2]
  | @settles kind ibc' packet path sequence refund _ configured' packetOpen owed settled =>
    rw [configured] at configured'
    cases configured'
    obtain ⟨small, out, found, back, reads, rfl, committed⟩ :=
      pending_stored configured stored packetOpen
    have here : written writes (.ibc (ibc.commitmentPath route.sourceChain n)) =
        if sequence = n then some (marker refund) else none := by
      have same : ibc.commitmentPath route.sourceChain sequence =
          ibc.commitmentPath route.sourceChain n ↔ sequence = n :=
        ⟨packetKey_injective small fits, fun h => by rw [h]⟩
      cases refund with
      | none =>
        cases settled
        simp [same, marker]
      | some r =>
        simp only [settle, bind_ok, pure_ok] at settled
        obtain ⟨supply, -, rfl⟩ := settled
        simp [same, marker]
    by_cases now : sequence = n
    · subst now
      rw [if_pos rfl] at here
      exact .settles out refund back rfl (by simp [CallResult.settledAs]) found committed
        (fun r due => refundOf_ok reads (owed r due)) here
    · rw [if_neg now] at here
      exact .still rfl (by simp [CallResult.settledAs, now]) here

theorem PacketState.step {past : List CallResult} {result : CallResult}
    (before : PacketState route ibc past s n) (move : CommitMove s writes route ibc n result)
    (configured : route.ibc = some ibc) (clean : ColonFree route.sourceChain)
    (all : ∀ w ∈ writes, w.1.Clean)
    (bytes : written writes (.outbound route.routeName n) =
      (result.sentUnder route.routeName n).map OutboundMessage.bytes)
    (fresh : result.sentUnder route.routeName n ≠ none →
      past.filterMap (CallResult.sentUnder route.routeName n) = []) :
    PacketState route ibc (past ++ [result]) (s.put writes) n := by
  have commitAfter : (s.put writes).get (.ibc (ibc.commitmentPath route.sourceChain n)) = _ :=
    get_put_ibc all
  have bytesAfter : (s.put writes).get (.outbound route.routeName n) = _ :=
    RouteState.put_get clean all
  rw [bytes] at bytesAfter
  cases move with
  | still noSend noSettle none =>
    rw [none, none_or] at commitAfter
    rw [noSend, map_none, none_or] at bytesAfter
    cases before with
    | unsent sent settled stored commit =>
      exact .unsent (by simp [sent, noSend]) (by simp [settled, noSettle])
        (bytesAfter.trans stored) (commitAfter.trans commit)
    | pending out reads sent settled stored commit =>
      exact .pending out reads (by simp [sent, noSend]) (by simp [settled, noSettle])
        (bytesAfter.trans stored) (commitAfter.trans commit)
    | settled out refund reads sent settled whole stored commit =>
      exact .settled out refund reads (by simp [sent, noSend]) (by simp [settled, noSettle]) whole
        (bytesAfter.trans stored) (commitAfter.trans commit)
  | sends out reads sends noSettle commit =>
    rw [commit] at commitAfter
    rw [sends] at bytesAfter
    have none := fresh (by simp [sends])
    cases before with
    | unsent sent settled stored noCommit =>
      exact .pending out reads (by simp [sent, sends]) (by simp [settled, noSettle]) bytesAfter
        commitAfter
    | pending out' reads' sent =>
      rw [sent] at none
      cases none
    | settled out' refund reads' sent =>
      rw [sent] at none
      cases none
  | settles out refund reads noSend settles stored pending whole commit =>
    rw [commit] at commitAfter
    rw [noSend, map_none, none_or] at bytesAfter
    cases before with
    | unsent sent settled stored' =>
      rw [stored'] at stored
      cases stored
    | pending out' reads' sent settled stored' commit' =>
      have same : out.message = out'.message :=
        reads.unique reads' (Option.some.inj (stored.symm.trans stored'))
      exact .settled out' refund reads' (by simp [sent, noSend]) (by simp [settled, settles])
        (by rwa [← same]) (bytesAfter.trans stored') commitAfter
    | settled out' refund' reads' sent settled whole' stored' commit' =>
      rw [commit'] at pending
      exact absurd (Option.some.inj pending) (marker_ne (reads.length configured) refund')

theorem PacketState.in_view {past : List CallResult} {v : RouteView} {kv : Kv}
    (h : PacketState route ibc past ⟨v, kv⟩ n) (w : RouteView) :
    PacketState route ibc past ⟨w, kv⟩ n := by
  cases h with
  | unsent sent settled stored commit => exact .unsent sent settled stored commit
  | pending out reads sent settled stored commit =>
    exact .pending out reads sent settled stored commit
  | settled out refund reads sent settled whole stored commit =>
    exact .settled out refund reads sent settled whole stored commit

end

section
variable [RouteCrypto] [Json] [RouteEnv] [StoreProofs] {g : RouteView} {past : List Event} {kv : Kv}
  {s : RouteState} {writes : List Write} {result : CallResult} {route : BridgeRoute}
  {ibc : IbcRoute} {n : ℕ}

theorem Effect.outbound (e : Effect s writes result) :
    written writes (.outbound route.routeName n) =
      (result.sentUnder route.routeName n).map OutboundMessage.bytes := by
  have kind : (RouteKey.outbound route.routeName n).kind = .outbound := rfl
  cases result with
  | sent r out =>
    rw [← written_ofKind, kind, e.sends.outbound]
    simp only [CallResult.sentUnder, written_cons, written_nil, none_or,
      RouteKey.outbound.injEq]
    split_ifs <;> rfl
  | _ => exact e.unwritten (by simp [kind, CallResult.kinds])

theorem Effect.commitMove {v : RouteView} (e : Effect ⟨v, kv⟩ writes result)
    (next : Continues g past v) (sole : SoleIbc g route ibc) (stored : Stored ⟨v, kv⟩ route ibc)
    (fits : n ≤ maxValue 64) : CommitMove ⟨v, kv⟩ writes route ibc n result := by
  have live := sole.live
  cases result with
  | sent r out =>
    have sends := e.sends
    by_cases isIbc : r.adapter = .ibc
    · obtain rfl := sole.of_live (sends.live.of_continues next) isIbc
      obtain ⟨-, reads, commit⟩ := e.ibcSend isIbc sole.configured
      have small := (nextSequence_ok sends.next).2
      have same : ibc.commitmentPath r.sourceChain out.message.sequence =
          ibc.commitmentPath r.sourceChain n ↔ out.message.sequence = n :=
        ⟨packetKey_injective small fits, fun h => by rw [h]⟩
      by_cases now : out.message.sequence = n
      · refine .sends out reads (by simp [CallResult.sentUnder, now]) rfl ?_
        rw [written_ibc, commit]
        simp [now]
      · refine .still (by simp [CallResult.sentUnder, now]) rfl ?_
        rw [written_ibc, commit]
        simp [same, now]
    · have other : r.routeName ≠ route.routeName := fun same =>
        isIbc ((congrArg RouteName.adapter same).trans sole.adapter)
      refine .still (by simp [CallResult.sentUnder, other]) rfl ?_
      rw [written_ibc, e.ibc_nil_of_sent isIbc]
      rfl
  | admitted r t =>
    refine .still rfl rfl ?_
    rw [written_ibc]
    by_cases isIbc : r.adapter = .ibc
    · obtain rfl := sole.of_live (e.admits.live.of_continues next) isIbc
      apply written_of_ne
      intro w mem same
      obtain ⟨path, key, received⟩ := (e.ibcReceive isIbc sole.configured).2 w mem
      rw [key] at same
      exact received.ne_commitment (RouteKey.ibc.inj same)
    · rw [e.ibc_nil_of_admitted isIbc]
      rfl
  | ibc r outcome =>
    have relays := e.relays
    have isIbc : r.adapter = .ibc := by
      cases e with
      | ibc live adapter handled => exact adapter
    obtain rfl := sole.of_live (relays.live.of_continues next) isIbc
    exact relays.handled.commitMove sole.configured stored fits
  | _ => exact .still rfl rfl (e.unwritten (by simp [RouteKey.kind, CallResult.kinds]))

theorem mem_outcomes_range (run : Run g past kv) (clean : ColonFree route.sourceChain) {r : CallResult}
    {out : OutboundMessage} (mem : r ∈ outcomes past)
    (sent : r.sentUnder route.routeName n = some out) :
    n ≤ RouteState.readU64 ⟨g, kv⟩ (.sequence route.routeName) := by
  have number : r.sentAs route.routeName = some n := by
    cases r with
    | sent other o =>
      simp only [CallResult.sentUnder] at sent
      split_ifs at sent with same
      simp [CallResult.sentAs, same.1, same.2]
    | _ => cases sent
  have inOrder := run.sent_in_order (r := route.routeName) clean
  have found : n ∈ (outcomes past).filterMap (CallResult.sentAs route.routeName) :=
    mem_filterMap.2 ⟨r, mem, number⟩
  rw [inOrder, mem_range'_1] at found
  omega

theorem Run.fresh (run : Run g past kv) (clean : ColonFree route.sourceChain) {v : RouteView}
    (e : Effect ⟨v, kv⟩ writes result) (sends : result.sentUnder route.routeName n ≠ none) :
    (outcomes past).filterMap (CallResult.sentUnder route.routeName n) = [] := by
  rw [filterMap_eq_nil_iff]
  intro r mem
  by_contra earlier
  obtain ⟨out, sent⟩ := ne_none_iff_exists'.1 earlier
  have before := mem_outcomes_range run clean mem sent
  cases result with
  | sent other o =>
    simp only [CallResult.sentUnder, ne_eq, ite_eq_right_iff, reduceCtorEq, imp_false,
      not_not] at sends
    obtain ⟨same, rfl⟩ := sends
    have next := (nextSequence_ok e.sends.next).1
    rw [same] at next
    have after : RouteState.readU64 ⟨v, kv⟩ (.sequence route.routeName) =
        RouteState.readU64 ⟨g, kv⟩ (.sequence route.routeName) := rfl
    omega
  | _ => exact sends rfl

theorem Run.stored (sole : SoleIbc g route ibc) (run : Run g past kv) :
    Stored ⟨g, kv⟩ route ibc := by
  have clean : ColonFree route.sourceChain := sole.live.ruled.chain
  refine Run.induct (P := fun past kv => Stored ⟨g, kv⟩ route ibc) ?_ ?_ ?_ run
  · exact fun n => .inl rfl
  · exact fun past kv v c e run ih next => ih
  · intro past kv v c writes result run ih next effect n
    have after : RouteState.get ⟨g, (RouteState.put ⟨v, kv⟩ writes).kv⟩
        (.outbound route.routeName n) = _ :=
      RouteState.put_get (s := ⟨v, kv⟩) clean effect.clean
    rw [effect.outbound] at after
    rw [after]
    cases sends : result.sentUnder route.routeName n with
    | none => exact ih n
    | some out =>
      right
      cases result with
      | sent r o =>
        simp only [CallResult.sentUnder] at sends
        split_ifs at sends with same
        cases sends
        have live := effect.sends.live.of_continues next
        obtain rfl := live.unique sole.live same.1
        have reads := (effect.ibcSend sole.adapter sole.configured).reads
        exact ⟨out, reads, same.2, same.2 ▸ (nextSequence_ok effect.sends.next).2, rfl⟩
      | _ => cases sends

theorem Run.packets (sole : SoleIbc g route ibc) (run : Run g past kv) (fits : n ≤ maxValue 64) :
    PacketState route ibc (outcomes past) ⟨g, kv⟩ n := by
  have clean : ColonFree route.sourceChain := sole.live.ruled.chain
  refine Run.induct (P := fun past kv => PacketState route ibc (outcomes past) ⟨g, kv⟩ n)
    ?_ ?_ ?_ run
  · exact .unsent rfl rfl rfl rfl
  · intro past kv v c e run ih next
    rwa [outcomes_error]
  · intro past kv v c writes result run ih next effect
    rw [outcomes_ok]
    have stored : Stored ⟨g, kv⟩ route ibc := run.stored sole
    have before : PacketState route ibc (outcomes past) ⟨v, kv⟩ n := ih.in_view v
    exact (before.step (effect.commitMove next sole stored fits) sole.configured clean
      effect.clean effect.outbound (run.fresh clean effect)).in_view g

end
end Tenzro.Bridge
