import Tenzro.RouteEffects

set_option autoImplicit false

/-!
# The records a call writes

Key by key: the parts of a call's writes, and that none of them is at another's key.
-/
namespace Tenzro.Bridge
open ByteCodec FixedWidth Outcome List

section
variable {s : RouteState} {route : BridgeRoute} {asset : CarriedAsset} {amount : ℕ}

/-! ### Lanes -/

theorem consumeBucket_keys {key : RouteKey} {limit : Option LaneRateLimit}
    {direction : LaneDirection} {what : String} {lane : List Write}
    (h : consumeBucket s key limit direction what amount = .ok lane) : ∀ w ∈ lane, w.1 = key := by
  unfold consumeBucket at h
  cases limit with
  | none =>
    cases h
    simp
  | some limit =>
    simp only [bind_ok, pure_ok] at h
    obtain ⟨b, -, rfl⟩ := h
    simp

theorem consumeLane_keys {direction : LaneDirection} {lane : List Write}
    (h : consumeLane s route direction amount = .ok lane) :
    ∀ w ∈ lane, w.1 = .lane direction route.routeName := consumeBucket_keys h

theorem consumeAssetLane_keys {direction : LaneDirection} {lane : List Write}
    (h : consumeAssetLane s route asset direction amount = .ok lane) :
    ∀ w ∈ lane, w.1 = .assetLane direction route.routeName asset.symbol := consumeBucket_keys h

/-! ### Epoch totals -/

/-- One more amount counted in the epoch under the key, within the cap. -/
structure Counts (s : RouteState) (key : RouteKey) (amount cap : ℕ) (w : Write) : Prop where
  within : s.mintedAt key s.view.epoch + amount ≤ cap
  fits : s.mintedAt key s.view.epoch + amount ≤ maxValue 128
  write : w = (key, epochRecord s.view.epoch (s.mintedAt key s.view.epoch + amount))

theorem withinEpochCap_some {used cap after : ℕ} (h : withinEpochCap used amount cap = some after) :
    used + amount ≤ cap ∧ used + amount ≤ maxValue 128 ∧ after = used + amount := by
  unfold withinEpochCap at h
  split_ifs at h with within
  cases h
  exact ⟨within.2, within.1, rfl⟩

theorem consumeAt_counts {key : RouteKey} {what : String} {limit : MintRateLimit} {w : Write}
    {usage : EpochUsage} (h : consumeAt s key what limit amount = .ok (w, usage)) :
    Counts s key amount limit.perEpoch w := by
  simp only [consumeAt, refuse, mintAdmitted] at h
  split_ifs at h with small
  cases admitted : withinEpochCap (s.mintedAt key s.view.epoch) amount limit.perEpoch with
  | none => simp [admitted] at h
  | some after =>
    rw [admitted] at h
    cases h
    obtain ⟨within, fits, rfl⟩ := withinEpochCap_some admitted
    exact ⟨within, fits, rfl⟩

theorem consumeOutflow_counts {unit : String} {w : Write}
    (h : consumeOutflow s unit amount = .ok w) :
    ∃ cap, outflowCap s unit = some cap ∧ Counts s (.outflow unit) amount cap w := by
  unfold consumeOutflow at h
  cases capped : outflowCap s unit with
  | none => simp [capped, refuse] at h
  | some cap =>
    cases admitted : withinEpochCap (s.mintedAt (.outflow unit) s.view.epoch) amount cap with
    | none => simp [capped, admitted, refuse] at h
    | some after =>
      simp only [capped, admitted] at h
      cases h
      obtain ⟨within, fits, rfl⟩ := withinEpochCap_some admitted
      exact ⟨cap, rfl, within, fits, rfl⟩

/-! ### Supply -/

theorem SupplyRecord.lockAndMint_ok {r supply : SupplyRecord}
    (h : r.lockAndMint amount route = .ok supply) : r.afterLock amount = some supply := by
  unfold lockAndMint at h
  cases after : r.afterLock amount <;> simp_all [refuse]

theorem SupplyRecord.release_ok {r supply : SupplyRecord}
    (h : r.release amount route = .ok supply) : r.afterRelease amount = some supply := by
  unfold release at h
  cases after : r.afterRelease amount <;> simp_all [refuse]

end

/-! ### Inbound transfers -/

def BridgeRoute.mintKey (r : BridgeRoute) : Option CarriedAsset → RouteKey
  | none => .mintEpoch r.routeName
  | some a => .assetMintEpoch r.routeName a.symbol

def BridgeRoute.laneKey (r : BridgeRoute) (direction : LaneDirection) :
    Option CarriedAsset → RouteKey
  | none => .lane direction r.routeName
  | some a => .assetLane direction r.routeName a.symbol

def mintCap (v : RouteView) (r : BridgeRoute) : Option CarriedAsset → Option ℕ
  | none => (v.networkLimit r).map fun network => (r.mintLimit.tightest network).perEpoch
  | some a => some a.mintLimit.perEpoch

/-- What an inbound transfer draws on. -/
structure Draws (s : RouteState) (route : BridgeRoute) (asset : Option CarriedAsset) (amount : ℕ)
    (drawn : InboundDraw) : Prop where
  counts : ∃ cap, mintCap s.view route asset = some cap ∧
    Counts s (route.mintKey asset) amount cap drawn.usage.1
  lane : ∀ w ∈ drawn.lane, w.1 = route.laneKey .inbound asset
  key : drawn.supplyKey = route.supplyKey asset
  issued : route.issues asset →
    (s.supplyAt (route.supplyKey asset)).afterLock amount = some drawn.supply
  released : ¬ route.issues asset →
    (s.supplyAt (route.supplyKey asset)).afterRelease amount = some drawn.supply

section
variable {s : RouteState} {route : BridgeRoute} {amount : ℕ}

theorem drawInbound_draws [RouteCrypto] {asset : Option CarriedAsset} {drawn : InboundDraw}
    (h : drawInbound s route asset amount = .ok drawn) : Draws s route asset amount drawn := by
  cases asset with
  | some asset =>
    simp only [drawInbound, bind_ok, pure_ok, ensure_ok, exists_const] at h
    obtain ⟨⟨w, usage⟩, counted, lane, lanes, supply, locked, -, rfl⟩ := h
    have issues : route.issues (some asset) := .inl rfl
    exact { counts := ⟨_, rfl, consumeAt_counts counted⟩, lane := consumeAssetLane_keys lanes,
            key := rfl, issued := fun _ => SupplyRecord.lockAndMint_ok locked,
            released := fun no => absurd issues no }
  | none =>
    cases limited : s.view.networkLimit route with
    | none => simp [drawInbound, limited, refuse] at h
    | some network =>
      simp only [drawInbound, limited, bind_ok, pure_ok] at h
      obtain ⟨⟨w, usage⟩, counted, lane, lanes, supply, moved, rfl⟩ := h
      have deposit : route.issues none ↔ route.adapter = .deposit := by simp [BridgeRoute.issues]
      exact { counts := ⟨_, by simp [mintCap, limited], consumeAt_counts counted⟩,
              lane := consumeLane_keys lanes, key := rfl,
              issued := fun issues => by
                rw [if_pos (deposit.1 issues)] at moved
                exact SupplyRecord.lockAndMint_ok moved,
              released := fun no => by
                rw [if_neg (mt deposit.2 no)] at moved
                exact SupplyRecord.release_ok moved }

end

/-! ### Transports -/

theorem settings_ok {route : BridgeRoute} {ibc : IbcRoute}
    (h : settings route = .ok ibc) : route.ibc = some ibc := by
  unfold settings at h
  cases found : route.ibc <;> simp_all

section
variable [RouteCrypto] {s : RouteState} {route : BridgeRoute}

theorem receivedWrites_keys {sequence : ℕ} {writes : List Write}
    (h : receivedWrites route sequence = .ok writes) : ∀ w ∈ writes, ∃ path, w.1 = .ibc path := by
  simp only [receivedWrites, bind_ok, pure_ok] at h
  obtain ⟨ibc, -, rfl⟩ := h
  simp

theorem transportWrites_keys {sequence : ℕ} {body : Bytes} {writes : List Write}
    (h : transportWrites s route sequence body = .ok writes) :
    ∀ w ∈ writes, (∃ path, w.1 = .ibc path) ∨
      ∃ anchor, route.lightClient = some anchor ∧ w.1 = .utxos route.routeName anchor.id := by
  simp only [transportWrites, bind_ok] at h
  obtain ⟨ibc, received, h⟩ := h
  have paths : ∀ w ∈ ibc, ∃ path, w.1 = .ibc path := by
    split_ifs at received with isIbc
    · simp only [bind_ok] at received
      obtain ⟨-, -, received⟩ := received
      exact receivedWrites_keys received
    · cases received
      simp
  intro w mem
  split at h
  case h_1 anchor deposit anchored =>
    simp only [bind_ok, pure_ok] at h
    obtain ⟨utxos, -, utxo, -, rfl⟩ := h
    rw [mem_append, mem_singleton] at mem
    rcases mem with mem | rfl
    · exact .inl (paths w mem)
    · exact .inr ⟨anchor, anchored, rfl⟩
  · cases pure_ok.1 h
    exact .inl (paths w mem)

variable [Json]

/-- What a transfer of the route's own value becomes. -/
structure Built (sequence : ℕ) (transfer : OutboundTransfer) (message : RouteMessage)
    (commit : List Write) : Prop where
  sequence : message.sequence = sequence
  amount : message.amount = transfer.amount
  sender : message.sender = transfer.sender
  keys : ∀ w ∈ commit, ∃ path, w.1 = .ibc path

theorem buildTransfer_built {family : FamilyAdapter} {sequence : ℕ} {transfer : OutboundTransfer}
    {message : RouteMessage} {bytes : Bytes} {commit : List Write}
    (h : buildTransfer s route family sequence transfer = .ok (message, bytes, commit)) :
    Built sequence transfer message commit := by
  unfold buildTransfer at h
  split_ifs at h with isIbc
  · simp only [bind_ok, pure_ok] at h
    obtain ⟨⟨m, b, c⟩, sent, same⟩ := h
    cases same
    simp only [sendPacket, bind_ok, pure_ok, ensure_ok, exists_const] at sent
    obtain ⟨-, -, ibc, -, -, -, packet, -, back, -, -, -, -, same⟩ := sent
    cases same
    exact ⟨rfl, rfl, rfl, by simp⟩
  · simp only [bind_ok, pure_ok] at h
    obtain ⟨id, -, b, -, same⟩ := h
    cases same
    exact ⟨rfl, rfl, rfl, by simp⟩

/-- The steps of the handshake: what stands at Tenzro's end before and after. -/
inductive Opens (c : Classic) : Bytes → Option Bytes → Bytes → Prop where
  | connectionTry : Opens c (connectionPath c.connection) none (c.ourConnection .tryOpen)
  | connectionConfirm : Opens c (connectionPath c.connection) (some (c.ourConnection .tryOpen))
      (c.ourConnection .opened)
  | channelTry : Opens c (channelPath c.channel) none (c.ourChannel .tryOpen)
  | channelConfirm : Opens c (channelPath c.channel) (some (c.ourChannel .tryOpen))
      (c.ourChannel .opened)

/-- A relayer's message either takes a handshake step or settles a packet. -/
inductive Handled (s : RouteState) (route : BridgeRoute) : List Write → IbcOutcome → Prop where
  | opens {kind : String} {ibc : IbcRoute} {c : Classic} {path ours : Bytes} {before : Option Bytes}
      (configured : route.ibc = some ibc) (ends : classic route ibc = .ok c)
      (step : Opens c path before ours) (stands : s.get (.ibc path) = before) :
      Handled s route [(.ibc path, ours)] ⟨kind, path, none, none⟩
  | settles {kind : String} {ibc : IbcRoute} {packet : Packet} {path : Bytes} {sequence : ℕ}
      {refund : Option (Bytes × ℕ)} {writes : List Write} (configured : route.ibc = some ibc)
      (open_ : pending s route ibc sequence = .ok (packet, path))
      (owed : ∀ r, refund = some r → refundOf route packet = .ok r)
      (settled : settle s route path refund = .ok writes) :
      Handled s route writes ⟨kind, path, some sequence, refund⟩

theorem Handled.keys {writes : List Write} {outcome : IbcOutcome}
    (h : Handled s route writes outcome) :
    ∀ w ∈ writes, (∃ path, w.1 = .ibc path) ∨ w.1 = .supply route.routeName := by
  cases h with
  | opens => simp
  | @settles _ _ _ _ _ refund _ _ _ _ settled =>
    cases refund with
    | none =>
      cases settled
      simp
    | some r =>
      simp only [settle, bind_ok, pure_ok] at settled
      obtain ⟨supply, -, rfl⟩ := settled
      simp

variable [StoreProofs]

theorem openStep_handled {ibc : IbcRoute} {c : Classic} {kind error : String}
    {path theirPath theirs ours proof : Bytes} {before : Option Bytes} {writes : List Write}
    {outcome : IbcOutcome} (configured : route.ibc = some ibc) (ends : classic route ibc = .ok c)
    (step : Opens c path before ours)
    (h : openStep s route kind path before error theirPath theirs ours proof =
      .ok (writes, outcome)) : Handled s route writes outcome := by
  simp only [openStep, bind_ok, pure_ok, ensure_ok, exists_const] at h
  obtain ⟨stands, -, -, same⟩ := h
  cases same
  exact .opens configured ends step stands

theorem handle_handled {msg : IbcMsg} {writes : List Write} {outcome : IbcOutcome}
    (h : handle s route msg = .ok (writes, outcome)) : Handled s route writes outcome := by
  simp only [handle, bind_ok] at h
  obtain ⟨ibc, configured, h⟩ := h
  have configured := settings_ok configured
  cases msg with
  | connectionOpenTry proof =>
    simp only [bind_ok] at h
    obtain ⟨c, ends, h⟩ := h
    exact openStep_handled configured ends .connectionTry h
  | connectionOpenConfirm proof =>
    simp only [bind_ok] at h
    obtain ⟨c, ends, h⟩ := h
    exact openStep_handled configured ends .connectionConfirm h
  | channelOpenTry proof =>
    simp only [bind_ok] at h
    obtain ⟨c, ends, -, -, h⟩ := h
    exact openStep_handled configured ends .channelTry h
  | channelOpenConfirm proof =>
    simp only [bind_ok] at h
    obtain ⟨c, ends, h⟩ := h
    exact openStep_handled configured ends .channelConfirm h
  | acknowledge sequence acknowledgement proof =>
    simp only [bind_ok, pure_ok] at h
    obtain ⟨⟨packet, path⟩, stored, -, -, refund, owed, writes, settled, same⟩ := h
    cases same
    refine .settles configured stored (fun r due => ?_) settled
    split_ifs at owed with success failure
    · cases owed
      cases due
    · obtain ⟨x, found, rfl⟩ := map_ok.1 owed
      cases due
      exact found
  | timeout sequence proof =>
    simp only [bind_ok, pure_ok, ensure_ok, exists_const] at h
    obtain ⟨⟨packet, path⟩, stored, -, -, -, refund, owed, writes, settled, same⟩ := h
    cases same
    refine .settles configured stored (fun r due => ?_) settled
    cases due
    exact owed

end

/-! ### Keys -/

theorem exitUnit_clean {route : BridgeRoute} {unit : String}
    (h : exitUnit route none = .ok unit) : ColonFree unit := by
  unfold exitUnit at h
  simp only at h
  split_ifs at h with away
  · cases h
    unfold ColonFree
    decide
  · cases found : depositUnit route.family with
    | none => simp [found, refuse] at h
    | some u =>
      rw [found] at h
      cases h
      unfold depositUnit at found
      split at found
      · cases found
        unfold ColonFree
        decide
      · cases found

section
variable [RouteCrypto] [Json] [StoreProofs] [RouteEnv] {s : RouteState} {writes : List Write}
  {result : CallResult}

theorem Effect.clean (e : Effect s writes result) : ∀ w ∈ writes, w.1.Clean := by
  cases e with
  | @admitted route _ _ _ asset drawn transport live _ _ carried _ draw recorded =>
    have chain := live.ruled.chain
    obtain ⟨⟨cap, -, counts⟩, lane, key, -, -⟩ := drawInbound_draws draw
    have usage : drawn.usage.1.1 = route.mintKey asset := by rw [counts.write]
    have named : (route.mintKey asset).Clean ∧ (route.supplyKey asset).Clean ∧
        (route.laneKey .inbound asset).Clean := by
      cases asset with
      | none => exact ⟨chain, chain, chain⟩
      | some a =>
        have symbol := live.ruled.symbols a (inboundAsset_mem carried)
        exact ⟨⟨chain, symbol⟩, ⟨chain, symbol⟩, chain, symbol⟩
    simp only [forall_mem_append, forall_mem_cons, not_mem_nil, false_implies,
      implies_true, and_true, usage, key]
    refine ⟨⟨⟨chain, named.1, named.2.1⟩, fun w mem => lane w mem ▸ named.2.2⟩, fun w mem => ?_⟩
    · rcases transportWrites_keys recorded w mem with ⟨path, key⟩ | ⟨anchor, -, key⟩ <;> rw [key]
      · trivial
      · exact chain
  | transferred live stays lanes counted leaves next built locked =>
    have chain := live.ruled.chain
    obtain ⟨cap, -, counts⟩ := consumeOutflow_counts leaves
    simp only [forall_mem_append, forall_mem_cons, not_mem_nil, false_implies,
      implies_true, and_true, counts.write]
    refine ⟨⟨fun w mem => ?_, chain, chain, chain⟩, fun w mem => ?_, exitUnit_clean counted⟩
    · obtain ⟨path, key⟩ := (buildTransfer_built built).keys w mem
      rw [key]
      trivial
    · rw [consumeLane_keys lanes w mem]
      exact chain
  | withdrawn live deposit lanes counted leaves next descriptor anchored fits held planned released =>
    have chain := live.ruled.chain
    obtain ⟨cap, -, counts⟩ := consumeOutflow_counts leaves
    simp only [forall_mem_append, forall_mem_cons, not_mem_nil, false_implies,
      implies_true, and_true, counts.write]
    refine ⟨⟨chain, chain, chain, chain⟩, fun w mem => ?_, exitUnit_clean counted⟩
    rw [consumeLane_keys lanes w mem]
    exact chain
  | redeemed live listed next released lanes leaves =>
    have chain := live.ruled.chain
    have symbol := live.ruled.symbols _ listed
    obtain ⟨cap, -, counts⟩ := consumeOutflow_counts leaves
    simp only [forall_mem_append, forall_mem_cons, not_mem_nil, false_implies,
      implies_true, and_true, counts.write]
    refine ⟨⟨chain, ⟨chain, symbol⟩, chain, symbol⟩, fun w mem => ?_⟩
    rw [consumeAssetLane_keys lanes w mem]
    exact ⟨chain, symbol⟩
  | consumed live fresh =>
    rw [forall_mem_singleton]
    exact live.ruled.chain
  | published live fresh =>
    rw [forall_mem_singleton]
    exact live.ruled.chain
  | ibc live adapter handled =>
    intro w mem
    rcases (handle_handled handled).keys w mem with ⟨path, key⟩ | key <;> rw [key]
    · trivial
    · exact live.ruled.chain
  | queued live next =>
    simp only [forall_mem_cons, not_mem_nil, false_implies, implies_true, and_true]
    exact ⟨live.ruled.chain, live.ruled.chain⟩
  | advanced valid advances =>
    intro w mem
    obtain ⟨x, source, rfl⟩ := mem_map.1 mem
    obtain ⟨notSet, free⟩ := LightClientVerifier.suffixes _ _ _ _ _ _ advances x source
    exact ⟨(BridgeRoute.ruled_of_validate valid).chain, notSet, free⟩

end

/-! ### Calls, record by record -/

section
variable {route : BridgeRoute} {asset : Option CarriedAsset} {direction : LaneDirection}

@[simp]
theorem kind_supplyKey [RouteCrypto] : (route.supplyKey asset).kind = .supply := by
  cases asset <;> rfl

@[simp]
theorem kind_mintKey : (route.mintKey asset).kind = .minted := by
  cases asset <;> rfl

@[simp]
theorem kind_laneKey : (route.laneKey direction asset).kind = .lane := by
  cases asset <;> rfl

end

/-- An inbound transfer's records. -/
structure Admits [RouteCrypto] (s : RouteState) (writes : List Write) (route : BridgeRoute)
    (t : AdmittedTransfer) : Prop where
  live : Live s.view route
  listed : ∀ a, t.asset = some a → a ∈ route.assets
  fresh : s.get (.nonce route.routeName t.message.sequence) = none
  nonce : ofKind .nonce writes = [(.nonce route.routeName t.message.sequence, [1])]
  counts : ∃ cap w, mintCap s.view route t.asset = some cap ∧
    Counts s (route.mintKey t.asset) t.message.amount cap w ∧ ofKind .minted writes = [w]
  issued : route.issues t.asset →
    (s.supplyAt (route.supplyKey t.asset)).afterLock t.message.amount = some t.supply
  released : ¬ route.issues t.asset →
    (s.supplyAt (route.supplyKey t.asset)).afterRelease t.message.amount = some t.supply
  supply : ofKind .supply writes = [(route.supplyKey t.asset, t.supply.encode)]
  rest : ∀ k, k ∈ [RecordKind.messageNonce, .outflow, .sequence, .messageSequence, .outbound,
    .outboundMessage, .lightClient] → ofKind k writes = []

/-- An outbound transfer's records. -/
structure Sends [RouteCrypto] (s : RouteState) (writes : List Write) (route : BridgeRoute)
    (out : OutboundMessage) : Prop where
  live : Live s.view route
  listed : ∀ a, out.asset = some a → a ∈ route.assets
  next : nextSequence s (.sequence route.routeName) "outbound" = .ok out.message.sequence
  sequence : ofKind .sequence writes =
    [(.sequence route.routeName, beBytes 8 out.message.sequence)]
  outbound : ofKind .outbound writes =
    [(.outbound route.routeName out.message.sequence, out.bytes)]
  leaves : ∃ unit cap w, exitUnit route out.asset = .ok unit ∧ outflowCap s unit = some cap ∧
    Counts s (.outflow unit) out.message.amount cap w ∧ ofKind .outflow writes = [w]
  locked : ¬ route.issues out.asset →
    (s.supplyAt (route.supplyKey out.asset)).afterLock out.message.amount = some out.supply
  released : route.issues out.asset →
    (s.supplyAt (route.supplyKey out.asset)).afterRelease out.message.amount = some out.supply
  supply : ofKind .supply writes = [(route.supplyKey out.asset, out.supply.encode)]
  rest : ∀ k, k ∈ [RecordKind.nonce, .messageNonce, .minted, .messageSequence, .outboundMessage,
    .lightClient] → ofKind k writes = []

section
variable [RouteCrypto] [Json] [StoreProofs] [RouteEnv] {s : RouteState} {writes : List Write}
  {route : BridgeRoute}

theorem Effect.admits {t : AdmittedTransfer} (e : Effect s writes (.admitted route t)) :
    Admits s writes route t := by
  cases e with
  | @admitted _ _ _ message asset drawn transport live _ _ carried fresh draw recorded =>
    obtain ⟨⟨cap, limit, counts⟩, lane, supplyKey, issued, released⟩ := drawInbound_draws draw
    have lanes (k : RecordKind) (no : k ≠ .lane) : ofKind k drawn.lane = [] :=
      ofKind_of_key lane (by rwa [kind_laneKey])
    have tail (k : RecordKind) (no : k ≠ .ibc ∧ k ≠ .utxos) : ofKind k transport = [] := by
      apply ofKind_eq_nil
      intro w mem
      rcases transportWrites_keys recorded w mem with ⟨path, at_⟩ | ⟨anchor, -, at_⟩ <;> rw [at_]
      · exact no.1.symm
      · exact no.2.symm
    have usage : drawn.usage.1.1.kind = .minted := by rw [counts.write, kind_mintKey]
    have key : drawn.supplyKey.kind = .supply := by rw [supplyKey, kind_supplyKey]
    have nonce : (RouteKey.nonce route.routeName message.sequence).kind = .nonce := rfl
    exact
      { live := live
        listed := by
          rintro a rfl
          exact inboundAsset_mem carried
        fresh := fresh
        nonce := by simp [lanes, tail, usage, key, nonce]
        counts := ⟨cap, _, limit, counts, by simp [lanes, tail, usage, key, nonce]⟩
        issued := issued
        released := released
        supply := by simp [lanes, tail, usage, nonce, supplyKey]
        rest := by simp [lanes, tail, usage, key, nonce] }

attribute [local simp] RouteKey.kind utxoSetKey outboundDraft BridgeRoute.supplyKey

theorem Effect.sends {out : OutboundMessage} (e : Effect s writes (.sent route out)) :
    Sends s writes route out := by
  cases e with
  | @transferred _ _ _ unit lane outflow _ _ _ commit _ live stays lanes counted leaves next built
      locked =>
    obtain ⟨cap, capped, counts⟩ := consumeOutflow_counts leaves
    obtain ⟨numbered, amount, -, keys⟩ := buildTransfer_built built
    have lane (k : RecordKind) (no : k ≠ .lane) : ofKind k lane = [] :=
      ofKind_of_key (consumeLane_keys lanes) no
    have commit (k : RecordKind) (no : k ≠ .ibc) : ofKind k commit = [] := by
      apply ofKind_eq_nil
      intro w mem
      obtain ⟨path, at_⟩ := keys w mem
      rw [at_]
      exact no.symm
    have issues : ¬ route.issues none := by simpa [BridgeRoute.issues] using stays
    exact
      { live := live
        listed := by simp
        next := numbered ▸ next
        sequence := by simp [lane, commit, counts.write, numbered]
        outbound := by simp [lane, commit, counts.write, numbered]
        leaves := ⟨unit, cap, outflow, counted, capped, amount ▸ counts, by
          simp [lane, commit, counts.write]⟩
        locked := fun _ => amount ▸ SupplyRecord.lockAndMint_ok locked
        released := fun yes => absurd yes issues
        supply := by simp [lane, commit, counts.write]
        rest := by simp [lane, commit, counts.write] }
  | @withdrawn _ _ unit lane outflow _ _ _ _ _ _ _ _ live deposit lanes counted leaves next _ _ _ _ _
      released =>
    obtain ⟨cap, capped, counts⟩ := consumeOutflow_counts leaves
    have lane (k : RecordKind) (no : k ≠ .lane) : ofKind k lane = [] :=
      ofKind_of_key (consumeLane_keys lanes) no
    have issues : route.issues none := .inr deposit
    exact
      { live := live
        listed := by simp
        next := next
        sequence := by simp [lane, counts.write]
        outbound := by simp [lane, counts.write]
        leaves := ⟨unit, cap, outflow, counted, capped, counts, by simp [lane, counts.write]⟩
        locked := fun no => absurd issues no
        released := fun _ => SupplyRecord.release_ok released
        supply := by simp [lane, counts.write]
        rest := by simp [lane, counts.write] }
  | @redeemed _ asset _ lane outflow _ _ _ _ live listed next released lanes leaves =>
    obtain ⟨cap, capped, counts⟩ := consumeOutflow_counts leaves
    have lane (k : RecordKind) (no : k ≠ .lane) : ofKind k lane = [] :=
      ofKind_of_key (consumeAssetLane_keys lanes) no
    have issues : route.issues (some asset) := .inl rfl
    exact
      { live := live
        listed := by
          rintro a ⟨⟩
          exact listed
        next := next
        sequence := by simp [lane, counts.write]
        outbound := by simp [lane, counts.write]
        leaves := ⟨asset.symbol, cap, outflow, rfl, capped, counts, by simp [lane, counts.write]⟩
        locked := fun no => absurd issues no
        released := fun _ => SupplyRecord.release_ok released
        supply := by simp [lane, counts.write]
        rest := by simp [lane, counts.write] }

/-- A relayer's message writes to the IBC store and, for a refund, to the route's supply. -/
structure Relays (s : RouteState) (writes : List Write) (route : BridgeRoute)
    (outcome : IbcOutcome) : Prop where
  live : Live s.view route
  handled : Handled s route writes outcome
  rest : ∀ k, k ∉ [RecordKind.ibc, .supply] → ofKind k writes = []

theorem Effect.relays {outcome : IbcOutcome} (e : Effect s writes (.ibc route outcome)) :
    Relays s writes route outcome := by
  cases e with
  | ibc live adapter handled =>
    have handled := handle_handled handled
    refine ⟨live, handled, fun k no => ofKind_eq_nil fun w mem => ?_⟩
    simp only [mem_cons, not_mem_nil, or_false, not_or] at no
    rcases handled.keys w mem with ⟨path, at_⟩ | at_ <;> rw [at_]
    · exact Ne.symm no.1
    · exact Ne.symm no.2

def CallResult.kinds : CallResult → List RecordKind
  | .admitted .. => [.nonce, .minted, .supply, .lane, .utxos, .ibc]
  | .sent .. => [.sequence, .supply, .outbound, .outflow, .lane, .utxos, .ibc]
  | .consumed .. | .published .. => [.messageNonce]
  | .ibc .. => [.ibc, .supply]
  | .queued .. => [.messageSequence, .outboundMessage]
  | .advanced .. => [.lightClient]

variable {result : CallResult}

theorem Effect.silent {kind : RecordKind} (e : Effect s writes result)
    (no : kind ∉ result.kinds) : ofKind kind writes = [] := by
  cases result with
  | admitted r t => exact e.admits.rest kind (by revert no; cases kind <;> simp [CallResult.kinds])
  | sent r out => exact e.sends.rest kind (by revert no; cases kind <;> simp [CallResult.kinds])
  | ibc r outcome => exact e.relays.rest kind no
  | advanced r =>
    cases e
    refine ofKind_eq_nil fun w mem => ?_
    obtain ⟨x, -, rfl⟩ := mem_map.1 mem
    exact Ne.symm (ne_of_not_mem_cons no)
  | _ =>
    simp only [CallResult.kinds, mem_cons, not_mem_nil, or_false, not_or] at no
    cases e
    simp [Ne.symm, no]

theorem Effect.unwritten {key : RouteKey} (e : Effect s writes result)
    (no : key.kind ∉ result.kinds) : written writes key = none := by
  rw [← written_ofKind, e.silent no]
  rfl

/-- A set of tracked outputs is written by a transfer of its route, under the anchor of the record
the transfer ran under. -/
theorem Effect.tracks {name : RouteName} {id : Bytes} (e : Effect s writes result)
    (wrote : written writes (.utxos name id) ≠ none) :
    ∃ r anchor, Live s.view r ∧ r.routeName = name ∧ r.lightClient = some anchor ∧ anchor.id = id ∧
      ((∃ t, result = .admitted r t) ∨ ∃ out, result = .sent r out) := by
  by_contra absent
  apply wrote
  cases e with
  | @admitted r family d message asset drawn transport live adapter decoded carried fresh draw
      recorded =>
    obtain ⟨⟨cap, -, counts⟩, lane, supplyKey, -, -⟩ := drawInbound_draws draw
    apply written_of_ne
    intro w mem
    simp only [cons_append, nil_append, mem_cons, mem_append] at mem
    rcases mem with rfl | rfl | rfl | mem | mem
    · simp
    · rw [counts.write]
      cases asset <;> simp [BridgeRoute.mintKey]
    · rw [supplyKey]
      cases asset <;> simp
    · rw [lane w mem]
      cases asset <;> simp [BridgeRoute.laneKey]
    · rcases transportWrites_keys recorded w mem with ⟨path, key⟩ | ⟨anchor, anchored, key⟩
      · simp [key]
      · rw [key]
        intro same
        cases same
        exact absent ⟨r, anchor, live, rfl, anchored, rfl, .inl ⟨_, rfl⟩⟩
  | transferred live stays lanes counted leaves next built locked =>
    obtain ⟨cap, -, counts⟩ := consumeOutflow_counts leaves
    apply written_of_ne
    intro w mem
    simp only [mem_cons, mem_append, or_assoc, not_mem_nil, or_false] at mem
    rcases mem with mem | rfl | rfl | rfl | mem | rfl
    · obtain ⟨path, key⟩ := (buildTransfer_built built).keys w mem
      simp [key]
    · simp
    · simp
    · simp
    · simp [consumeLane_keys lanes w mem]
    · simp [counts.write]
  | @withdrawn r transfer unit lane outflow sequence feeRate desc anchor utxos remaining withdrawal
      supply live deposit lanes counted leaves next descriptor anchored =>
    obtain ⟨cap, -, counts⟩ := consumeOutflow_counts leaves
    apply written_of_ne
    intro w mem
    simp only [cons_append, nil_append, mem_cons, mem_append,
      not_mem_nil, or_false] at mem
    rcases mem with rfl | rfl | rfl | rfl | mem | rfl
    · simp
    · simp
    · simp
    · intro same
      cases same
      exact absent ⟨r, anchor, live, rfl, anchored, rfl, .inr ⟨_, rfl⟩⟩
    · simp [consumeLane_keys lanes w mem]
    · simp [counts.write]
  | redeemed live listed next released lanes leaves =>
    obtain ⟨cap, -, counts⟩ := consumeOutflow_counts leaves
    apply written_of_ne
    intro w mem
    simp only [cons_append, nil_append, mem_cons] at mem
    rcases mem with rfl | rfl | rfl | rfl | mem
    · simp
    · simp
    · simp
    · simp [counts.write]
    · simp [consumeAssetLane_keys lanes w mem]
  | ibc live adapter handled =>
    exact (Effect.ibc live adapter handled).unwritten (by simp [CallResult.kinds])
  | advanced valid advances =>
    exact (Effect.advanced valid advances).unwritten (by simp [CallResult.kinds])
  | _ => rfl

end
end Tenzro.Bridge
