import Tenzro.RouteFramework

set_option autoImplicit false

/-!
# What a call on the routes can do

One case for each kind of call that succeeds: what it checked, what it writes and what it
returns. Later modules reason from these cases and never unfold a call.
-/
namespace Tenzro.Bridge
open ByteCodec FixedWidth Outcome List

theorem liftRead_ok {α : Type} {x : Except String α} {a : α} {r r' : Reader} :
    liftRead x r = .ok (a, r') ↔ x = .ok a ∧ r = r' := by
  unfold liftRead
  cases x <;> simp [Except.map]

/-! ### Facts of a valid route -/

theorem colonFree_symbol {s : String} (h : isSymbol s = true) : ColonFree s := by
  simp only [isSymbol, Bool.and_eq_true] at h
  exact colonFree_of_all h.2 (by decide)

theorem colonFree_chain {s : String} (h : isChainName s = true) : ColonFree s := by
  simp only [isChainName, Bool.and_eq_true] at h
  exact colonFree_of_all h.2 (by decide)

theorem mem_of_asset {route : BridgeRoute} {asset : CarriedAsset} {symbol : String}
    (h : route.asset symbol = some asset) : asset ∈ route.assets :=
  mem_of_find?_eq_some h

section
variable [RouteCrypto]

/-- What the calls rely on in a route that passed its rules. -/
structure BridgeRoute.Ruled (r : BridgeRoute) : Prop where
  chain : ColonFree r.sourceChain
  symbols : ∀ a ∈ r.assets, ColonFree a.symbol
  distinct : (r.assets.map CarriedAsset.symbol).Nodup
  carries : r.assets ≠ [] → r.adapter = .ccip ∨ r.adapter = .contract
  family : r.family ∈ r.adapter.families
  bitcoin : r.family = .bitcoin → ∃ anchor, r.lightClient = some anchor ∧
    anchor.kind = .bitcoinHeaders ∧ anchor.validate r = true
  ibc : r.adapter = .ibc → ∃ ibc, r.ibc = some ibc ∧ ibc.validate r = true

theorem BridgeRoute.ruled_of_validate {r : BridgeRoute} (h : r.validate = true) : r.Ruled := by
  simp only [validate, validateAssets, Bool.and_eq_true, and_assoc] at h
  obtain ⟨chain, family, -, -, -, -, -, -, -, -, anchored, required, -, -, ibc, -, -, -, carries,
    assets, distinct, -, -, -⟩ := h
  constructor
  case chain => exact colonFree_chain chain
  case symbols =>
    intro a mem
    have valid := all_eq_true.1 assets a mem
    simp only [CarriedAsset.validate, Bool.and_eq_true, and_assoc] at valid
    exact colonFree_symbol valid.1
  case distinct =>
    have upper := of_decide_eq_true distinct
    exact Nodup.of_map toAsciiUpper (by simpa [map_map, Function.comp_def] using upper)
  case carries =>
    intro some
    simpa [some] using carries
  case family => exact of_decide_eq_true family
  case bitcoin =>
    intro bitcoin
    rw [bitcoin] at required
    cases found : r.lightClient with
    | none => simp [found, ChainFamily.requiredLightClient] at required
    | some anchor =>
      rw [found] at required anchored
      exact ⟨anchor, rfl, of_decide_eq_true required, anchored⟩
  case ibc =>
    intro adapter
    cases found : r.ibc with
    | none => simp [found, adapter] at ibc
    | some settings =>
      rw [found, adapter] at ibc
      exact ⟨settings, rfl, ibc⟩

/-- A governed route that passed its rules. -/
structure Live (v : RouteView) (r : BridgeRoute) : Prop where
  governed : v.route r.adapter r.sourceChain = some r
  valid : r.validate = true

theorem Live.ruled {v : RouteView} {r : BridgeRoute} (h : Live v r) : r.Ruled :=
  BridgeRoute.ruled_of_validate h.valid

section
variable {s : RouteState} {route : BridgeRoute}

theorem liveRoute_ok {adapter : BridgeRouteAdapter} {chain : String} {traffic : Traffic}
    (h : liveRoute s adapter chain traffic = .ok route) :
    Live s.view route ∧ route.adapter = adapter ∧ route.sourceChain = toAsciiLower chain := by
  unfold liveRoute at h
  cases found : s.view.route adapter (toAsciiLower chain) with
  | none => simp [found, refuse] at h
  | some r =>
    simp only [found, bind_ok, pure_ok, ensure_ok, exists_const] at h
    obtain ⟨⟨adapter, chain⟩, valid, -, rfl⟩ := h
    exact ⟨⟨by rwa [adapter, chain], valid⟩, adapter, chain⟩

theorem routeForChain_ok {chain : String} (h : routeForChain s chain = .ok route) :
    Live s.view route := by
  unfold routeForChain at h
  split at h
  · exact (liveRoute_ok h).1
  · simp [refuse] at h
  · simp [refuse] at h

theorem routeForAsset_ok {chain symbol : String} {asset : CarriedAsset}
    (h : routeForAsset s chain symbol = .ok (route, asset)) :
    Live s.view route ∧ asset ∈ route.assets := by
  unfold routeForAsset at h
  split at h
  · simp only [bind_ok] at h
    obtain ⟨r, live, h⟩ := h
    cases found : r.asset symbol with
    | none => simp [found, refuse] at h
    | some a =>
      simp only [found, bind_ok, pure_ok, ensure_ok, exists_const] at h
      obtain ⟨-, same⟩ := h
      cases same
      exact ⟨(liveRoute_ok live).1, mem_of_asset found⟩
  · simp [refuse] at h
  · simp [refuse] at h

theorem inboundAsset_mem [RouteEnv] {message : RouteMessage} {body : Bytes} {asset : CarriedAsset}
    (h : inboundAsset s route message body = .ok (some asset)) : asset ∈ route.assets := by
  unfold inboundAsset at h
  split_ifs at h with own
  · simp only [bind_ok, pure_ok] at h
    obtain ⟨-, -, none⟩ := h
    cases none
  · cases found : route.assetByPool message.tokenPool with
    | none => simp [found, refuse] at h
    | some a =>
      simp only [found, bind_ok] at h
      obtain ⟨-, -, -, -, -, -, hook, -, h⟩ := h
      have same : some a = some asset := by
        cases hook with
        | none => exact pure_ok.1 h
        | some hook =>
          obtain ⟨-, -, last⟩ := bind_ok.1 h
          exact pure_ok.1 last
      cases same
      exact mem_of_find?_eq_some found

end

/-! ### The cases -/

def BridgeRoute.supplyKey (r : BridgeRoute) : Option CarriedAsset → RouteKey
  | none => .supply r.routeName
  | some a => .assetSupply r.routeName a.symbol

def BridgeRoute.issues (r : BridgeRoute) (asset : Option CarriedAsset) : Prop :=
  asset.isSome ∨ r.adapter = .deposit

instance (r : BridgeRoute) (asset : Option CarriedAsset) : Decidable (r.issues asset) :=
  inferInstanceAs (Decidable (_ ∨ _))

section
variable [Json] [RouteEnv] [StoreProofs]

/-- What a call that succeeds checked, wrote and returned. -/
inductive Effect (s : RouteState) : List Write → CallResult → Prop where
  | admitted {route : BridgeRoute} {family : FamilyAdapter} {d : Delivery} {message : RouteMessage}
      {asset : Option CarriedAsset} {drawn : InboundDraw} {transport : List Write}
      (live : Live s.view route) (adapter : adapterOf route = .ok family)
      (decoded : decodeWith (family.decodeInbound route) d.body = .ok message)
      (carried : inboundAsset s route message d.body = .ok asset)
      (fresh : s.get (.nonce route.routeName message.sequence) = none)
      (draw : drawInbound s route asset message.amount = .ok drawn)
      (recorded : transportWrites s route message.sequence d.body = .ok transport) :
      Effect s
        ([(.nonce route.routeName message.sequence, [1]), drawn.usage.1,
          (drawn.supplyKey, drawn.supply.encode)] ++ drawn.lane ++ transport)
        (.admitted route ⟨message, drawn.usage.2, drawn.supply, asset⟩)
  | transferred {route : BridgeRoute} {family : FamilyAdapter} {transfer : OutboundTransfer}
      {unit : String} {lane : List Write} {outflow : Write} {sequence : ℕ} {message : RouteMessage}
      {bytes : Bytes} {commit : List Write} {supply : SupplyRecord}
      (live : Live s.view route) (stays : route.adapter ≠ .deposit)
      (lanes : consumeLane s route .outbound transfer.amount = .ok lane)
      (counted : exitUnit route none = .ok unit)
      (leaves : consumeOutflow s unit transfer.amount = .ok outflow)
      (next : nextSequence s (.sequence route.routeName) "outbound" = .ok sequence)
      (built : buildTransfer s route family sequence transfer = .ok (message, bytes, commit))
      (locked : (readSupply s route).lockAndMint transfer.amount route = .ok supply) :
      Effect s
        (commit ++ [(.sequence route.routeName, beBytes 8 sequence),
          (.supply route.routeName, supply.encode), (.outbound route.routeName sequence, bytes)] ++
          (lane ++ [outflow]))
        (.sent route ⟨message, bytes, supply, none⟩)
  | withdrawn {route : BridgeRoute} {transfer : OutboundTransfer} {unit : String}
      {lane : List Write} {outflow : Write} {sequence feeRate : ℕ} {desc : DepositDescriptor}
      {anchor : LightClientAnchor} {utxos remaining : List Utxo} {withdrawal : Withdrawal}
      {supply : SupplyRecord} (live : Live s.view route) (deposit : route.adapter = .deposit)
      (lanes : consumeLane s route .outbound transfer.amount = .ok lane)
      (counted : exitUnit route none = .ok unit)
      (leaves : consumeOutflow s unit transfer.amount = .ok outflow)
      (next : nextSequence s (.sequence route.routeName) "outbound" = .ok sequence)
      (descriptor : routeDescriptor route = .ok (desc, feeRate))
      (anchored : route.lightClient = some anchor) (fits : transfer.amount ≤ maxValue 64)
      (held : readUtxos s route = .ok utxos)
      (planned : planWithdrawal desc utxos transfer.recipient transfer.amount feeRate =
        .ok (withdrawal, remaining))
      (released : (readSupply s route).release transfer.amount route = .ok supply) :
      Effect s
        ([(.sequence route.routeName, beBytes 8 sequence),
          (.supply route.routeName, supply.encode),
          (.outbound route.routeName sequence, withdrawal.encode),
          (utxoSetKey route anchor, encodeUtxos remaining)] ++ (lane ++ [outflow]))
        (.sent route ⟨{ outboundDraft route sequence transfer route.localEndpoint route.remoteToken
          with messageId := withdrawal.txid }, withdrawal.encode, supply, none⟩)
  | redeemed {route : BridgeRoute} {asset : CarriedAsset} {transfer : OutboundTransfer}
      {lane : List Write} {outflow : Write} {sequence : ℕ} {messageId bytes : Bytes}
      {supply : SupplyRecord} (live : Live s.view route) (listed : asset ∈ route.assets)
      (next : nextSequence s (.sequence route.routeName) "outbound" = .ok sequence)
      (released : (readAssetSupply s route asset).release transfer.amount route = .ok supply)
      (lanes : consumeAssetLane s route asset .outbound transfer.amount = .ok lane)
      (leaves : consumeOutflow s asset.symbol transfer.amount = .ok outflow) :
      Effect s
        ([(.sequence route.routeName, beBytes 8 sequence),
          (.assetSupply route.routeName asset.symbol, supply.encode),
          (.outbound route.routeName sequence, bytes), outflow] ++ lane)
        (.sent route ⟨{ outboundDraft route sequence transfer asset.representationId
          asset.remoteToken with messageId := messageId }, bytes, supply, some asset⟩)
  | consumed {route : BridgeRoute} {d : Delivery} (live : Live s.view route)
      (fresh : s.get (.messageNonce route.routeName d.nonce) = none ∨
        s.get (.messageNonce route.routeName d.nonce) = some (publishedMessage d.body)) :
      Effect s [(.messageNonce route.routeName d.nonce, consumedMessage)] (.consumed route d)
  | published {route : BridgeRoute} {d : Delivery} (live : Live s.view route)
      (fresh : s.get (.messageNonce route.routeName d.nonce) = none) :
      Effect s [(.messageNonce route.routeName d.nonce, publishedMessage d.body)]
        (.published route d)
  | ibc {route : BridgeRoute} {msg : IbcMsg} {writes : List Write} {outcome : IbcOutcome}
      (live : Live s.view route) (adapter : route.adapter = .ibc)
      (handled : handle s route msg = .ok (writes, outcome)) :
      Effect s writes (.ibc route outcome)
  | queued {route : BridgeRoute} {sequence : ℕ} {id bytes : Bytes} (live : Live s.view route)
      (next : nextSequence s (.messageSequence route.routeName) "message" = .ok sequence) :
      Effect s [(.messageSequence route.routeName, beBytes 8 sequence),
        (.outboundMessage route.routeName sequence, bytes)] (.queued route ⟨sequence, id, bytes⟩)
  | advanced {route : BridgeRoute} {verifier : LightClientVerifier} {anchor : LightClientAnchor}
      {update : Bytes} {writes : List ClientWrite} (valid : route.validate = true)
      (advances : verifier.advance s route anchor update = .ok writes) :
      Effect s (writes.map fun w => (.lightClient route.routeName anchor.id w.1, w.2))
        (.advanced route)

section
variable {s : RouteState} {writes : List Write} {route : BridgeRoute}

theorem admitInbound_effect {adapter : BridgeRouteAdapter} {chain : String} {delivery : Bytes}
    {t : AdmittedTransfer} (h : admitInbound s adapter chain delivery = .ok (writes, route, t)) :
    Effect s writes (.admitted route t) := by
  simp only [admitInbound, bind_ok, pure_ok, ensure_ok, exists_const] at h
  obtain ⟨r, live, family, isAdapter, d, -, message, decoded, -, asset, carried, numbered, -, fresh,
    drawn, draw, transport, recorded, same⟩ := h
  cases same
  rw [← numbered] at fresh ⊢
  exact .admitted (liveRoute_ok live).1 isAdapter decoded carried fresh draw recorded

theorem withdraw_effect {sequence : ℕ} {transfer : OutboundTransfer} {unit : String}
    {lane : List Write} {outflow : Write} {out : OutboundMessage} {r : BridgeRoute}
    (live : Live s.view route) (deposit : route.adapter = .deposit)
    (lanes : consumeLane s route .outbound transfer.amount = .ok lane)
    (counted : exitUnit route none = .ok unit)
    (leaves : consumeOutflow s unit transfer.amount = .ok outflow)
    (next : nextSequence s (.sequence route.routeName) "outbound" = .ok sequence)
    (h : withdraw s route sequence transfer (lane ++ [outflow]) = .ok (writes, r, out)) :
    Effect s writes (.sent r out) := by
  simp only [withdraw, bind_ok] at h
  obtain ⟨⟨desc, feeRate⟩, descriptor, h⟩ := h
  cases anchored : route.lightClient with
  | none => simp [anchored, refuse] at h
  | some anchor =>
    simp only [anchored, bind_ok, pure_ok, ensure_ok, exists_const] at h
    obtain ⟨fits, utxos, held, ⟨withdrawal, remaining⟩, planned, supply, released, same⟩ := h
    cases same
    exact .withdrawn live deposit lanes counted leaves next descriptor anchored fits held planned
      released

theorem redeem_effect {chain symbol : String} {transfer : OutboundTransfer} {out : OutboundMessage}
    (h : redeem s chain symbol transfer = .ok (writes, route, out)) :
    Effect s writes (.sent route out) := by
  simp only [redeem, bind_ok, pure_ok] at h
  obtain ⟨-, -, ⟨r, asset⟩, found, -, -, sequence, next, messageId, -, bytes, -, supply, released,
    lane, lanes, unit, same, outflow, leaves, h⟩ := h
  cases h
  cases same
  obtain ⟨live, listed⟩ := routeForAsset_ok found
  exact .redeemed live listed next released lanes leaves

theorem sendOutbound_effect {chain : String} {transfer : OutboundTransfer} {out : OutboundMessage}
    (h : sendOutbound s chain transfer = .ok (writes, route, out)) :
    Effect s writes (.sent route out) := by
  unfold sendOutbound at h
  cases carried : transfer.asset with
  | some symbol =>
    rw [carried] at h
    exact redeem_effect h
  | none =>
    simp only [carried, bind_ok] at h
    obtain ⟨-, -, r, found, family, -, lane, lanes, unit, counted, outflow, leaves, sequence, next,
      h⟩ := h
    have live := routeForChain_ok found
    split_ifs at h with deposit
    · exact withdraw_effect live deposit lanes counted leaves next h
    · simp only [bind_ok, pure_ok] at h
      obtain ⟨⟨message, bytes, commit⟩, built, supply, locked, same⟩ := h
      cases same
      exact .transferred live deposit lanes counted leaves next built locked

theorem Call.effect {c : Call} {result : CallResult} (h : c.plan s = .ok (writes, result)) :
    Effect s writes result := by
  cases c with
  | admitInbound adapter chain delivery =>
    obtain ⟨⟨_, r, t⟩, planned, same⟩ := map_ok.1 h
    cases same
    exact admitInbound_effect planned
  | sendOutbound chain transfer =>
    obtain ⟨⟨_, r, out⟩, planned, same⟩ := map_ok.1 h
    cases same
    exact sendOutbound_effect planned
  | admitMessage adapter chain delivery =>
    obtain ⟨⟨_, r, d⟩, planned, same⟩ := map_ok.1 h
    cases same
    simp only [Bridge.admitMessage, bind_ok, pure_ok, ensure_ok, exists_const] at planned
    obtain ⟨r, live, d, -, fresh, same⟩ := planned
    cases same
    exact .consumed (liveRoute_ok live).1 fresh
  | publishMessage adapter chain delivery =>
    obtain ⟨⟨_, r, d⟩, planned, same⟩ := map_ok.1 h
    cases same
    simp only [Bridge.publishMessage, bind_ok, pure_ok, ensure_ok, exists_const] at planned
    obtain ⟨r, live, d, -, fresh, same⟩ := planned
    cases same
    exact .published (liveRoute_ok live).1 fresh
  | handleIbc chain msg =>
    obtain ⟨⟨_, r, outcome⟩, planned, same⟩ := map_ok.1 h
    cases same
    simp only [Bridge.handleIbc, bind_ok, pure_ok] at planned
    obtain ⟨r, live, ⟨writes, outcome⟩, handled, same⟩ := planned
    cases same
    obtain ⟨live, adapter, -⟩ := liveRoute_ok live
    exact .ibc live adapter handled
  | sendMessage chain body =>
    obtain ⟨⟨_, r, data⟩, planned, same⟩ := map_ok.1 h
    cases same
    simp only [Bridge.sendMessage, bind_ok, pure_ok, ensure_ok, exists_const] at planned
    obtain ⟨r, found, -, sequence, next, same⟩ := planned
    cases same
    exact .queued (routeForChain_ok found) next
  | advanceLightClient adapter chain update =>
    obtain ⟨⟨_, r⟩, planned, same⟩ := map_ok.1 h
    cases same
    unfold Bridge.advanceLightClient at planned
    cases found : s.view.route adapter (toAsciiLower chain) with
    | none => simp [found, refuse] at planned
    | some r =>
      simp only [found, bind_ok, pure_ok, ensure_ok, exists_const] at planned
      obtain ⟨valid, ⟨verifier, anchor⟩, -, writes, advances, same⟩ := planned
      cases same
      exact .advanced valid advances

end
end
end
end Tenzro.Bridge
