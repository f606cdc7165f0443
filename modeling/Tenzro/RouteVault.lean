import Tenzro.RouteSafety
import Tenzro.BitcoinPlan

set_option autoImplicit false
set_option linter.dupNamespace false

/-!
# The outputs a deposit route tracks

Over runs in which fewer than 2^32 outputs are tracked, they are worth what the supply
record holds locked, and everything stored for the route reads back.
-/
namespace Tenzro.Bridge
open ByteCodec FixedWidth Outcome List Option

/-! ### Deposits -/

section
variable [RouteCrypto] {route : BridgeRoute} {body : Bytes} {message : RouteMessage} {utxo : Utxo}

/-- A deposit pays the descriptor in one output, and mints what that output is worth under the
transaction's id and position. -/
theorem bitcoinDecodeInbound_ok
    (h : decodeWith (bitcoinDecodeInbound route) body = .ok message) :
    ∃ d tx output vout, decodeWith Deposit.read body = .ok d ∧ BitcoinTx.decode d.tx = .ok tx ∧
      depositOutputs route tx = [(output, vout)] ∧ message.amount = output.value ∧
      message.messageId = d.txid ∧ message.sequence = d.sequence := by
  obtain ⟨r, h, done⟩ := decodeWith_ok.1 h
  obtain ⟨desc, r₁, described, h⟩ := read_bind_ok.1 h
  obtain ⟨d, r₂, read, h⟩ := read_bind_ok.1 h
  obtain ⟨tx, r₃, lifted, h⟩ := read_bind_ok.1 h
  obtain ⟨-, rfl⟩ := liftRead_ok.1 described
  obtain ⟨decoded, rfl⟩ := liftRead_ok.1 lifted
  rcases payers : depositOutputs route tx with _ | ⟨⟨output, vout⟩, _ | ⟨second, more⟩⟩
  · simp only [payers] at h
    cases h
  · rcases markers : tx.outputs.filter (fun o => o.script.head? = some 0x6a) with
      _ | ⟨marker, _ | ⟨second, more⟩⟩
    · simp only [payers, markers] at h
      cases h
    · simp only [payers, markers] at h
      cases account : markerAccount marker.script with
      | none =>
        simp only [account] at h
        cases h
      | some a =>
        simp only [account] at h
        obtain ⟨⟨⟩, r₄, required, h⟩ := read_bind_ok.1 h
        obtain ⟨-, rfl⟩ := require_ok.1 required
        obtain ⟨rfl, rfl⟩ := read_pure_ok.1 h
        exact ⟨d, tx, output, vout, decodeWith_ok.2 ⟨_, read, done⟩, decoded, payers, rfl, rfl,
          rfl⟩
    · simp only [payers, markers] at h
      cases h
  · simp only [payers] at h
    cases h

theorem bitcoinDecodeInbound_encode {desc : DepositDescriptor × ℕ} {d : Deposit} {tx : BitcoinTx}
    {output marker : TxOut} {vout : ℕ} {account : Bytes} (described : routeDescriptor route = .ok desc)
    (fits : d.Fits) (decoded : BitcoinTx.decode d.tx = .ok tx)
    (payers : depositOutputs route tx = [(output, vout)])
    (markers : tx.outputs.filter (fun o => o.script.head? = some 0x6a) = [marker])
    (names : markerAccount marker.script = some account)
    (values : marker.value = 0 ∧ output.value ≠ 0) :
    decodeWith (bitcoinDecodeInbound route) d.encode =
      .ok { messageId := d.txid, sourceSelector := route.sourceChainId,
            destSelector := route.localSelector, sequence := d.sequence,
            sender := ((tx.inputs.head?).map TxIn.prevout).getD [], receiver := account,
            tokenPool := route.peer, token := route.localEndpoint, amount := output.value } := by
  refine Reads.decodeWith ?_
  refine Reads.seq (Reads.lift described) (nil_append _).symm ?_
  refine Reads.seq fits.reads (append_nil _).symm ?_
  refine Reads.seq (Reads.lift decoded) rfl ?_
  simp only [payers, markers, names]
  refine Reads.seq (Reads.require values _) rfl ?_
  exact Reads.pure _

theorem depositUtxo_encode {d : Deposit} {tx : BitcoinTx} {output : TxOut} {vout : ℕ}
    (fits : d.Fits) (decoded : BitcoinTx.decode d.tx = .ok tx)
    (payers : depositOutputs route tx = [(output, vout)]) :
    depositUtxo route d.encode = .ok ⟨d.txid, vout, output.value⟩ := by
  have first : tx.outputs.zipIdx.find? (fun o => sha256 o.1.script = route.peer) =
      some (output, vout) := by
    rw [← head?_filter]
    exact congrArg head? payers
  unfold depositUtxo
  rw [fits.reads.decodeWith]
  simp only [Bind.bind, Except.bind, decoded, first]
  rfl

theorem depositUtxo_ok (decoded : decodeWith (bitcoinDecodeInbound route) body = .ok message)
    (added : depositUtxo route body = .ok utxo) :
    utxo.value = message.amount ∧ utxo.txid = message.messageId ∧ utxo.Fits := by
  obtain ⟨d, tx, output, vout, read, decodedTx, payers, amount, named, -⟩ :=
    bitcoinDecodeInbound_ok decoded
  simp only [depositUtxo, read, decodedTx, bind_ok, Except.ok.injEq, exists_eq_left'] at added
  have first : tx.outputs.zipIdx.find? (fun o => sha256 o.1.script = route.peer) =
      some (output, vout) := by
    rw [← head?_filter]
    exact congrArg head? payers
  rw [first] at added
  cases pure_ok.1 added
  have mem : (output, vout) ∈ tx.outputs.zipIdx := mem_of_find?_eq_some first
  obtain ⟨few, values⟩ := BitcoinTx.decode_outputs decodedTx
  have index := mem_zipIdx_iff_getElem?.1 mem
  obtain ⟨inside, -⟩ := List.getElem?_eq_some_iff.1 index
  unfold maxTxLen at few
  refine ⟨amount.symm, named.symm, RouteCrypto.length_sha256 _, ?_, values _ (mem_of_getElem? index)⟩
  simp only at inside ⊢
  omega

end

theorem ensure_of {p : Prop} [Decidable p] (h : p) (msg : String) : ensure p msg = .ok () := if_pos h

theorem liveRoute_of [RouteCrypto] {s : RouteState} {chain : String} {traffic : Traffic}
    {route : BridgeRoute} (governed : s.view.route route.adapter (toAsciiLower chain) = some route)
    (named : route.sourceChain = toAsciiLower chain) (valid : route.validate = true)
    (passed : passes route traffic (s.view.stopped route) = true) :
    liveRoute s route.adapter chain traffic = .ok route := by
  simp only [liveRoute, governed]
  rw [ensure_of ⟨trivial, named⟩, ensure_of valid, ensure_of passed]
  rfl

section
variable [RouteCrypto] [Json] [RouteEnv] {s : RouteState} {route : BridgeRoute} {chain : String}
  {anchor : LightClientAnchor} {delivery : Bytes} {d : Delivery} {message : RouteMessage}
  {drawn : InboundDraw} {utxos : List Utxo} {utxo : Utxo}

theorem admitInbound_deposit (deposit : route.adapter = .deposit) (family : route.family = .bitcoin)
    (anchored : route.lightClient = some anchor)
    (live : liveRoute s .deposit chain .inbound = .ok route)
    (verified : verifiedDelivery s route delivery = .ok d)
    (decoded : decodeWith (bitcoinDecodeInbound route) d.body = .ok message)
    (selectors : message.sourceSelector = route.sourceChainId ∧
      message.destSelector = route.localSelector)
    (own : message.tokenPool = route.peer ∧ message.token = route.localEndpoint)
    (sequence : message.sequence = d.nonce) (positive : message.amount ≠ 0)
    (fresh : s.get (.nonce route.routeName d.nonce) = none)
    (draws : drawInbound s route none message.amount = .ok drawn)
    (held : readUtxos s route = .ok utxos) (added : depositUtxo route d.body = .ok utxo) :
    admitInbound s .deposit chain delivery =
      .ok ([(.nonce route.routeName d.nonce, [1]), drawn.usage.1,
          (drawn.supplyKey, drawn.supply.encode)] ++ drawn.lane ++
          [(utxoSetKey route anchor, encodeUtxos (utxos ++ [utxo]))],
        route, ⟨message, drawn.usage.2, drawn.supply, none⟩) := by
  have adapter : adapterOf route = .ok bitcoinAdapter := by simp [adapterOf, deposit, family]
  have asset : inboundAsset s route message d.body = .ok none := by
    rw [inboundAsset, if_pos own.1, ensure_of own.2]
    rfl
  have transport : transportWrites s route message.sequence d.body =
      .ok [(utxoSetKey route anchor, encodeUtxos (utxos ++ [utxo]))] := by
    simp only [transportWrites, deposit, anchored, held, added, reduceCtorEq, if_false]
    rfl
  simp only [admitInbound, live, adapter, verified, bitcoinAdapter, Bind.bind, Except.bind, decoded,
    asset, draws, transport]
  rw [ensure_of selectors, ensure_of sequence, ensure_of positive, ensure_of fresh]
  rfl

end

/-! ### What a call does to the tracked outputs -/

theorem supplyKey_ne {route r : BridgeRoute} {asset : Option CarriedAsset}
    (other : r.routeName ≠ route.routeName) : r.supplyKey asset ≠ .supply route.routeName := by
  cases asset <;> simp [BridgeRoute.supplyKey, other]

theorem readUtxos_set [RouteCrypto] {route : BridgeRoute} {anchor : LightClientAnchor} {s : RouteState}
    {utxos : List Utxo} (anchored : route.lightClient = some anchor)
    (h : s.get (utxoSetKey route anchor) = some (encodeUtxos utxos) ∨
      s.get (utxoSetKey route anchor) = none ∧ utxos = [])
    (fits : ∀ u ∈ utxos, u.Fits) (few : utxos.length < 2 ^ 32) : readUtxos s route = .ok utxos := by
  unfold readUtxos
  rw [anchored]
  rcases h with set | ⟨none, rfl⟩
  · simp only [set]
    exact decodeUtxos_encodeUtxos fits few
  · simp only [none]

/-- A governed deposit route, and the anchor its outputs are tracked under. -/
structure Vault [RouteCrypto] (g : RouteView) (route : BridgeRoute) (anchor : LightClientAnchor) :
    Prop where
  live : Live g route
  deposit : route.adapter = .deposit
  anchored : route.lightClient = some anchor
  /-- The signers' keys are 32 bytes. -/
  keys : ∀ height hash confirmations signers threshold feeRate,
    anchor = .bitcoinHeaders height hash confirmations signers threshold feeRate →
      ∀ k ∈ signers, k.length = 32

/-- The tracked outputs are worth what is locked, and what is stored reads back. -/
structure Tracked [RouteCrypto] (s : RouteState) (route : BridgeRoute)
    (anchor : LightClientAnchor) (utxos : List Utxo) : Prop where
  set : s.get (utxoSetKey route anchor) = some (encodeUtxos utxos) ∨
    s.get (utxoSetKey route anchor) = none ∧ utxos = []
  fits : ∀ u ∈ utxos, u.Fits
  few : utxos.length < 2 ^ 32
  worth : Balanced s (.supply route.routeName) (totalValue utxos)
  records : ∀ n bytes, s.get (.outbound route.routeName n) = some bytes →
    ∃ w : Withdrawal, w.Fits ∧ bytes = w.encode

section
variable [RouteCrypto] {route : BridgeRoute} {anchor : LightClientAnchor} {utxos : List Utxo}

theorem Tracked.readUtxos {s : RouteState} (h : Tracked s route anchor utxos)
    (anchored : route.lightClient = some anchor) : readUtxos s route = .ok utxos :=
  readUtxos_set anchored h.set h.fits h.few

/-- What holds of a deposit route's records. -/
structure VaultSound (s : RouteState) (route : BridgeRoute) (anchor : LightClientAnchor) :
    Prop where
  /-- The tracked outputs are worth what is locked, and as much is bridged. -/
  worth : ∃ utxos, readUtxos s route = .ok utxos ∧
    totalValue utxos = (readSupply s route).locked ∧
    (readSupply s route).locked = (readSupply s route).bridged
  /-- The stored set and the stored withdrawals read back as what was encoded. -/
  set : ∀ b, s.get (utxoSetKey route anchor) = some b →
    ∃ utxos, decodeUtxos b = .ok utxos ∧ encodeUtxos utxos = b
  records : ∀ n b, s.get (.outbound route.routeName n) = some b →
    ∃ w, Withdrawal.decode b = .ok w ∧ w.encode = b

theorem Tracked.sound {g : RouteView} {s : RouteState} (vault : Vault g route anchor)
    (h : Tracked s route anchor utxos) : VaultSound s route anchor := by
  obtain ⟨n, record, -, worth⟩ := h.worth
  have supply : readSupply s route = ⟨n, n⟩ := record
  constructor
  case worth =>
    refine ⟨utxos, h.readUtxos vault.anchored, ?_, ?_⟩
    · rw [supply]
      exact_mod_cast worth.symm
    · rw [supply]
  case set =>
    intro b stored
    rcases h.set with set | ⟨none, -⟩
    · rw [set] at stored
      cases stored
      exact ⟨utxos, decodeUtxos_encodeUtxos h.fits h.few, rfl⟩
    · rw [none] at stored
      cases stored
  case records =>
    intro n b stored
    obtain ⟨w, fits, rfl⟩ := h.records n b stored
    exact ⟨w, Withdrawal.decode_encode fits, rfl⟩

theorem Tracked.in_view {v w : RouteView} {kv : Kv} (h : Tracked ⟨v, kv⟩ route anchor utxos) :
    Tracked ⟨w, kv⟩ route anchor utxos :=
  ⟨h.set, h.fits, h.few, h.worth, h.records⟩

end

section
variable [RouteCrypto]

/-- A call leaves the tracked outputs alone, adds a deposit's, or takes a withdrawal's. -/
inductive VaultMove (s : RouteState) (writes : List Write) (route : BridgeRoute)
    (anchor : LightClientAnchor) (result : CallResult) : Prop where
  | still (noWrite : written writes (utxoSetKey route anchor) = none)
      (noChange : result.supplyChange (.supply route.routeName) = 0)
      (noRecord : ∀ n, written writes (.outbound route.routeName n) = none)
  | deposits (t : AdmittedTransfer) (utxos : List Utxo) (utxo : Utxo)
      (admitted : result = .admitted route t) (held : readUtxos s route = .ok utxos)
      (fits : utxo.Fits)
      (write : written writes (utxoSetKey route anchor) = some (encodeUtxos (utxos ++ [utxo])))
      (change : result.supplyChange (.supply route.routeName) = utxo.value)
      (noRecord : ∀ n, written writes (.outbound route.routeName n) = none)
  | withdraws (out : OutboundMessage) (transfer : OutboundTransfer) (utxos remaining : List Utxo)
      (withdrawal : Withdrawal) (desc : DepositDescriptor) (feeRate : ℕ)
      (sent : result = .sent route out) (amount : out.message.amount = transfer.amount)
      (recipient : out.message.receiver = transfer.recipient)
      (bytes : out.bytes = withdrawal.encode)
      (held : readUtxos s route = .ok utxos)
      (described : routeDescriptor route = .ok (desc, feeRate))
      (planned : planWithdrawal desc utxos transfer.recipient transfer.amount feeRate =
        .ok (withdrawal, remaining))
      (write : written writes (utxoSetKey route anchor) = some (encodeUtxos remaining))
      (change : result.supplyChange (.supply route.routeName) = -(transfer.amount : ℤ))
      (record : ∀ n, written writes (.outbound route.routeName n) =
        if out.message.sequence = n then some withdrawal.encode else none)

end

section
variable [RouteCrypto] {g : RouteView} {route : BridgeRoute} {anchor : LightClientAnchor}

theorem Vault.bitcoin (vault : Vault g route anchor) : route.family = .bitcoin := by
  have family := vault.live.ruled.family
  rw [vault.deposit] at family
  simpa [BridgeRouteAdapter.families] using family

theorem Vault.no_assets (vault : Vault g route anchor) : route.assets = [] := by
  by_contra some
  have carries := vault.live.ruled.carries some
  rw [vault.deposit] at carries
  simp at carries

theorem Vault.descriptor {desc : DepositDescriptor} {feeRate : ℕ} (vault : Vault g route anchor)
    (h : routeDescriptor route = .ok (desc, feeRate)) :
    (∀ k ∈ desc.signers, k.length = 32) ∧ desc.signers.length ≤ 32 ∧
      desc.threshold ≤ desc.signers.length := by
  obtain ⟨anchor', found, -, valid⟩ := vault.live.ruled.bitcoin vault.bitcoin
  rw [vault.anchored] at found
  cases found
  unfold routeDescriptor at h
  rw [vault.anchored] at h
  cases anchor with
  | bitcoinHeaders height hash confirmations signers threshold rate =>
    simp only [bind_ok, pure_ok] at h
    obtain ⟨script, -, ⟨⟩, -, same⟩ := h
    cases same
    simp only [LightClientAnchor.validate, Bool.and_eq_true, decide_eq_true_eq] at valid
    have keys := vault.keys _ _ _ _ _ _ rfl
    exact ⟨keys, by tauto, by tauto⟩
  | _ => cases h

theorem Vault.adapterOf [Json] [RouteEnv] {family : FamilyAdapter}
    (vault : Vault g route anchor) (h : adapterOf route = .ok family) : family = bitcoinAdapter := by
  unfold Bridge.adapterOf at h
  rw [vault.deposit, vault.bitcoin] at h
  cases h
  rfl

end

section
variable [RouteCrypto] [Json] [RouteEnv] [StoreProofs] {g : RouteView} {past : List Event} {kv : Kv}
  {v : RouteView} {writes : List Write} {result : CallResult} {route : BridgeRoute}
  {anchor : LightClientAnchor}

theorem Effect.vault_adds {s : RouteState} {t : AdmittedTransfer}
    (e : Effect s writes (.admitted route t)) (vault : Vault g route anchor) :
    t.asset = none ∧ ∃ utxos utxo, readUtxos s route = .ok utxos ∧ utxo.Fits ∧
      utxo.value = t.message.amount ∧ utxo.txid = t.message.messageId ∧
      written writes (utxoSetKey route anchor) = some (encodeUtxos (utxos ++ [utxo])) := by
  have admits := e.admits
  cases e with
  | @admitted _ family d message asset drawn transport live adapter decoded _ _ draw recorded =>
    obtain rfl := vault.adapterOf adapter
    have none : asset = none := by
      cases asset with
      | none => rfl
      | some a =>
        have mem := admits.listed a rfl
        rw [vault.no_assets] at mem
        cases mem
    subst none
    obtain ⟨⟨cap, -, counts⟩, lane, supplyKey, -, -⟩ := drawInbound_draws draw
    have notIbc : route.adapter ≠ .ibc := by simp [vault.deposit]
    simp only [transportWrites, bind_ok] at recorded
    obtain ⟨ibc, noIbc, recorded⟩ := recorded
    rw [if_neg notIbc] at noIbc
    cases noIbc
    simp only [vault.deposit, vault.anchored, bind_ok, pure_ok, nil_append] at recorded
    obtain ⟨utxos, held, utxo, added, rfl⟩ := recorded
    obtain ⟨value, named, fits⟩ := depositUtxo_ok decoded added
    refine ⟨rfl, utxos, utxo, held, fits, value, named, ?_⟩
    simp [counts.write, supplyKey, BridgeRoute.mintKey, BridgeRoute.supplyKey, utxoSetKey]

theorem Effect.vault_admitted {t : AdmittedTransfer} (e : Effect ⟨v, kv⟩ writes (.admitted route t))
    (vault : Vault g route anchor) :
    VaultMove ⟨v, kv⟩ writes route anchor (.admitted route t) := by
  have noRecord (n : ℕ) : written writes (.outbound route.routeName n) = none :=
    e.unwritten (by simp [RouteKey.kind, CallResult.kinds])
  obtain ⟨own, utxos, utxo, held, fits, value, -, write⟩ := e.vault_adds vault
  refine .deposits _ utxos utxo rfl held fits write ?_ noRecord
  simp [CallResult.supplyChange, own, BridgeRoute.supplyKey, BridgeRoute.issues, vault.deposit, value]

theorem Effect.vault_sent {out : OutboundMessage} (e : Effect ⟨v, kv⟩ writes (.sent route out))
    (vault : Vault g route anchor) :
    VaultMove ⟨v, kv⟩ writes route anchor (.sent route out) := by
  have sends := e.sends
  have kind (n : ℕ) : (RouteKey.outbound route.routeName n).kind = .outbound := rfl
  have record (n : ℕ) : written writes (.outbound route.routeName n) =
      if out.message.sequence = n then some out.bytes else none := by
    rw [← written_ofKind, kind, sends.outbound]
    simp
  cases e with
  | transferred live stays => exact absurd vault.deposit stays
  | redeemed live listed =>
    rw [vault.no_assets] at listed
    cases listed
  | @withdrawn _ transfer unit lane outflow sequence feeRate desc anchor' utxos remaining withdrawal
      supply live deposit lanes counted leaves next descriptor anchored fits held planned released =>
    rw [vault.anchored] at anchored
    cases anchored
    obtain ⟨cap, -, counts⟩ := consumeOutflow_counts leaves
    have lane : written lane (.utxos route.routeName anchor.id) = none := by
      apply written_of_ne
      intro w mem
      simp [consumeLane_keys lanes w mem]
    refine .withdraws _ transfer utxos remaining withdrawal desc feeRate rfl rfl rfl rfl held
      descriptor planned ?_ ?_ record
    · simp [lane, counts.write, utxoSetKey]
    · simp [CallResult.supplyChange, BridgeRoute.supplyKey, BridgeRoute.issues, vault.deposit,
        outboundDraft]

theorem Effect.elsewhere {r : BridgeRoute} (e : Effect ⟨v, kv⟩ writes result)
    (other : r.routeName ≠ route.routeName)
    (transfer : (∃ t, result = .admitted r t) ∨ ∃ out, result = .sent r out) :
    VaultMove ⟨v, kv⟩ writes route anchor result := by
  have kind (n : ℕ) : (RouteKey.outbound route.routeName n).kind = .outbound := rfl
  have noWrite : written writes (utxoSetKey route anchor) = none := by
    by_contra wrote
    obtain ⟨r', -, -, name, -, -, by_⟩ := e.tracks wrote
    rcases transfer with ⟨t, rfl⟩ | ⟨out, rfl⟩ <;> rcases by_ with ⟨_, same⟩ | ⟨_, same⟩ <;>
      cases same <;> exact other name
  rcases transfer with ⟨t, rfl⟩ | ⟨out, rfl⟩
  · exact .still noWrite (by simp [CallResult.supplyChange, supplyKey_ne other])
      fun n => e.unwritten (by simp [kind, CallResult.kinds])
  · refine .still noWrite (by simp [CallResult.supplyChange, supplyKey_ne other]) fun n => ?_
    rw [← written_ofKind, kind, e.sends.outbound]
    simp [other]

theorem Effect.vault (e : Effect ⟨v, kv⟩ writes result) (next : Continues g past v)
    (vault : Vault g route anchor) : VaultMove ⟨v, kv⟩ writes route anchor result := by
  have kind (n : ℕ) : (RouteKey.outbound route.routeName n).kind = .outbound := rfl
  have setKind : (utxoSetKey route anchor).kind = .utxos := rfl
  cases result with
  | admitted r t =>
    by_cases same : r.routeName = route.routeName
    · obtain rfl := (e.admits.live.of_continues next).unique vault.live same
      exact e.vault_admitted vault
    · exact e.elsewhere same (.inl ⟨t, rfl⟩)
  | sent r out =>
    by_cases same : r.routeName = route.routeName
    · obtain rfl := (e.sends.live.of_continues next).unique vault.live same
      exact e.vault_sent vault
    · exact e.elsewhere same (.inr ⟨out, rfl⟩)
  | ibc r outcome =>
    have other : r.routeName ≠ route.routeName := by
      intro same
      cases e with
      | ibc live adapter handled =>
        have adapters := congrArg RouteName.adapter same
        simp [BridgeRoute.routeName, adapter, vault.deposit] at adapters
    exact .still (e.unwritten (by simp [setKind, CallResult.kinds]))
      (by simp [CallResult.supplyChange, supplyKey_ne other])
      fun n => e.unwritten (by simp [kind, CallResult.kinds])
  | _ =>
    exact .still (e.unwritten (by simp [setKind, CallResult.kinds])) rfl
      fun n => e.unwritten (by simp [kind, CallResult.kinds])

/-! ### Runs -/

theorem Tracked.step {utxos : List Utxo} (h : Tracked ⟨v, kv⟩ route anchor utxos)
    (vault : Vault g route anchor) (e : Effect ⟨v, kv⟩ writes result) (next : Continues g past v)
    (room : ∀ t, result = .admitted route t → utxos.length + 1 < 2 ^ 32) :
    ∃ after, Tracked (RouteState.put ⟨v, kv⟩ writes) route anchor after := by
  have clean : ColonFree route.sourceChain := vault.live.ruled.chain
  have now := h.readUtxos vault.anchored
  have set : RouteState.get (RouteState.put ⟨v, kv⟩ writes) (utxoSetKey route anchor) = _ :=
    RouteState.put_get clean e.clean
  have record (n : ℕ) : RouteState.get (RouteState.put ⟨v, kv⟩ writes)
      (.outbound route.routeName n) = _ := RouteState.put_get clean e.clean
  have worth := (e.supply (.supply route.routeName) rfl).balanced clean e.clean h.worth
  cases e.vault next vault with
  | still noWrite noChange noRecord =>
    rw [noChange, add_zero] at worth
    refine ⟨utxos, ?_, h.fits, h.few, worth, fun n bytes stored => ?_⟩
    · rw [set, noWrite, none_or]
      exact h.set
    · rw [record, noRecord, none_or] at stored
      exact h.records n bytes stored
  | deposits t utxos' utxo admitted held fits write change noRecord =>
    obtain rfl : utxos = utxos' := Except.ok.inj (now.symm.trans held)
    refine ⟨utxos ++ [utxo], .inl ?_, ?_, ?_, ?_, fun n bytes stored => ?_⟩
    · rw [set, write, some_or]
    · simp only [mem_append, mem_singleton]
      rintro u (mem | rfl)
      · exact h.fits u mem
      · exact fits
    · rw [length_append, length_singleton]
      exact room t admitted
    · rw [change] at worth
      simpa [totalValue] using worth
    · rw [record, noRecord, none_or] at stored
      exact h.records n bytes stored
  | withdraws out transfer utxos' remaining withdrawal desc feeRate sent amount recipient bytes held
      described planned write change record' =>
    obtain rfl : utxos = utxos' := Except.ok.inj (now.symm.trans held)
    obtain ⟨depositScript, taken, fee, pay, left, plan⟩ := planWithdrawal_ok planned
    have value := plan.remaining_value
    refine ⟨remaining, .inl ?_, plan.remaining_fits h.fits,
      plan.remaining_length.trans_lt h.few, ?_, fun n stored found => ?_⟩
    · rw [set, write, some_or]
    · rw [change, ← value] at worth
      simpa using worth
    · rw [record, record'] at found
      split_ifs at found with here
      · cases found
        exact ⟨withdrawal, plan.withdrawal_fits h.fits, rfl⟩
      · exact h.records n stored found

/-- The runs in which a deposit is admitted only while fewer than 2^32 - 1 outputs are tracked. -/
inductive RoomyRun (g : RouteView) (route : BridgeRoute) : List Event → Kv → Prop where
  | start : RoomyRun g route [] fun _ => none
  | step {past : List Event} {kv : Kv} {v : RouteView} (c : Call) (run : RoomyRun g route past kv)
      (next : Continues g past v)
      (room : ∀ t, (c.perform v kv).1 = .ok (.admitted route t) →
        ∀ utxos, readUtxos ⟨g, kv⟩ route = .ok utxos → utxos.length + 1 < 2 ^ 32) :
      RoomyRun g route (past ++ [⟨v, c, (c.perform v kv).1⟩]) (c.perform v kv).2

theorem RoomyRun.tracked (vault : Vault g route anchor) (run : RoomyRun g route past kv) :
    ∃ utxos, Tracked ⟨g, kv⟩ route anchor utxos := by
  induction run with
  | start =>
    exact ⟨[], .inr ⟨rfl, rfl⟩, by simp, by simp, ⟨0, rfl, by simp, rfl⟩, fun n bytes h => nomatch h⟩
  | @step past kv v c run next room ih =>
    obtain ⟨utxos, tracked⟩ := ih
    have performed := c.performed v kv
    have now := tracked.readUtxos vault.anchored
    generalize (c.perform v kv).1 = result at performed room ⊢
    generalize (c.perform v kv).2 = kv' at performed ⊢
    cases performed with
    | failed e => exact ⟨utxos, tracked⟩
    | done effect =>
      obtain ⟨after, h⟩ := (tracked.in_view (w := v)).step vault effect next
        fun t same => room t (congrArg Except.ok same) utxos now
      exact ⟨after, h.in_view⟩

/-- The sizes computed for a withdrawal stay within their integers. -/
structure SizesFit (desc : DepositDescriptor) (withdrawal : Withdrawal) (taken : ℕ) : Prop where
  tx : withdrawal.tx.encode.length ≤ maxTxLen
  unsigned : desc.threshold ≤ desc.signers.length
  weight : withdrawal.tx.encode.length * 4 + 2 + taken * desc.witnessLen ≤ maxValue 64

def Withdraws (before after : RouteState) (route : BridgeRoute) (out : OutboundMessage) : Prop :=
  ∃ utxos remaining withdrawal desc feeRate depositScript taken fee pay change,
    readUtxos before route = .ok utxos ∧ readUtxos after route = .ok remaining ∧
      routeDescriptor route = .ok (desc, feeRate) ∧
      Plan desc utxos out.message.receiver out.message.amount feeRate withdrawal remaining
        depositScript taken fee pay change ∧
      SizesFit desc withdrawal taken ∧
      out.bytes = withdrawal.encode ∧ Withdrawal.decode out.bytes = .ok withdrawal

theorem Tracked.withdraws {utxos : List Utxo} {out : OutboundMessage}
    (h : Tracked ⟨v, kv⟩ route anchor utxos) (vault : Vault g route anchor)
    (e : Effect ⟨v, kv⟩ writes (.sent route out)) :
    Withdraws ⟨v, kv⟩ (RouteState.put ⟨v, kv⟩ writes) route out := by
  have clean : ColonFree route.sourceChain := vault.live.ruled.chain
  have now := h.readUtxos vault.anchored
  have set : RouteState.get (RouteState.put ⟨v, kv⟩ writes) (utxoSetKey route anchor) = _ :=
    RouteState.put_get clean e.clean
  cases e.vault_sent vault with
  | still noWrite noChange noRecord =>
    have kind : (RouteKey.outbound route.routeName out.message.sequence).kind = .outbound := rfl
    have sent := noRecord out.message.sequence
    rw [← written_ofKind, kind, e.sends.outbound] at sent
    simp at sent
  | deposits t utxos' utxo admitted => cases admitted
  | withdraws out' transfer utxos' remaining withdrawal desc feeRate sent amount recipient bytes held
      described planned write change record =>
    cases sent
    obtain rfl : utxos = utxos' := Except.ok.inj (now.symm.trans held)
    obtain ⟨depositScript, taken, fee, pay, left, plan⟩ := planWithdrawal_ok planned
    rw [← recipient, ← amount] at plan
    have fits := plan.withdrawal_fits h.fits
    obtain ⟨keys, few, unsigned⟩ := vault.descriptor described
    have witness := desc.witnessLen_le keys few unsigned
    have short := plan.length_tx h.fits
    have taken_le := plan.few
    have spent : taken * desc.witnessLen ≤ 64 * 4000 := Nat.mul_le_mul taken_le witness
    have weight : withdrawal.tx.encode.length * 4 + 2 + taken * desc.witnessLen ≤ maxValue 64 := by
      unfold maxValue
      omega
    rw [write, some_or] at set
    refine ⟨utxos, remaining, withdrawal, desc, feeRate, depositScript, taken, fee, pay, left, now,
      ?_, described, plan, ⟨fits.short, unsigned, weight⟩, bytes, ?_⟩
    · exact readUtxos_set vault.anchored (.inl set) (plan.remaining_fits h.fits)
        (plan.remaining_length.trans_lt h.few)
    · rw [bytes]
      exact Withdrawal.decode_encode fits

/-- Over every run in which a deposit is admitted only while fewer than 2^32 - 1 outputs are
tracked, a deposit route holds exactly what it records. -/
theorem vault_sound (vault : Vault g route anchor) (run : RoomyRun g route past kv) :
    VaultSound ⟨g, kv⟩ route anchor ∧
      ∀ v, Continues g past v → ∀ call out, (Call.perform v kv call).1 = .ok (.sent route out) →
        Withdraws ⟨g, kv⟩ ⟨g, (call.perform v kv).2⟩ route out := by
  obtain ⟨utxos, tracked⟩ := run.tracked vault
  refine ⟨tracked.sound vault, fun v _ call out sent => ?_⟩
  have performed := call.performed v kv
  rw [sent] at performed
  generalize (call.perform v kv).2 = kv' at performed ⊢
  cases performed with
  | done effect => exact (tracked.in_view (w := v)).withdraws vault effect

end

/-! ### More deposits than the count tells -/

namespace ManyDeposits

open AssetMint (id32 digest length_digest length_id32 committee json proofs)

@[reducible] def crypto : RouteCrypto where
  sha256 := digest
  length_sha256 := length_digest
  keccak256 := digest
  length_keccak256 := length_digest
  outputKey _ _ := .ok (id32 77, false)
  length_outputKey := length_id32

attribute [local instance] crypto json proofs

/-- Every proof holds and every committee signed. -/
@[reducible] def env : RouteEnv where
  attestationDigest _ _ := []
  verifyCommittee _ _ _ _ := .ok ()
  checkExecution _ _ _ := .ok ()
  otherAdapter _ _ := none
  lightClient _ := some
    { verify _ _ _ _ _ := .ok ()
      advance _ _ _ _ := .error "no update"
      suffixes := by simp }
  issuerHook _ := none

attribute [local instance] env

def anchor : LightClientAnchor := .bitcoinHeaders 0 (id32 5) 6 [id32 1] 1 1

def script : Bytes := 0x51 :: 0x20 :: id32 77

def route : BridgeRoute where
  adapter := .deposit
  family := .bitcoin
  sourceChain := "bitcoin"
  sourceChainId := 8
  localSelector := 7
  peer := digest script
  ramp := id32 2
  localEndpoint := id32 3
  remoteToken := id32 4
  verifiers := committee 1
  blessing := none
  lightClient := some anchor
  mintLimit := ⟨2 ^ 40, 2 ^ 40⟩
  outflow := ⟨100, 1⟩
  laneLimits := none
  ibc := none
  settlementLock := none
  assets := []
  nativeAsset := none

def g : RouteView where
  localChainId := 7
  nowMs := 1000
  epoch := 1
  route adapter chain := if adapter = .deposit ∧ chain = "bitcoin" then some route else none
  stopped _ := none
  networkLimit _ := some ⟨2 ^ 40, 2 ^ 40⟩
  outflowLimits := none

/-- Pays one satoshi to the descriptor. -/
def tx (k : ℕ) : BitcoinTx where
  version := 2
  inputs := [⟨beBytes 36 k, [], 0xffffffff⟩]
  outputs := [⟨1, script⟩, ⟨0, 0x6a :: 36 :: (utf8 "TNZO" ++ id32 10)⟩]
  lockTime := k

def deposit (k : ℕ) : Deposit := ⟨k / 2 ^ 20, k % 2 ^ 20, (tx k).encode⟩

def delivery (k : ℕ) : Delivery := ⟨7, k, 2000, (deposit k).encode, [], [], [], [], []⟩

def envelope (k : ℕ) : Bytes :=
  beBytes 8 7 ++ (beBytes 8 k ++ (beBytes 8 2000 ++ (writeBeBytes (deposit k).encode ++
    (writeBeBytes [] ++ [0, 0, 0, 0]))))

def call (k : ℕ) : Call := .admitInbound .deposit "bitcoin" (envelope k)

theorem evaluated : (route.validate = true ∧ toAsciiLower "bitcoin" = "bitcoin") ∧
    ((tx 0).outputs.flatMap TxOut.encode).length = 90 ∧
    (∀ o ∈ (tx 0).outputs, o.script.length ≤ maxTxLen) ∧
    depositOutputs route (tx 0) = [(⟨1, script⟩, 0)] ∧
    (tx 0).outputs.filter (fun o => o.script.head? = some 0x6a) =
      [⟨0, 0x6a :: 36 :: (utf8 "TNZO" ++ id32 10)⟩] ∧
    markerAccount (0x6a :: 36 :: (utf8 "TNZO" ++ id32 10)) = some (id32 10) := by
  decide +kernel

theorem valid : route.validate = true := evaluated.1.1

theorem vault : Vault g route anchor where
  live := ⟨rfl, valid⟩
  deposit := rfl
  anchored := rfl
  keys := by
    rintro height hash confirmations signers threshold feeRate ⟨⟩ k mem
    obtain rfl := mem_singleton.1 mem
    exact length_beBytes ..

theorem liveRoute_eq (kv : Kv) : liveRoute ⟨g, kv⟩ .deposit "bitcoin" .inbound = .ok route := by
  have lower : toAsciiLower "bitcoin" = "bitcoin" := evaluated.1.2
  have governed : g.route route.adapter (toAsciiLower "bitcoin") = some route := by
    rw [lower]
    rfl
  change liveRoute ⟨g, kv⟩ route.adapter "bitcoin" .inbound = .ok route
  exact liveRoute_of governed lower.symm valid rfl

theorem tx_fits {k : ℕ} (small : k < 2 ^ 32) : (tx k).Fits where
  version := by norm_num [tx]
  inputs i mem := by
    obtain rfl := mem_singleton.1 mem
    exact ⟨length_beBytes .., Nat.zero_le _, by norm_num⟩
  some_input := by simp [tx]
  few_inputs := by norm_num [tx, maxTxLen]
  outputs o mem := by
    refine ⟨?_, evaluated.2.2.1 o mem⟩
    rcases mem_cons.1 mem with rfl | mem
    · norm_num
    · obtain rfl := mem_singleton.1 mem
      norm_num
  few_outputs := by norm_num [tx, maxTxLen]
  lockTime := small

theorem length_tx (k : ℕ) : (tx k).encode.length = 141 := by
  have same : (tx k).outputs = (tx 0).outputs := rfl
  have outputs : ((tx 0).outputs.flatMap TxOut.encode).length = 90 := evaluated.2.1
  rw [BitcoinTx.encode, same]
  simp only [length_append, length_leBytes, outputs]
  simp [tx, TxIn.encode, compactSize]

theorem deposit_fits {k : ℕ} (small : k < 2 ^ 32) : (deposit k).Fits where
  height := by
    simp only [deposit]
    omega
  index := Nat.mod_lt _ (by norm_num)
  short := by
    rw [deposit, length_tx]
    norm_num [maxTxLen]
  not64 := by
    rw [deposit, length_tx]
    norm_num

theorem length_deposit (k : ℕ) : (deposit k).encode.length = 157 := by
  simp only [Deposit.encode, length_append, length_beBytes, writeBeBytes]
  rw [deposit, length_tx]

theorem reads_delivery {k : ℕ} (small : k < 2 ^ 32) :
    Reads Delivery.read (envelope k) (delivery k) := by
  have none (width : ℕ) : Reads (Delivery.readSignatures width) [0] [] :=
    Reads.seq (Reads.readBe (w := 1) (n := 0) (by norm_num)) rfl (Reads.pure [])
  have size := length_deposit k
  refine Reads.seq (Reads.readBe (by norm_num)) rfl ?_
  refine Reads.seq (Reads.readBe (by omega)) rfl ?_
  refine Reads.seq (Reads.readBe (by norm_num)) rfl ?_
  refine Reads.seq (Reads.require (by norm_num) _) (nil_append _).symm ?_
  refine Reads.seq (Reads.readBeBytes (by omega) (by omega)) rfl ?_
  refine Reads.seq (Reads.readBeBytes (by norm_num) (by norm_num)) rfl ?_
  refine Reads.seq (none 65) rfl ?_
  refine Reads.seq (none 3309) rfl ?_
  refine Reads.seq (none 65) rfl ?_
  refine Reads.seq (none 3309) rfl ?_
  exact Reads.pure _

theorem verifiedDelivery_eq {k : ℕ} (kv : Kv) (small : k < 2 ^ 32) :
    verifiedDelivery ⟨g, kv⟩ route (envelope k) = .ok (delivery k) := by
  unfold verifiedDelivery
  rw [Delivery.decode, (reads_delivery small).decodeWith]
  rfl

def utxo (k : ℕ) : Utxo := ⟨(deposit k).txid, 0, 1⟩

theorem utxo_fits (k : ℕ) : (utxo k).Fits :=
  ⟨RouteCrypto.length_sha256 _, by norm_num [utxo], by norm_num [utxo]⟩

theorem payers (k : ℕ) : depositOutputs route (tx k) = [(⟨1, script⟩, 0)] := by
  have outputs : (tx k).outputs = (tx 0).outputs := rfl
  rw [depositOutputs, outputs]
  exact evaluated.2.2.2.1

theorem depositUtxo_eq {k : ℕ} (small : k < 2 ^ 32) :
    depositUtxo route (deposit k).encode = .ok (utxo k) :=
  depositUtxo_encode (deposit_fits small) (BitcoinTx.decode_encode (tx_fits small)) (payers k)

def message (k : ℕ) : RouteMessage where
  messageId := (deposit k).txid
  sourceSelector := 8
  destSelector := 7
  sequence := (deposit k).sequence
  sender := beBytes 36 k
  receiver := id32 10
  tokenPool := digest script
  token := id32 3
  amount := 1

theorem decode_eq {k : ℕ} (small : k < 2 ^ 32) :
    decodeWith (bitcoinDecodeInbound route) (deposit k).encode = .ok (message k) := by
  have described : ∃ desc, routeDescriptor route = .ok desc := ⟨_, rfl⟩
  obtain ⟨desc, described⟩ := described
  have outputs : (tx k).outputs = (tx 0).outputs := rfl
  obtain ⟨marked, names⟩ := evaluated.2.2.2.2
  rw [← outputs] at marked
  exact bitcoinDecodeInbound_encode described (deposit_fits small)
    (BitcoinTx.decode_encode (tx_fits small)) (payers k) marked names (by simp)

/-- What `k` deposits left. -/
structure Holds (k : ℕ) (kv : Kv) (utxos : List Utxo) : Prop where
  set : RouteState.get ⟨g, kv⟩ (utxoSetKey route anchor) = some (encodeUtxos utxos) ∨
    RouteState.get ⟨g, kv⟩ (utxoSetKey route anchor) = none ∧ utxos = []
  count : utxos.length = k
  fits : ∀ u ∈ utxos, u.Fits
  fresh : ∀ n, k ≤ n → RouteState.get ⟨g, kv⟩ (.nonce route.routeName n) = none
  supply : readSupply ⟨g, kv⟩ route = ⟨k, k⟩
  minted : RouteState.mintedAt ⟨g, kv⟩ (.mintEpoch route.routeName) 1 = k

def drawn (k : ℕ) : InboundDraw where
  usage := ((.mintEpoch route.routeName, epochRecord 1 (k + 1)),
    ⟨k + 1, 2 ^ 40 - (k + 1), ⟨2 ^ 40, 2 ^ 40⟩⟩)
  lane := []
  supplyKey := .supply route.routeName
  supply := ⟨k + 1, k + 1⟩

def writes (k : ℕ) (utxos : List Utxo) : List Write :=
  [(.nonce route.routeName k, [1]), (.mintEpoch route.routeName, epochRecord 1 (k + 1)),
    (.supply route.routeName, (⟨k + 1, k + 1⟩ : SupplyRecord).encode),
    (utxoSetKey route anchor, encodeUtxos (utxos ++ [utxo k]))]

theorem Holds.draws {k : ℕ} {kv : Kv} {utxos : List Utxo} (h : Holds k kv utxos)
    (small : k < 2 ^ 32) : drawInbound ⟨g, kv⟩ route none 1 = .ok (drawn k) := by
  have counted : consumeEpoch ⟨g, kv⟩ route ⟨2 ^ 40, 2 ^ 40⟩ 1 = .ok (drawn k).usage := by
    have minted := h.minted
    have admitted : mintAdmitted k 1 ⟨2 ^ 40, 2 ^ 40⟩ = some (k + 1) := by
      rw [mintAdmitted, if_neg (by norm_num), withinEpochCap, if_pos]
      simp only [maxValue]
      omega
    have tightest : route.mintLimit.tightest ⟨2 ^ 40, 2 ^ 40⟩ = ⟨2 ^ 40, 2 ^ 40⟩ := rfl
    have epoch : (RouteState.view ⟨g, kv⟩).epoch = 1 := rfl
    rw [consumeEpoch, consumeAt, tightest, if_neg (by norm_num), epoch, minted]
    simp only [admitted]
    rfl
  have locked : (readSupply ⟨g, kv⟩ route).lockAndMint 1 route = .ok ⟨k + 1, k + 1⟩ := by
    rw [h.supply, SupplyRecord.lockAndMint, SupplyRecord.afterLock, if_pos]
    simp only [maxValue]
    omega
  have lane : consumeLane ⟨g, kv⟩ route .inbound 1 = .ok [] := rfl
  have deposit : route.adapter = .deposit := rfl
  have limit : g.networkLimit route = some ⟨2 ^ 40, 2 ^ 40⟩ := rfl
  simp only [drawInbound, limit, Bind.bind, Except.bind, counted, lane, deposit, if_true, locked]
  rfl

theorem Holds.plan {k : ℕ} {kv : Kv} {utxos : List Utxo} (h : Holds k kv utxos)
    (small : k < 2 ^ 32) :
    (call k).plan ⟨g, kv⟩ =
      .ok (writes k utxos, .admitted route ⟨message k, (drawn k).usage.2, (drawn k).supply, none⟩) := by
  have sequence : (message k).sequence = k := Nat.div_add_mod' k (2 ^ 20)
  have admitted := admitInbound_deposit rfl rfl rfl (liveRoute_eq kv)
    (verifiedDelivery_eq kv small) (decode_eq small) ⟨rfl, rfl⟩ ⟨rfl, rfl⟩ sequence (by norm_num [message])
    (h.fresh k (le_refl k)) (h.draws small)
    (readUtxos_set rfl h.set h.fits (by rw [h.count]; exact small)) (depositUtxo_eq small)
  rw [call, Call.plan, admitted]
  rfl

theorem writes_clean (k : ℕ) (utxos : List Utxo) : ∀ w ∈ writes k utxos, w.1.Clean := by
  have clean : ColonFree "bitcoin" := by
    unfold ColonFree
    decide
  simp only [writes, mem_cons, not_mem_nil, or_false]
  rintro w (rfl | rfl | rfl | rfl) <;> exact clean

theorem Holds.step {k : ℕ} {kv : Kv} {utxos : List Utxo} (h : Holds k kv utxos)
    (small : k < 2 ^ 32) :
    Holds (k + 1) ((call k).perform g kv).2 (utxos ++ [utxo k]) := by
  have nonempty : (writes k utxos).any (fun w => w.2.isEmpty) = false := by
    simp [writes, epochRecord, SupplyRecord.encode, encodeUtxos, beBytes, leBytes]
  have performed : (call k).perform g kv =
      (.ok (.admitted route ⟨message k, (drawn k).usage.2, (drawn k).supply, none⟩),
        (RouteState.put ⟨g, kv⟩ (writes k utxos)).kv) := by
    simp only [Call.perform, h.plan small, RouteState.commit, RouteState.apply, nonempty]
    rfl
  have clean : ColonFree route.sourceChain := vault.live.ruled.chain
  have all := writes_clean k utxos
  rw [performed]
  have get (key : RouteKey) (own : key.Clean) :
      RouteState.get ⟨g, (RouteState.put ⟨g, kv⟩ (writes k utxos)).kv⟩ key =
        (written (writes k utxos) key).or (RouteState.get ⟨g, kv⟩ key) :=
    RouteState.put_get own all
  constructor
  case set =>
    left
    rw [get (utxoSetKey route anchor) clean]
    simp [writes, utxoSetKey]
  case count => rw [length_append, h.count, length_singleton]
  case fits =>
    simp only [mem_append, mem_singleton]
    rintro u (mem | rfl)
    · exact h.fits u mem
    · exact utxo_fits k
  case fresh =>
    intro n later
    rw [get (.nonce route.routeName n) clean, h.fresh n (by omega)]
    have other : k ≠ n := by omega
    simp [writes, utxoSetKey, other]
  case supply =>
    have fits : k + 1 < 256 ^ 16 := by omega
    simp only [readSupply, RouteState.supplyAt]
    rw [get (.supply route.routeName) clean]
    simp [writes, utxoSetKey, SupplyRecord.encode, SupplyRecord.decode, ofBeBytes_beBytes fits]
  case minted =>
    have fits : k + 1 < 256 ^ 16 := by omega
    simp only [RouteState.mintedAt]
    rw [get (.mintEpoch route.routeName) clean]
    simp [writes, utxoSetKey, epochRecord, ofBeBytes_beBytes fits]

theorem continues (earlier : List Event) (same : ∀ e ∈ earlier, e.view = g) :
    Continues g earlier g where
  route := rfl
  networkLimit := rfl
  outflowLimits := rfl
  time e mem := by rw [same e mem]
  epoch e mem := by rw [same e mem]
  epochFits := by decide

theorem run (k : ℕ) (small : k ≤ 2 ^ 32) :
    ∃ past kv utxos, Run g past kv ∧ (∀ e ∈ past, e.view = g) ∧ Holds k kv utxos := by
  induction k with
  | zero =>
    refine ⟨[], fun _ => none, [], Run.start, by simp, ?_⟩
    exact ⟨.inr ⟨rfl, rfl⟩, rfl, by simp, fun _ _ => rfl, rfl, rfl⟩
  | succ k ih =>
    obtain ⟨past, kv, utxos, run, same, holds⟩ := ih (by omega)
    refine ⟨_, _, _, run.step (call k) (continues past same), ?_, holds.step small⟩
    simp only [mem_append, mem_singleton]
    rintro e (mem | rfl)
    · exact same e mem
    · rfl

/-- After 2^32 deposits as much is locked, and the tracked outputs no longer read back. -/
theorem unreadable : ∃ past kv e, Run g past kv ∧ Vault g route anchor ∧
    (readSupply ⟨g, kv⟩ route).locked = 2 ^ 32 ∧ readUtxos ⟨g, kv⟩ route = .error e ∧
      ¬ VaultSound ⟨g, kv⟩ route anchor := by
  obtain ⟨past, kv, utxos, run, -, holds⟩ := run (2 ^ 32) (le_refl _)
  have stored : RouteState.get ⟨g, kv⟩ (utxoSetKey route anchor) = some (encodeUtxos utxos) := by
    rcases holds.set with set | ⟨-, rfl⟩
    · exact set
    · exact absurd holds.count (by norm_num)
  obtain ⟨e, unread⟩ := decodeUtxos_encodeUtxos_many holds.fits holds.count.ge
  have read : readUtxos ⟨g, kv⟩ route = .error e := by
    have anchored : route.lightClient = some anchor := rfl
    simp only [readUtxos, anchored, stored, unread]
  refine ⟨past, kv, e, run, vault, by rw [holds.supply], read, fun sound => ?_⟩
  obtain ⟨l, held, -⟩ := sound.worth
  rw [read] at held
  cases held

theorem roomy : RoomyRun g route [⟨g, call 0, ((call 0).perform g fun _ => none).1⟩]
    ((call 0).perform g fun _ => none).2 :=
  RoomyRun.start.step (call 0) (continues [] (by simp)) fun t _ utxos held => by
    cases held
    norm_num

/-- After one deposit the route holds exactly what it records. -/
theorem vault_sound_deposit : Vault g route anchor ∧
    RoomyRun g route [⟨g, call 0, ((call 0).perform g fun _ => none).1⟩]
      ((call 0).perform g fun _ => none).2 ∧
    VaultSound ⟨g, ((call 0).perform g fun _ => none).2⟩ route anchor :=
  ⟨vault, roomy, (vault_sound vault roomy).1⟩

end ManyDeposits
end Tenzro.Bridge
