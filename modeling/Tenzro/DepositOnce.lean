import Tenzro.BitcoinSync

set_option autoImplicit false

/-!
# Deposits credited once

A deposit is spent under its position on the client's best chain. As long as no transaction
credited before is mined on that chain at another position, each is credited once.
-/
namespace Tenzro.Bridge
open ByteCodec FixedWidth Outcome BitcoinLightClient List

section
variable [RouteCrypto] {s : RouteState} {route : BridgeRoute} {anchor : LightClientAnchor}

/-! ### Mined transactions -/

def MinedAt (s : RouteState) (route : BridgeRoute) (anchor : LightClientAnchor) (txid : Bytes)
    (height index : ℕ) : Prop :=
  ∃ (header : BlockHeader) (branch : List Bytes) (tipHeight : ℕ) (best r : BitcoinLightClient.Record),
    tip s route anchor = .ok (some (tipHeight, best)) ∧ height ≤ tipHeight ∧
      record s route anchor height = .ok (some r) ∧ r.hash = header.hash ∧
      branch.length ≤ maxBranch ∧ index / 2 ^ branch.length = 0 ∧
      climb index branch txid = .ok header.merkleRoot

theorem proveInclusion_ok {proof depositBytes : Bytes} {payment : ProvenPayment}
    (h : proveInclusion s route anchor proof = .ok (depositBytes, payment)) :
    ∃ header branch deposit, decodeWith readProof proof = .ok (depositBytes, header, branch) ∧
      decodeWith Deposit.read depositBytes = .ok deposit ∧
      MinedAt s route anchor deposit.txid deposit.height deposit.index := by
  simp only [proveInclusion, bind_ok] at h
  obtain ⟨a, -, held, tipped, h⟩ := h
  cases held with
  | none => cases h
  | some best =>
    simp only [bind_ok, ensure_ok, exists_const, pure_ok] at h
    obtain ⟨⟨bytes, header, branch⟩, parts, deposit, read, tx, -, fitted, node, climbed, rfl, low,
      mined, stored, found, -, same⟩ := h
    cases same
    cases mined with
    | none => cases found
    | some r =>
      have few : branch.length ≤ maxBranch := by
        obtain ⟨r₀, parts, -⟩ := decodeWith_ok.1 parts
        obtain ⟨_, r₁, -, parts⟩ := read_bind_ok.1 parts
        obtain ⟨_, r₂, -, parts⟩ := read_bind_ok.1 parts
        obtain ⟨n, r₃, -, parts⟩ := read_bind_ok.1 parts
        obtain ⟨⟨⟩, r₄, small, parts⟩ := read_bind_ok.1 parts
        obtain ⟨_, r₅, siblings, parts⟩ := read_bind_ok.1 parts
        obtain ⟨same, -⟩ := read_pure_ok.1 parts
        cases same
        rw [(repeated_ok siblings).1]
        exact (require_ok.1 small).1
      exact ⟨header, branch, deposit, parts, read, header, branch, best.1, best.2, r, tipped, low,
        stored, by simpa using found, few, fitted, climbed⟩

theorem verify_ok {body proof : Bytes} (h : verify s route anchor body proof = .ok ()) :
    ∃ parts deposit, decodeWith readProof proof = .ok parts ∧ keccak256 parts.1 = body ∧
      decodeWith Deposit.read parts.1 = .ok deposit ∧
      MinedAt s route anchor deposit.txid deposit.height deposit.index := by
  simp only [verify, bind_ok, ensure_ok, exists_const] at h
  obtain ⟨a, -, ⟨depositBytes, payment⟩, proven, same, -⟩ := h
  obtain ⟨header, branch, deposit, parts, read, mined⟩ := proveInclusion_ok proven
  exact ⟨_, deposit, parts, same, read, mined⟩

end

/-! ### Deliveries -/

section
variable [RouteCrypto] [Json] [RouteEnv] [StoreProofs] {s : RouteState} {g : RouteView}
  {route : BridgeRoute} {anchor : LightClientAnchor} {t : AdmittedTransfer} {writes : List Write}
  {c : Call}

theorem Call.admits_plan (h : c.plan s = .ok (writes, .admitted route t)) :
    ∃ adapter chain delivery, c = .admitInbound adapter chain delivery ∧
      Bridge.admitInbound s adapter chain delivery = .ok (writes, route, t) := by
  cases c with
  | admitInbound adapter chain delivery =>
    obtain ⟨⟨_, r, t'⟩, admitted, same⟩ := map_ok.1 h
    cases same
    exact ⟨adapter, chain, delivery, rfl, admitted⟩
  | _ =>
    obtain ⟨⟨_, r⟩, -, same⟩ := map_ok.1 h
    cases same

def Bound (c : Call) : Prop :=
  ∀ adapter chain delivery, c = .admitInbound adapter chain delivery → ∀ d parts,
    Delivery.decode delivery = .ok d → decodeWith readProof d.proof = .ok parts →
      keccak256 parts.1 = keccak256 d.body → parts.1 = d.body

omit [Json] [StoreProofs] in
theorem verifiedDelivery_ok {delivery : Bytes} {d : Delivery}
    (h : verifiedDelivery s route delivery = .ok d) :
    Delivery.decode delivery = .ok d ∧ ∃ digest, verifyProof s route digest d = .ok () := by
  simp only [verifiedDelivery, bind_ok, ensure_ok, exists_const] at h
  obtain ⟨d', decoded, -, -, -, -, -, h⟩ := h
  split at h
  · simp only [bind_ok, pure_ok] at h
    obtain ⟨-, -, ⟨⟩, proved, rfl⟩ := h
    exact ⟨decoded, _, proved⟩
  · simp only [bind_ok, pure_ok, ensure_ok, exists_const] at h
    obtain ⟨-, ⟨⟩, proved, rfl⟩ := h
    exact ⟨decoded, _, proved⟩

omit [StoreProofs] in
theorem admitInbound_mined {adapter : BridgeRouteAdapter} {chain : String} {delivery : Bytes}
    (installed : RouteEnv.lightClient .bitcoinHeaders = some bitcoinLightClient)
    (vault : Vault g route anchor) (bound : Bound (.admitInbound adapter chain delivery))
    (h : admitInbound s adapter chain delivery = .ok (writes, route, t)) :
    ∃ height index, t.message.sequence = height * 2 ^ 20 + index ∧
      MinedAt s route anchor t.message.messageId height index := by
  simp only [admitInbound, bind_ok, ensure_ok, exists_const] at h
  obtain ⟨r, -, family, isAdapter, d, verified, message, decoded, -, asset, -, -, -, -, drawn, -,
    transport, -, h⟩ := h
  cases pure_ok.1 h
  obtain rfl := vault.adapterOf isAdapter
  obtain ⟨deposit, tx, output, vout, read, -, -, -, named, sequence⟩ :=
    bitcoinDecodeInbound_ok decoded
  obtain ⟨taken, digest, proved⟩ := verifiedDelivery_ok verified
  obtain ⟨a, found, kind, -⟩ := vault.live.ruled.bitcoin vault.bitcoin
  rw [vault.anchored] at found
  cases found
  unfold verifyProof lightClientOf at proved
  simp only [vault.anchored, Option.isSome_some, if_true, kind, installed] at proved
  obtain ⟨parts, deposit', split, hashed, read', mined⟩ := verify_ok proved
  rw [bound adapter chain delivery rfl d parts taken split hashed, read] at read'
  cases read'
  rw [named, sequence]
  exact ⟨deposit.height, deposit.index, rfl, mined⟩

end

/-! ### Runs -/

def CallResult.credited (name : RouteName) : CallResult → Option Bytes
  | .admitted r t => if r.routeName = name then some t.message.messageId else none
  | _ => none

def credits (name : RouteName) (past : List Event) : List Bytes :=
  (outcomes past).filterMap (CallResult.credited name)

theorem credits_error {name : RouteName} {past : List Event} {v : RouteView} {c : Call} {e : String} :
    credits name (past ++ [⟨v, c, .error e⟩]) = credits name past := by
  simp [credits]

theorem credits_ok {name : RouteName} {past : List Event} {v : RouteView} {c : Call}
    {result : CallResult} :
    credits name (past ++ [⟨v, c, .ok result⟩]) =
      credits name past ++ (result.credited name).toList := by
  rw [credits, outcomes_ok, filterMap_append]
  cases found : result.credited name <;> simp [credits, found]

def outpoint (u : Utxo) : Bytes × ℕ := (u.txid, u.vout)

section
variable [RouteCrypto]

def Settled (s : RouteState) (route : BridgeRoute) (anchor : LightClientAnchor)
    (past : List Event) : Prop :=
  ∀ r t, .admitted r t ∈ outcomes past → r.routeName = route.routeName → ∀ height index,
    MinedAt s route anchor t.message.messageId height index →
      t.message.sequence = height * 2 ^ 20 + index

/-- What is stored for the outputs: the transactions credited, in order. -/
structure Listed (s : RouteState) (route : BridgeRoute) (anchor : LightClientAnchor)
    (txids : List Bytes) (utxos : List Utxo) : Prop where
  set : s.get (utxoSetKey route anchor) = some (encodeUtxos utxos) ∨
    s.get (utxoSetKey route anchor) = none ∧ utxos = []
  fits : ∀ u ∈ utxos, u.Fits
  txids : utxos.map Utxo.txid = txids

theorem Listed.read {s : RouteState} {route : BridgeRoute} {anchor : LightClientAnchor}
    {txids : List Bytes} {utxos l : List Utxo} (h : Listed s route anchor txids utxos) (anchored : route.lightClient = some anchor)
    (held : readUtxos s route = .ok l) : l = utxos := by
  by_cases few : utxos.length < 2 ^ 32
  · rw [readUtxos_set anchored h.set h.fits few] at held
    exact (Except.ok.inj held).symm
  · obtain ⟨e, unread⟩ := decodeUtxos_encodeUtxos_many h.fits (not_lt.1 few)
    rcases h.set with set | ⟨-, rfl⟩
    · simp [readUtxos, anchored, set, unread] at held
    · simp at few

variable [Json] [RouteEnv] [StoreProofs]

/-- The runs in which a deposit is admitted only while what was credited is settled. -/
inductive SettledRun (g : RouteView) (route : BridgeRoute) (anchor : LightClientAnchor) :
    List Event → Kv → Prop where
  | start : SettledRun g route anchor [] fun _ => none
  | step {past : List Event} {kv : Kv} {v : RouteView} (c : Call)
      (run : SettledRun g route anchor past kv) (next : Continues g past v)
      (settled : ∀ t, (c.perform v kv).1 = .ok (.admitted route t) →
        Settled ⟨v, kv⟩ route anchor past) :
      SettledRun g route anchor (past ++ [⟨v, c, (c.perform v kv).1⟩]) (c.perform v kv).2

variable {g v : RouteView} {route : BridgeRoute} {anchor : LightClientAnchor} {past : List Event}
  {kv : Kv} {c : Call} {t : AdmittedTransfer}

theorem SettledRun.run (run : SettledRun g route anchor past kv) : Run g past kv := by
  induction run with
  | start => exact .start
  | step c run next settled ih => exact ih.step c next

theorem SettledRun.fresh (installed : RouteEnv.lightClient .bitcoinHeaders = some bitcoinLightClient)
    (vault : Vault g route anchor) (run : SettledRun g route anchor past kv)
    (next : Continues g past v) (bound : Bound c)
    (settled : Settled ⟨v, kv⟩ route anchor past)
    (h : (c.perform v kv).1 = .ok (.admitted route t)) :
    t.message.messageId ∉ credits route.routeName past := by
  intro again
  have clean : ColonFree route.routeName.chain := vault.live.ruled.chain
  have once := (run.run.step c next).admits_once (n := t.message.sequence) clean
  rw [h, outcomes_ok, countP_append] at once
  obtain ⟨result, mem, credited⟩ := mem_filterMap.1 again
  cases result with
  | admitted r t₀ =>
    simp only [CallResult.credited, Option.ite_none_right_eq_some, Option.some.injEq] at credited
    obtain ⟨name, same⟩ := credited
    obtain ⟨writes, planned⟩ := Call.plan_of_performed h
    obtain ⟨adapter, chain, delivery, rfl, admitted⟩ := Call.admits_plan planned
    obtain ⟨height, index, position, mined⟩ := admitInbound_mined installed vault bound admitted
    rw [← same] at mined
    have earlier := settled r t₀ mem name height index mined
    -- the position's replay key was spent when it was credited
    have first : 0 < (outcomes past).countP
        (CallResult.admits route.routeName t.message.sequence) := by
      rw [countP_pos_iff]
      exact ⟨_, mem, by simp [CallResult.admits, name, earlier, position]⟩
    have second : [CallResult.admitted route t].countP
        (CallResult.admits route.routeName t.message.sequence) = 1 := by
      simp [CallResult.admits]
    omega
  | _ => cases credited

theorem Listed.step {writes : List Write} {result : CallResult} {utxos : List Utxo}
    (h : Listed ⟨v, kv⟩ route anchor (credits route.routeName past) utxos)
    (vault : Vault g route anchor) (e : Effect ⟨v, kv⟩ writes result) (next : Continues g past v)
    (stays : ∀ out, result ≠ .sent route out) :
    ∃ after, Listed (RouteState.put ⟨v, kv⟩ writes) route anchor
      (credits route.routeName past ++ (result.credited route.routeName).toList) after := by
  have clean : ColonFree route.sourceChain := vault.live.ruled.chain
  have set : RouteState.get (RouteState.put ⟨v, kv⟩ writes) (utxoSetKey route anchor) = _ :=
    RouteState.put_get clean e.clean
  by_cases deposits : ∃ t, result = .admitted route t
  · obtain ⟨t, rfl⟩ := deposits
    obtain ⟨-, utxos', utxo, held, fits, -, named, write⟩ := e.vault_adds vault
    obtain rfl := h.read vault.anchored held
    refine ⟨utxos' ++ [utxo], .inl ?_, ?_, ?_⟩
    · rw [set, write, Option.some_or]
    · simp only [mem_append, mem_singleton]
      rintro u (mem | rfl)
      · exact h.fits u mem
      · exact fits
    · simp [h.txids, named, CallResult.credited]
  · have none : result.credited route.routeName = none := by
      cases result with
      | admitted r t =>
        rw [CallResult.credited, if_neg]
        intro name
        obtain rfl := (e.admits.live.of_continues next).unique vault.live name
        exact deposits ⟨t, rfl⟩
      | _ => rfl
    rw [none, Option.toList_none, append_nil]
    cases e.vault next vault with
    | still noWrite =>
      refine ⟨utxos, ?_, h.fits, h.txids⟩
      rw [set, noWrite, Option.none_or]
      exact h.set
    | deposits t _ _ admitted => exact absurd ⟨t, admitted⟩ deposits
    | withdraws out _ _ _ _ _ _ sent => exact absurd sent (stays out)

theorem SettledRun.credits_nodup
    (installed : RouteEnv.lightClient .bitcoinHeaders = some bitcoinLightClient)
    (vault : Vault g route anchor) (run : SettledRun g route anchor past kv)
    (bound : ∀ e ∈ past, Bound e.call) : (credits route.routeName past).Nodup := by
  induction run with
  | start => exact nodup_nil
  | @step past kv v c run next settled ih =>
    have earlier := ih fun e mem => bound e (by simp [mem])
    cases performed : (c.perform v kv).1 with
    | error e => rwa [credits_error]
    | ok result =>
      rw [credits_ok]
      cases credited : result.credited route.routeName with
      | none => simpa using earlier
      | some txid =>
        cases result with
        | admitted r t =>
          simp only [CallResult.credited, Option.ite_none_right_eq_some, Option.some.injEq]
            at credited
          obtain ⟨name, rfl⟩ := credited
          obtain rfl : r = route := by
            obtain ⟨writes, planned⟩ := Call.plan_of_performed performed
            exact ((c.effect planned).admits.live.of_continues next).unique vault.live name
          have own : Bound c := bound ⟨v, c, (c.perform v kv).1⟩ (by simp)
          have fresh := run.fresh installed vault next own (settled t performed) performed
          rw [Option.toList_some, nodup_append]
          refine ⟨earlier, by simp, fun a mem b last same => fresh ?_⟩
          rwa [← mem_singleton.1 last, ← same]
        | _ => cases credited

theorem Run.listed (vault : Vault g route anchor) (run : Run g past kv)
    (stays : ∀ out, .sent route out ∉ outcomes past) :
    ∃ utxos, Listed ⟨g, kv⟩ route anchor (credits route.routeName past) utxos := by
  revert stays
  refine Run.induct (P := fun past kv => (∀ out, .sent route out ∉ outcomes past) →
    ∃ utxos, Listed ⟨g, kv⟩ route anchor (credits route.routeName past) utxos) ?_ ?_ ?_ run
  · exact fun _ => ⟨[], .inr ⟨rfl, rfl⟩, by simp, rfl⟩
  · intro past kv v c e run ih next stays
    rw [outcomes_error] at stays
    rw [credits_error]
    exact ih stays
  · intro past kv v c writes result run ih next effect stays
    simp only [outcomes_ok, mem_append, mem_singleton, not_or] at stays
    obtain ⟨utxos, listed⟩ := ih fun out => (stays out).1
    have before : Listed ⟨v, kv⟩ route anchor (credits route.routeName past) utxos :=
      ⟨listed.set, listed.fits, listed.txids⟩
    obtain ⟨after, h⟩ := before.step vault effect next fun out same => (stays out).2 same.symm
    rw [credits_ok]
    exact ⟨after, h.set, h.fits, h.txids⟩

end

/-! ### A transaction mined again elsewhere -/

namespace Remined

open ManyDeposits (crypto script)
open AssetMint (id32 json proofs)

attribute [local instance] crypto json proofs

/-- Every committee signed. -/
@[reducible] def env : RouteEnv where
  attestationDigest _ _ := []
  verifyCommittee _ _ _ _ := .ok ()
  checkExecution _ _ _ := .ok ()
  otherAdapter _ _ := none
  lightClient kind := if kind = .bitcoinHeaders then some bitcoinLightClient else none
  issuerHook _ := none

attribute [local instance] env

def trusted : BlockHeader := ⟨1, id32 0, id32 1, 0, powLimitBits, 0⟩

def anchor : LightClientAnchor := .bitcoinHeaders 0 trusted.hash 6 [id32 1] 1 1

def route : BridgeRoute := { ManyDeposits.route with lightClient := some anchor }

def g : RouteView :=
  { ManyDeposits.g with
    route adapter chain := if adapter = .deposit ∧ chain = "bitcoin" then some route else none }

def tx : Bytes := (ManyDeposits.tx 0).encode

def coinbase : Bytes := id32 9

def root : Bytes := sha256d (coinbase ++ sha256d tx)

def branch : BlockHeader → ℕ → List Bytes → List BlockHeader
  | _, _, [] => []
  | prev, time, r :: roots =>
    let header : BlockHeader := ⟨1, prev.hash, r, time, powLimitBits, 0⟩
    header :: branch header (time + 600) roots

def first : List BlockHeader := branch trusted 600 (root :: replicate 5 (id32 2))

def second : List BlockHeader := branch trusted 601 (id32 3 :: root :: replicate 5 (id32 2))

def update (headers : List BlockHeader) : Bytes :=
  1 :: (beBytes 8 0 ++ (beBytes 2 headers.length ++ headers.flatMap BlockHeader.encode))

def deposit (height : ℕ) : Deposit := ⟨height, 1, tx⟩

def proof (height : ℕ) (header : BlockHeader) : Bytes :=
  writeBeBytes (deposit height).encode ++ (header.encode ++ (1 :: coinbase))

def envelope (height : ℕ) (header : BlockHeader) : Bytes :=
  beBytes 8 7 ++ (beBytes 8 (deposit height).sequence ++ (beBytes 8 2000 ++
    (writeBeBytes (deposit height).encode ++
      (writeBeBytes (proof height header) ++ [0, 0, 0, 0]))))

def advance (update : Bytes) : Call := .advanceLightClient .deposit "bitcoin" update

def deliver (height : ℕ) (header : BlockHeader) : Call :=
  .admitInbound .deposit "bitcoin" (envelope height header)

def firstBlock : BlockHeader := first.getD 0 trusted

def secondBlock : BlockHeader := second.getD 1 trusted

def before : List Call :=
  [advance (0 :: trusted.encode), advance (update first), deliver 1 firstBlock]

def calls : List Call :=
  before ++ [advance (update second), deliver 2 secondBlock]

def made (calls : List Call) : List Event × Kv :=
  calls.foldl (fun p c => (p.1 ++ [⟨g, c, (c.perform g p.2).1⟩], (c.perform g p.2).2))
    ([], fun _ => none)

theorem made_append (calls : List Call) (c : Call) :
    made (calls ++ [c]) = ((made calls).1 ++ [⟨g, c, (c.perform g (made calls).2).1⟩],
      (c.perform g (made calls).2).2) := by
  rw [made, foldl_append]
  rfl

theorem made_view (calls : List Call) : ∀ e ∈ (made calls).1, e.view = g := by
  induction calls using reverseRecOn with
  | nil => simp [made]
  | append_singleton calls c ih =>
    rw [made_append]
    simp only [mem_append, mem_singleton]
    rintro e (mem | rfl)
    · exact ih e mem
    · rfl

theorem made_continues (calls : List Call) : Continues g (made calls).1 g where
  route := rfl
  networkLimit := rfl
  outflowLimits := rfl
  time e mem := by rw [made_view calls e mem]
  epoch e mem := by rw [made_view calls e mem]
  epochFits := by decide

theorem made_run (calls : List Call) : Run g (made calls).1 (made calls).2 := by
  induction calls using reverseRecOn with
  | nil => exact .start
  | append_singleton calls c ih =>
    rw [made_append]
    exact ih.step c (made_continues calls)

def utxo : Utxo := ⟨sha256d tx, 0, 1⟩

theorem evaluated :
    (route.validate = true ∧
    (∀ r ∈ outcomes (made [advance (0 :: trusted.encode)]).1, r = .advanced route) ∧
    (∀ r ∈ outcomes (made [advance (0 :: trusted.encode), advance (update first)]).1,
      r = .advanced route) ∧
    (credits route.routeName (made before).1 = [sha256d tx] ∧
      readUtxos ⟨g, (made before).2⟩ route = .ok [utxo]) ∧
    credits route.routeName (made calls).1 = [sha256d tx, sha256d tx] ∧
    readUtxos ⟨g, (made calls).2⟩ route = .ok [utxo, utxo]) ∧
    Delivery.decode (envelope 1 firstBlock) =
      .ok ⟨7, (deposit 1).sequence, 2000, (deposit 1).encode, proof 1 firstBlock, [], [], [], []⟩ ∧
    decodeWith readProof (proof 1 firstBlock) =
      .ok ((deposit 1).encode, firstBlock, [coinbase]) := by
  decide +kernel

theorem vault : Vault g route anchor where
  live := ⟨rfl, evaluated.1.1⟩
  deposit := rfl
  anchored := rfl
  keys := by
    rintro height hash confirmations signers threshold feeRate ⟨⟩ k mem
    obtain rfl := mem_singleton.1 mem
    exact length_beBytes ..

theorem made_settled {calls : List Call} {c : Call}
    (run : SettledRun g route anchor (made calls).1 (made calls).2)
    (quiet : ∀ r ∈ outcomes (made calls).1, r = .advanced route) :
    SettledRun g route anchor (made (calls ++ [c])).1 (made (calls ++ [c])).2 := by
  rw [made_append]
  apply run.step c (made_continues calls)
  intro t _ r t mem
  cases quiet _ mem

theorem settled_before : SettledRun g route anchor (made before).1 (made before).2 := by
  obtain ⟨-, bootstrapped, extended, -⟩ := evaluated.1
  have zero : SettledRun g route anchor (made []).1 (made []).2 := .start
  have one := made_settled (c := advance (0 :: trusted.encode)) zero (by simp [made, outcomes])
  have two := made_settled (c := advance (update first)) one bootstrapped
  exact made_settled (c := deliver 1 firstBlock) two extended

theorem bound_before : ∀ e ∈ (made before).1, Bound e.call := by
  have called : (made before).1.map Event.call = before := by
    rfl
  intro e mem adapter chain delivery same d parts decoded split hashed
  have call : e.call ∈ before := called ▸ mem_map_of_mem mem
  rw [same] at call
  simp only [before, advance, deliver, mem_cons, not_mem_nil, or_false, reduceCtorEq,
    false_or, Call.admitInbound.injEq] at call
  obtain ⟨-, -, rfl⟩ := call
  obtain ⟨read, parted⟩ := evaluated.2
  rw [read] at decoded
  cases decoded
  rw [parted] at split
  cases split
  rfl

end Remined
end Tenzro.Bridge
