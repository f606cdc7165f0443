import Tenzro.RouteVault

set_option autoImplicit false

/-!
# Replacing a deposit route's record

The tracked outputs are stored under the identity of the route's anchor, the supply record
under the route's name. A record with another identity starts without outputs.
-/
namespace Tenzro.Bridge
open ByteCodec FixedWidth Outcome

/-! ### Where outputs are tracked -/

section
variable [RouteCrypto] {s : RouteState} {route : BridgeRoute} {name : RouteName} {id : Bytes}

/-- Some live record of the route has an anchor of the identity. -/
def Identified (v : RouteView) (name : RouteName) (id : Bytes) : Prop :=
  ∃ r anchor, Live v r ∧ r.routeName = name ∧ r.lightClient = some anchor ∧ anchor.id = id

variable [Json] [RouteEnv] [StoreProofs] {writes : List Write} {result : CallResult}

theorem Effect.identified (e : Effect s writes result)
    (wrote : written writes (.utxos name id) ≠ none) : Identified s.view name id := by
  obtain ⟨r, anchor, live, named, anchored, identity, -⟩ := e.tracks wrote
  exact ⟨r, anchor, live, named, anchored, identity⟩

end

/-! ### Histories with replaced records -/

theorem Identified.of_continues [RouteCrypto] {g v : RouteView} {past : List Event}
    {name : RouteName} {id : Bytes} (next : Continues g past v) (h : Identified v name id) : Identified g name id := by
  obtain ⟨r, anchor, live, rest⟩ := h
  exact ⟨r, anchor, live.of_continues next, rest⟩

section
variable [RouteCrypto] [Json] [RouteEnv] [StoreProofs]

/-- Runs through changes of the governed records: the views whose records were in force before,
those in force now, the events so far and the records they left. -/
inductive Governed : List RouteView → RouteView → List Event → Kv → Prop where
  | start (g : RouteView) : Governed [] g [] fun _ => none
  | step {earlier : List RouteView} {g : RouteView} {past : List Event} {kv : Kv} {v : RouteView}
      (c : Call) (run : Governed earlier g past kv) (next : Continues g past v) :
      Governed earlier g (past ++ [⟨v, c, (c.perform v kv).1⟩]) (c.perform v kv).2
  | replace {earlier : List RouteView} {g : RouteView} {past : List Event} {kv : Kv}
      (g' : RouteView) (run : Governed earlier g past kv) : Governed (g :: earlier) g' past kv

/-- Nothing is tracked under an identity no record of the route ever had. -/
theorem Governed.untracked {earlier : List RouteView} {g : RouteView} {past : List Event} {kv : Kv}
    {name : RouteName} {id : Bytes} (run : Governed earlier g past kv) (chain : ColonFree name.chain)
    (unused : ∀ w ∈ g :: earlier, ¬ Identified w name id) :
    RouteState.get ⟨g, kv⟩ (.utxos name id) = none := by
  induction run with
  | start => rfl
  | @step earlier g past kv v c run next ih =>
    have before := ih unused
    have performed := c.performed v kv
    generalize (c.perform v kv).1 = result at performed
    generalize (c.perform v kv).2 = kv' at performed ⊢
    cases performed with
    | failed e => exact before
    | @done writes result effect =>
      have put : RouteState.get (RouteState.put ⟨v, kv⟩ writes) (.utxos name id) = _ :=
        RouteState.put_get chain effect.clean
      have none : written writes (.utxos name id) = none := by
        by_contra some
        exact unused g (by simp) ((effect.identified some).of_continues next)
      rw [none, Option.none_or] at put
      exact put.trans before
  | @replace earlier g past kv g' run ih =>
    exact ih fun w mem => unused w (List.mem_cons_of_mem g' mem)

end

/-! ### A replacement -/

section
variable [RouteCrypto]

/-- Another valid record of the deposit route for the same descriptor. -/
structure Replaces (route route' : BridgeRoute) (anchor anchor' : LightClientAnchor) : Prop where
  name : route'.routeName = route.routeName
  peer : route'.peer = route.peer
  valid : route'.validate = true
  anchored : route'.lightClient = some anchor'
  descriptor : ∃ height hash confirmations feeRate height' hash' confirmations' feeRate' signers
    threshold, anchor = .bitcoinHeaders height hash confirmations signers threshold feeRate ∧
      anchor' = .bitcoinHeaders height' hash' confirmations' signers threshold feeRate'

/-- What a replacement must not change. -/
structure KeepsCoins (s : RouteState) (route route' : BridgeRoute) : Prop where
  outputs : readUtxos s route' = readUtxos s route
  worth : (∃ utxos, readUtxos s route = .ok utxos ∧
      totalValue utxos = (readSupply s route).locked) →
    ∃ utxos, readUtxos s route' = .ok utxos ∧ totalValue utxos = (readSupply s route').locked
  withdrawals : ∀ desc recipient amount feeRate plan,
    (∃ utxos, readUtxos s route = .ok utxos ∧
      planWithdrawal desc utxos recipient amount feeRate = .ok plan) →
    ∃ utxos, readUtxos s route' = .ok utxos ∧
      planWithdrawal desc utxos recipient amount feeRate = .ok plan

theorem KeepsCoins.of_outputs {s : RouteState} {route route' : BridgeRoute}
    (name : route'.routeName = route.routeName) (same : readUtxos s route' = readUtxos s route) :
    KeepsCoins s route route' where
  outputs := same
  worth held := by
    have supply : readSupply s route' = readSupply s route := by
      simp only [readSupply, name]
    rwa [same, supply]
  withdrawals desc recipient amount feeRate plan possible := by rwa [same]

variable [Json] [RouteEnv] [StoreProofs] {earlier : List RouteView} {g : RouteView}
  {past : List Event} {kv : Kv} {route route' : BridgeRoute} {anchor anchor' : LightClientAnchor}

theorem Governed.starts_empty (vault : Vault g route anchor) (run : Governed earlier g past kv)
    (replaces : Replaces route route' anchor anchor') (other : anchor'.id ≠ anchor.id)
    (unused : ∀ w ∈ earlier, ¬ Identified w route.routeName anchor'.id) :
    readUtxos ⟨g, kv⟩ route' = .ok [] := by
  have clean : ColonFree route.routeName.chain := vault.live.ruled.chain
  have none : RouteState.get ⟨g, kv⟩ (.utxos route.routeName anchor'.id) = none := by
    apply run.untracked clean
    intro w mem
    rcases List.mem_cons.1 mem with rfl | mem
    · rintro ⟨r, a, live, name, anchored, id⟩
      obtain rfl := live.unique vault.live name
      rw [vault.anchored] at anchored
      cases anchored
      exact other id.symm
    · exact unused w mem
  simp only [readUtxos, replaces.anchored, utxoSetKey, replaces.name, none]

/-- A replacement keeps the route's coins exactly when it keeps the anchor's identity or there are
none, where no identity the route had before comes back. -/
theorem coins_kept_iff (vault : Vault g route anchor) (run : Governed earlier g past kv)
    (replaces : Replaces route route' anchor anchor')
    (unused : anchor'.id ≠ anchor.id → ∀ w ∈ earlier, ¬ Identified w route.routeName anchor'.id) :
    KeepsCoins ⟨g, kv⟩ route route' ↔
      anchor'.id = anchor.id ∨ readUtxos ⟨g, kv⟩ route = .ok [] := by
  by_cases same : anchor'.id = anchor.id
  · refine ⟨fun _ => .inl same, fun _ => .of_outputs replaces.name ?_⟩
    simp only [readUtxos, replaces.anchored, vault.anchored, utxoSetKey, replaces.name, same]
  · have after := run.starts_empty vault replaces same (unused same)
    constructor
    · intro keeps
      exact .inr (keeps.outputs ▸ after)
    · rintro (id | empty)
      · exact absurd id same
      · exact .of_outputs replaces.name (after.trans empty.symm)

theorem Governed.of_run (run : Run g past kv) : Governed [] g past kv := by
  induction run with
  | start => exact .start g
  | step c run next ih => exact ih.step c next

end

/-! ### Raising the confirmations -/

namespace RaisedConfirmations

open ManyDeposits (anchor call script)
open AssetMint (id32 length_id32 json proofs)

/-- The remainder by a prime, so that the confirmations count in an identity. -/
def digest (b : Bytes) : Bytes := beBytes 32 (ofBeBytes b % (2 ^ 256 - 189))

theorem length_digest (b : Bytes) : (digest b).length = 32 := length_beBytes ..

@[reducible] def crypto : RouteCrypto where
  sha256 := digest
  length_sha256 := length_digest
  keccak256 := digest
  length_keccak256 := length_digest
  outputKey _ _ := .ok (id32 77, false)
  length_outputKey := length_id32

attribute [local instance] crypto json proofs

theorem no_update (s : RouteState) (route : BridgeRoute) (anchor : LightClientAnchor)
    (update : Bytes) (writes : List ClientWrite)
    (out : (.error "no update" : Except String (List ClientWrite)) = .ok writes) :
    ∀ w ∈ writes, w.1 ≠ ["utxos"] ∧ ∀ f ∈ w.1, ':' ∉ f.toList := by
  cases out

/-- Every proof holds and every committee signed. -/
@[reducible] def env : RouteEnv where
  attestationDigest _ _ := []
  verifyCommittee _ _ _ _ := .ok ()
  checkExecution _ _ _ := .ok ()
  otherAdapter _ _ := none
  lightClient _ := some
    { verify _ _ _ _ _ := .ok ()
      advance _ _ _ _ := .error "no update"
      suffixes := no_update }
  issuerHook _ := none

attribute [local instance] env

def route : BridgeRoute := { ManyDeposits.route with peer := digest script }

def g : RouteView :=
  { ManyDeposits.g with
    route adapter chain := if adapter = .deposit ∧ chain = "bitcoin" then some route else none }

def anchor' : LightClientAnchor := .bitcoinHeaders 0 (id32 5) 7 [id32 1] 1 1

def route' : BridgeRoute := { route with lightClient := some anchor' }

/-- Another fee rate keeps the identity. -/
def cheaper : LightClientAnchor := .bitcoinHeaders 0 (id32 5) 6 [id32 1] 1 2

def cheaperRoute : BridgeRoute := { route with lightClient := some cheaper }

theorem evaluated : (route.validate = true ∧ route'.validate = true ∧ cheaperRoute.validate = true) ∧
    anchor'.id ≠ anchor.id := by
  decide +kernel

theorem vault : Vault g route anchor where
  live := ⟨rfl, evaluated.1.1⟩
  deposit := rfl
  anchored := rfl
  keys := by
    rintro height hash confirmations signers threshold feeRate ⟨⟩ k mem
    obtain rfl := List.mem_singleton.1 mem
    exact length_beBytes ..

/-- The records after one deposit. -/
def kv : Kv := ((call 0).perform g fun _ => none).2

def utxo : Utxo := ⟨(ManyDeposits.deposit 0).txid, 0, 1⟩

theorem deposited : readUtxos ⟨g, kv⟩ route = .ok [utxo] ∧ (readSupply ⟨g, kv⟩ route).locked = 1 := by
  decide +kernel

theorem one_deposit : Run g [⟨g, call 0, ((call 0).perform g fun _ => none).1⟩] kv := by
  apply Run.start.step
  exact { route := rfl, networkLimit := rfl, outflowLimits := rfl, epochFits := by decide,
          time := by simp, epoch := by simp }

theorem replaces : Replaces route route' anchor anchor' where
  name := rfl
  peer := rfl
  valid := evaluated.1.2.1
  anchored := rfl
  descriptor := ⟨_, _, _, _, _, _, _, _, _, _, rfl, rfl⟩

/-- After one deposit, a record that only asks for one more confirmation has no outputs. -/
theorem coins_lost : (∃ past, Run g past kv) ∧ Vault g route anchor ∧
    Replaces route route' anchor anchor' ∧ readUtxos ⟨g, kv⟩ route = .ok [utxo] ∧
    readUtxos ⟨g, kv⟩ route' = .ok [] ∧ (readSupply ⟨g, kv⟩ route').locked = 1 ∧
    ¬ KeepsCoins ⟨g, kv⟩ route route' := by
  have after : readUtxos ⟨g, kv⟩ route' = .ok [] :=
    (Governed.of_run one_deposit).starts_empty vault replaces evaluated.2 (by simp)
  refine ⟨⟨_, one_deposit⟩, vault, replaces, deposited.1, after, deposited.2, fun keeps => ?_⟩
  have same := keeps.outputs
  rw [deposited.1, after] at same
  cases same

theorem replaces_cheaper : Replaces route cheaperRoute anchor cheaper where
  name := rfl
  peer := rfl
  valid := evaluated.1.2.2
  anchored := rfl
  descriptor := ⟨_, _, _, _, _, _, _, _, _, _, rfl, rfl⟩

/-- After one deposit, another fee rate loses nothing. -/
theorem coins_kept_cheaper : (∃ past, Run g past kv) ∧ readUtxos ⟨g, kv⟩ route = .ok [utxo] ∧
    Replaces route cheaperRoute anchor cheaper ∧ KeepsCoins ⟨g, kv⟩ route cheaperRoute := by
  have same : cheaper.id = anchor.id := rfl
  have kept := coins_kept_iff vault (.of_run one_deposit) replaces_cheaper
    fun other => absurd same other
  exact ⟨⟨_, one_deposit⟩, deposited.1, replaces_cheaper, kept.2 (.inl same)⟩

end RaisedConfirmations
end Tenzro.Bridge
