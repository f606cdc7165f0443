import Tenzro.RouteOnce
import Tenzro.RouteLimits

set_option autoImplicit false

/-!
# Safety of the bridge routes over whole runs

What the supply records, the nonces, the limits and the sequences hold together, and an
asset that mints past the network's limit within its own.
-/
namespace Tenzro.Bridge
open ByteCodec FixedWidth Outcome

section
variable [RouteCrypto]

def networkCap (g : RouteView) (route : BridgeRoute) : ℕ :=
  (g.networkLimit route).elim 0 MintRateLimit.perEpoch

/-- What holds of a governed route and what it carries, over a run that left `kv`. -/
structure RouteSafe (g : RouteView) (past : List Event) (kv : Kv) (route : BridgeRoute) : Prop where
  supply : ∀ asset, (∀ a, asset = some a → a ∈ route.assets) →
    let record := RouteState.supplyAt ⟨g, kv⟩ (route.supplyKey asset)
    record.bridged ≤ record.locked ∧
      (record.locked : ℤ) =
        ((outcomes past).map (CallResult.supplyChange (route.supplyKey asset))).sum ∧
      record.bridged = record.locked
  admitted : ∀ n, (outcomes past).countP (CallResult.admits route.routeName n) ≤ 1
  published : ∀ n, (outcomes past).countP (CallResult.publishes route.routeName n) ≤ 1
  consumed : ∀ n, (outcomes past).countP (CallResult.consumes route.routeName n) ≤ 1
  minted : ∀ epoch, ((outcomesAt epoch past).map (CallResult.counted (route.mintKey none))).sum ≤
    min route.mintLimit.perEpoch (networkCap g route)
  mintedAsset : ∀ a ∈ route.assets, ∀ epoch,
    ((outcomesAt epoch past).map (CallResult.counted (route.mintKey (some a)))).sum ≤
      a.mintLimit.perEpoch
  left : ∀ asset unit, (∀ a, asset = some a → a ∈ route.assets) →
    exitUnit route asset = .ok unit → ∀ epoch,
      ((outcomesAt epoch past).map (CallResult.counted (.outflow unit))).sum ≤
        (outflowCap ⟨g, kv⟩ unit).getD 0
  sent : ∃ n, (outcomes past).filterMap (CallResult.sentAs route.routeName) = List.range' 1 n
  queued : ∃ n, (outcomes past).filterMap (CallResult.queuedAs route.routeName) = List.range' 1 n

section
variable {g : RouteView} {past : List Event} {kv : Kv} {route : BridgeRoute}
  {asset : Option CarriedAsset}

theorem supplyKey_clean (live : Live g route)
    (listed : ∀ a, asset = some a → a ∈ route.assets) : (route.supplyKey asset).Clean := by
  cases asset with
  | none => exact live.ruled.chain
  | some a => exact ⟨live.ruled.chain, live.ruled.symbols a (listed a rfl)⟩

theorem colonFree_exitUnit {unit : String} (live : Live g route)
    (listed : ∀ a, asset = some a → a ∈ route.assets) (exits : exitUnit route asset = .ok unit) :
    ColonFree unit := by
  cases asset with
  | none => exact exitUnit_clean exits
  | some a =>
    cases exits
    exact live.ruled.symbols a (listed a rfl)

variable [Json] [RouteEnv] [StoreProofs]

theorem Run.route_safe (run : Run g past kv) (live : Live g route) :
    RouteSafe g past kv route := by
  have chain := live.ruled.chain
  constructor
  case supply =>
    intro asset listed
    obtain ⟨n, record, -, total⟩ := run.supply _ kind_supplyKey (supplyKey_clean live listed)
    simp only [record]
    exact ⟨le_refl n, total, trivial⟩
  case admitted => exact fun n => run.admits_once chain
  case published => exact fun n => run.publishes_once chain
  case consumed => exact fun n => run.consumes_once chain
  case minted =>
    intro epoch
    have within := run.mint_within live none (by simp) epoch
    refine within.trans_eq ?_
    cases limit : g.networkLimit route <;>
      simp [mintCap, networkCap, limit, MintRateLimit.tightest]
  case mintedAsset =>
    intro a mem epoch
    refine run.mint_within live (some a) ?_ epoch
    rintro b ⟨⟩
    exact mem
  case left =>
    intro asset unit listed exits epoch
    exact run.outflow_within (colonFree_exitUnit live listed exits) epoch
  case sent => exact ⟨_, run.sent_in_order chain⟩
  case queued => exact ⟨_, run.queued_in_order chain⟩

end

variable [Json] [RouteEnv] [StoreProofs]

theorem Call.failed_unchanged {v : RouteView} {kv : Kv} {c : Call} {e : String}
    (failed : (c.perform v kv).1 = .error e) : (c.perform v kv).2 = kv := by
  have performed := c.performed v kv
  rw [failed] at performed
  generalize (c.perform v kv).2 = kv' at performed ⊢
  cases performed
  rfl

/-- Every run of calls is safe for every governed route, and a call that fails writes nothing. -/
theorem run_safe {g : RouteView} {past : List Event} {kv : Kv} (run : Run g past kv) :
    (∀ route, Live g route → RouteSafe g past kv route) ∧
      ∀ v c e, (Call.perform v kv c).1 = .error e → (Call.perform v kv c).2 = kv :=
  ⟨fun _ live => run.route_safe live, fun _ _ _ failed => Call.failed_unchanged failed⟩

end

/-! ### A carried asset and the network limit -/

namespace AssetMint

def digest (b : Bytes) : Bytes := beBytes 32 (ofBeBytes b)

theorem length_digest (b : Bytes) : (digest b).length = 32 := length_beBytes ..

@[reducible] def crypto : RouteCrypto where
  sha256 := digest
  length_sha256 := length_digest
  keccak256 := digest
  length_keccak256 := length_digest
  outputKey _ _ := .error "no deposit descriptor"
  length_outputKey := RouteCrypto.length_refused

def id32 (n : ℕ) : Bytes := beBytes 32 n

theorem length_id32 (signers : List Bytes) (threshold : ℕ) (key : Bytes) (odd : Bool)
    (out : (.ok (id32 77, false) : Except String (Bytes × Bool)) = .ok (key, odd)) :
    key.length = 32 := by
  cases out
  exact length_beBytes ..

def committee (first : ℕ) : VerifierQuorum where
  size := 3
  members := [0, 1, 2].map fun k => ⟨beBytes 20 (first + k), List.replicate 1952 0,
    toString (first + k), toString (first + k)⟩
  threshold := 2

def coin : CarriedAsset where
  symbol := "COIN"
  name := "Coin"
  decimals := 6
  pool := id32 21
  remoteToken := id32 22
  caip19 := "eip155:1/erc20:0x01"
  transfer := .lockAndMint
  mintLimit := ⟨100, 100⟩
  outflow := ⟨100, 1⟩
  lane := some ⟨100, 1⟩
  maxOutstanding := 1000
  enabled := true

def route : BridgeRoute where
  adapter := .ccip
  family := .evm
  sourceChain := "base"
  sourceChainId := 8453
  localSelector := 7
  peer := id32 1
  ramp := id32 2
  localEndpoint := id32 3
  remoteToken := id32 4
  verifiers := committee 1
  blessing := some (committee 4)
  lightClient := none
  mintLimit := ⟨100, 100⟩
  outflow := ⟨100, 1⟩
  laneLimits := some ⟨.v1_6, ⟨100, 1⟩⟩
  ibc := none
  settlementLock := none
  assets := [coin]
  nativeAsset := none

/-- The network lets a route mint 10 in an epoch, the asset 100. -/
def g : RouteView where
  localChainId := 7
  nowMs := 1000
  epoch := 1
  route adapter chain := if adapter = .ccip ∧ chain = "base" then some route else none
  stopped _ := none
  networkLimit _ := some ⟨10, 10⟩
  outflowLimits := none

attribute [local instance] crypto

/-- A message of the pool carries its amount alone. -/
def adapter : FamilyAdapter where
  decodeInbound route := do
    let amount ← readBe 16
    return ⟨id32 9, route.sourceChainId, route.localSelector, 1, id32 10, id32 11, coin.pool,
      coin.representationId, amount⟩
  encodeOutbound _ _ := .error "nothing leaves"
  decodeOutbound _ := fail "nothing leaves"
  outboundMessageId _ _ := .error "nothing leaves"

@[reducible] def json : Json where
  toVec _ := []
  toString _ := []
  fromSlice _ := .error "not an object"
  fromSliceMap _ := .error "not an object"
  isErrorObject _ := false

@[reducible] def env : RouteEnv where
  attestationDigest _ _ := []
  verifyCommittee _ _ _ _ := .ok ()
  checkExecution _ _ _ := .ok ()
  otherAdapter _ _ := some adapter
  lightClient _ := none
  issuerHook _ := none

@[reducible] def proofs : StoreProofs where
  verifyStoreEntry _ _ _ _ _ := .error "no proof"

attribute [local instance] json env proofs

def delivery : Bytes :=
  beBytes 8 7 ++ beBytes 8 1 ++ beBytes 8 2000 ++ writeBeBytes (beBytes 16 50) ++ writeBeBytes [] ++
    [0, 0, 0, 0]

def mint : Call := .admitInbound .ccip "base" delivery

theorem evaluated : route.validate = true ∧ min coin.mintLimit.perEpoch (networkCap g route) <
    ((outcomesAt 1 [⟨g, mint, (mint.perform g fun _ => none).1⟩]).map
      (CallResult.counted (route.mintKey (some coin)))).sum := by
  decide +kernel

theorem live : Live g route := ⟨rfl, evaluated.1⟩

theorem run : Run g [⟨g, mint, (mint.perform g fun _ => none).1⟩]
    (mint.perform g fun _ => none).2 :=
  Run.start.step mint
    { route := rfl, networkLimit := rfl, outflowLimits := rfl, time := by simp, epoch := by simp,
      epochFits := by decide }

theorem run_safe_mint : Run g [⟨g, mint, (mint.perform g fun _ => none).1⟩]
    (mint.perform g fun _ => none).2 ∧ RouteSafe g [⟨g, mint, (mint.perform g fun _ => none).1⟩]
      (mint.perform g fun _ => none).2 route :=
  ⟨run, (run_safe run).1 route live⟩

/-- The asset mints 50 in an epoch in which the network lets the route mint 10. -/
theorem mints_past_network_limit : ∃ past kv, Run g past kv ∧ Live g route ∧ coin ∈ route.assets ∧
    min coin.mintLimit.perEpoch (networkCap g route) <
      ((outcomesAt 1 past).map (CallResult.counted (route.mintKey (some coin)))).sum :=
  ⟨_, _, run, live, by decide, evaluated.2⟩

end AssetMint
end Tenzro.Bridge
