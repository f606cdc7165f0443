import Tenzro.BridgeRoute
import Tenzro.FixedWidth

set_option autoImplicit false

/-!
# Lanes over runs of draws

The functions that check a limit return the write that records it and write
nothing. Clocks may step back: a bucket keeps the latest second it has counted.
-/
namespace Tenzro.Bridge
open ByteCodec FixedWidth List

/-- What tells routes apart. -/
structure RouteName where
  adapter : BridgeRouteAdapter
  chain : String
deriving DecidableEq, Repr

def BridgeRoute.routeName (r : BridgeRoute) : RouteName := ⟨r.adapter, r.sourceChain⟩

def RouteName.fields (r : RouteName) : List String := ["bridge_route", r.adapter.asStr, r.chain]

inductive LaneDirection where
  | inbound
  | outbound
deriving DecidableEq, Repr

def LaneDirection.asStr : LaneDirection → String
  | .inbound => "inbound"
  | .outbound => "outbound"

/-- The keys of the records. -/
inductive RouteKey where
  | nonce (r : RouteName) (n : ℕ)
  | messageNonce (r : RouteName) (n : ℕ)
  | mintEpoch (r : RouteName)
  | assetMintEpoch (r : RouteName) (symbol : String)
  | outflow (unit : String)
  | supply (r : RouteName)
  | assetSupply (r : RouteName) (symbol : String)
  | sequence (r : RouteName)
  | messageSequence (r : RouteName)
  | outbound (r : RouteName) (n : ℕ)
  | outboundMessage (r : RouteName) (n : ℕ)
  | lane (d : LaneDirection) (r : RouteName)
  | assetLane (d : LaneDirection) (r : RouteName) (symbol : String)
  | utxos (r : RouteName) (anchor : Bytes)
  | lightClient (r : RouteName) (anchor : Bytes) (suffix : List String)
  | ibc (path : Bytes)
deriving DecidableEq, Repr

def RouteKey.fields : RouteKey → List String
  | .nonce r n => "bridge_nonce" :: r.fields ++ [toString n]
  | .messageNonce r n => "bridge_msg_nonce" :: r.fields ++ [toString n]
  | .mintEpoch r => "bridge_mint_epoch" :: r.fields
  | .assetMintEpoch r symbol => "bridge_mint_epoch" :: r.fields ++ [symbol]
  | .outflow unit => ["bridge_outflow_epoch", unit]
  | .supply r => "bridge_supply" :: r.fields
  | .assetSupply r symbol => "bridge_supply" :: r.fields ++ [symbol]
  | .sequence r => "bridge_out_seq" :: r.fields
  | .messageSequence r => "bridge_out_msg_seq" :: r.fields
  | .outbound r n => "bridge_out" :: r.fields ++ [toString n]
  | .outboundMessage r n => "bridge_out_msg" :: r.fields ++ [toString n]
  | .lane d r => "bridge_lane" :: d.asStr :: r.fields
  | .assetLane d r symbol => "bridge_lane" :: d.asStr :: r.fields ++ [symbol]
  | .utxos r anchor => "bridge_lc" :: r.fields ++ [hexEncode anchor, "utxos"]
  | .lightClient r anchor suffix => "bridge_lc" :: r.fields ++ hexEncode anchor :: suffix
  | .ibc path => ["ibc/" ++ hexEncode path]

def RouteKey.text (k : RouteKey) : String := ":".intercalate k.fields

structure OutflowCap where
  unit : String
  perEpoch : ℕ
deriving DecidableEq, Repr

/-- What the state view shows besides the records. -/
structure RouteView where
  localChainId : ℕ
  nowMs : ℤ
  epoch : ℕ
  route : BridgeRouteAdapter → String → Option BridgeRoute
  stopped : BridgeRoute → Option (BridgeRouteMode × String)
  networkLimit : BridgeRoute → Option MintRateLimit
  outflowLimits : Option (List OutflowCap)

abbrev Kv := String → Option Bytes

structure RouteState where
  view : RouteView
  kv : Kv

abbrev Write := RouteKey × Bytes

def refuse {α : Type} (msg : String) : Except String α := .error msg

namespace RouteState

def get (s : RouteState) (k : RouteKey) : Option Bytes := s.kv k.text

def put (s : RouteState) (writes : List Write) : RouteState :=
  { s with kv := writes.foldl (fun kv w => Function.update kv w.1.text (some w.2)) s.kv }

/-- Writes all or none: an empty value would read as absent. -/
def apply (s : RouteState) (writes : List Write) : Except String RouteState :=
  if writes.any (fun w => w.2.isEmpty) then
    refuse "an empty value reads as absent; route state never writes one"
  else .ok (s.put writes)

/-- Runs a plan: what it checked and returned, and its writes in one `apply` at the end. A call
that fails writes nothing. -/
def commit {α : Type} (s : RouteState) (plan : Except String (List Write × α)) :
    Except String α × RouteState :=
  match plan with
  | .error e => (.error e, s)
  | .ok (writes, a) =>
    match s.apply writes with
    | .error e => (.error e, s)
    | .ok s' => (.ok a, s')

def readU64 (s : RouteState) (k : RouteKey) : ℕ :=
  match s.get k with
  | some b => if b.length = 8 then ofBeBytes b else 0
  | none => 0

def mintedAt (s : RouteState) (k : RouteKey) (epoch : ℕ) : ℕ :=
  match s.get k with
  | none => 0
  | some b => if b.length = 24 ∧ b.take 8 = beBytes 8 epoch then ofBeBytes (b.drop 8) else 0

end RouteState

def epochRecord (epoch amount : ℕ) : Bytes := beBytes 8 epoch ++ beBytes 16 amount

/-! ### Epoch limits -/

structure EpochUsage where
  minted : ℕ
  remaining : ℕ
  limit : MintRateLimit
deriving DecidableEq, Repr

def withinEpochCap (used amount cap : ℕ) : Option ℕ :=
  if used + amount ≤ maxValue 128 ∧ used + amount ≤ cap then some (used + amount) else none

def mintAdmitted (minted amount : ℕ) (limit : MintRateLimit) : Option ℕ :=
  if limit.perMint < amount then none else withinEpochCap minted amount limit.perEpoch

def consumeAt (s : RouteState) (key : RouteKey) (what : String) (limit : MintRateLimit)
    (amount : ℕ) : Except String (Write × EpochUsage) :=
  if limit.perMint < amount then
    refuse s!"mint of {amount} exceeds the {what} route's cap of {limit.perMint} per mint"
  else
    let minted := s.mintedAt key s.view.epoch
    match mintAdmitted minted amount limit with
    | none => refuse s!"mint of {amount} would take the {what} route past its limit of {limit.perEpoch} this epoch ({minted} minted); retry next epoch"
    | some after =>
      .ok ((key, epochRecord s.view.epoch after), ⟨after, limit.perEpoch - after, limit⟩)

def consumeEpoch (s : RouteState) (route : BridgeRoute) (network : MintRateLimit) (amount : ℕ) :
    Except String (Write × EpochUsage) :=
  consumeAt s (.mintEpoch route.routeName) route.storageKey (route.mintLimit.tightest network)
    amount

def consumeAssetEpoch (s : RouteState) (route : BridgeRoute) (asset : CarriedAsset) (amount : ℕ) :
    Except String (Write × EpochUsage) :=
  consumeAt s (.assetMintEpoch route.routeName asset.symbol)
    s!"{route.storageKey} {asset.symbol}" asset.mintLimit amount

def outflowCap (s : RouteState) (unit : String) : Option ℕ :=
  s.view.outflowLimits.bind fun caps => (caps.find? (fun c => c.unit = unit)).map OutflowCap.perEpoch

def consumeOutflow (s : RouteState) (unit : String) (amount : ℕ) : Except String Write :=
  match outflowCap s unit with
  | none => refuse s!"no network outflow cap names {unit}; nothing in it may leave"
  | some perEpoch =>
    let sent := s.mintedAt (.outflow unit) s.view.epoch
    match withinEpochCap sent amount perEpoch with
    | none => refuse s!"sending {amount} {unit} would take the network past its outflow cap of {perEpoch} this epoch ({sent} sent over all routes); retry next epoch"
    | some after => .ok (.outflow unit, epochRecord s.view.epoch after)

/-! ### Supply records -/

/-- What is locked for a route and the representation outstanding against it. -/
structure SupplyRecord where
  locked : ℕ := 0
  bridged : ℕ := 0
deriving DecidableEq, Repr

namespace SupplyRecord

def encode (r : SupplyRecord) : Bytes := beBytes 16 r.locked ++ beBytes 16 r.bridged

def decode (b : Bytes) : Option SupplyRecord :=
  if b.length = 32 then some ⟨ofBeBytes (b.take 16), ofBeBytes (b.drop 16)⟩ else none

def afterLock (r : SupplyRecord) (amount : ℕ) : Option SupplyRecord :=
  if r.locked + amount ≤ maxValue 128 ∧ r.bridged + amount ≤ maxValue 128 ∧
      r.bridged + amount ≤ r.locked + amount then
    some ⟨r.locked + amount, r.bridged + amount⟩
  else none

def afterRelease (r : SupplyRecord) (amount : ℕ) : Option SupplyRecord :=
  if amount ≤ r.locked ∧ amount ≤ r.bridged ∧ r.bridged - amount ≤ r.locked - amount then
    some ⟨r.locked - amount, r.bridged - amount⟩
  else none

def lockAndMint (r : SupplyRecord) (amount : ℕ) (route : BridgeRoute) :
    Except String SupplyRecord :=
  match r.afterLock amount with
  | some r => .ok r
  | none => refuse s!"supply invariant: locking {amount} more overflows on route {route.storageKey}; refused"

def release (r : SupplyRecord) (amount : ℕ) (route : BridgeRoute) : Except String SupplyRecord :=
  match r.afterRelease amount with
  | some r => .ok r
  | none => refuse s!"supply invariant: {amount} exceeds the {r.bridged} outstanding on the external chain on route {route.storageKey}; refused"

end SupplyRecord

def RouteState.supplyAt (s : RouteState) (k : RouteKey) : SupplyRecord :=
  ((s.get k).bind SupplyRecord.decode).getD {}

def readSupply (s : RouteState) (route : BridgeRoute) : SupplyRecord :=
  s.supplyAt (.supply route.routeName)

def readAssetSupply (s : RouteState) (route : BridgeRoute) (asset : CarriedAsset) : SupplyRecord :=
  s.supplyAt (.assetSupply route.routeName asset.symbol)

/-! ### Lane buckets -/

structure LaneBucket where
  tokens : ℕ
  capacity : ℕ
  rate : ℕ
  lastUpdated : ℕ
deriving DecidableEq, Repr

namespace LaneBucket

def encode (b : LaneBucket) : Bytes := beBytes 16 b.tokens ++ beBytes 8 b.lastUpdated

def refill (stored : Option (ℕ × ℕ)) (now : ℕ) (limit : LaneRateLimit) : LaneBucket :=
  let (tokens, last) := stored.getD (limit.capacity, now)
  let refilled := saturatingAdd 128 tokens (saturatingMul 128 (now - last) limit.rate)
  { tokens := min refilled limit.capacity, capacity := limit.capacity, rate := limit.rate,
    lastUpdated := max now last }

def take (b : LaneBucket) (amount : ℕ) : Option LaneBucket :=
  if b.capacity < amount then none
  else if amount ≤ b.tokens then some { b with tokens := b.tokens - amount }
  else none

end LaneBucket

def RouteState.nowSecs (s : RouteState) : ℕ := (s.view.nowMs.tdiv 1000).toNat

def bucketAt (s : RouteState) (key : RouteKey) (limit : LaneRateLimit) : LaneBucket :=
  let stored := match s.get key with
    | some b => if b.length = 24 then some (ofBeBytes (b.take 16), ofBeBytes (b.drop 16)) else none
    | none => none
  LaneBucket.refill stored s.nowSecs limit

def draw (bucket : LaneBucket) (amount : ℕ) (direction : LaneDirection) (what : String) :
    Except String LaneBucket :=
  if bucket.capacity < amount then
    refuse s!"{amount} exceeds the {direction.asStr} lane capacity of {bucket.capacity} on route {what}"
  else
    match bucket.take amount with
    | some b => .ok b
    | none => refuse s!"the {direction.asStr} lane of route {what} holds {bucket.tokens} now"

def consumeBucket (s : RouteState) (key : RouteKey) (limit : Option LaneRateLimit)
    (direction : LaneDirection) (what : String) (amount : ℕ) : Except String (List Write) :=
  match limit with
  | none => .ok []
  | some limit => do
    let b ← draw (bucketAt s key limit) amount direction what
    return [(key, b.encode)]

def consumeLane (s : RouteState) (route : BridgeRoute) (direction : LaneDirection) (amount : ℕ) :
    Except String (List Write) :=
  let limit := match direction with
    | .inbound => route.laneLimits.map CcipLane.inbound
    | .outbound => some route.outflow
  consumeBucket s (.lane direction route.routeName) limit direction route.storageKey amount

def consumeAssetLane (s : RouteState) (route : BridgeRoute) (asset : CarriedAsset)
    (direction : LaneDirection) (amount : ℕ) : Except String (List Write) :=
  let limit := match direction with
    | .inbound => asset.lane
    | .outbound => some asset.outflow
  consumeBucket s (.assetLane direction route.routeName asset.symbol) limit direction
    s!"{route.storageKey} {asset.symbol}" amount

/-! ### Transfers -/

/-- A transfer message in family-neutral form. -/
structure RouteMessage where
  messageId : Bytes
  sourceSelector : ℕ
  destSelector : ℕ
  sequence : ℕ
  sender : Bytes
  receiver : Bytes
  tokenPool : Bytes
  token : Bytes
  amount : ℕ
deriving DecidableEq, Repr

structure OutboundTransfer where
  sender : Bytes
  recipient : Bytes
  amount : ℕ
  asset : Option String
deriving DecidableEq, Repr

open Outcome

/-- The tokens and the second they were counted, if anything was stored. -/
abbrev LaneStore := Option (ℕ × ℕ)

structure LaneDraw where
  time : ℕ
  amount : ℕ

def LaneBucket.stored (b : LaneBucket) : ℕ × ℕ := (b.tokens, b.lastUpdated)

namespace LaneRateLimit
variable (limit : LaneRateLimit)

def draw (s : LaneStore) (d : LaneDraw) : LaneStore × ℕ :=
  match (LaneBucket.refill s d.time limit).take d.amount with
  | some b => (some b.stored, d.amount)
  | none => (s, 0)

def after (s : LaneStore) (draws : List LaneDraw) : LaneStore :=
  draws.foldl (fun s d => (limit.draw s d).1) s

def takes : LaneStore → List LaneDraw → List (ℕ × ℕ)
  | _, [] => []
  | s, d :: draws => (d.time, (limit.draw s d).2) :: takes (limit.draw s d).1 draws

def taken (s : LaneStore) (draws : List LaneDraw) : ℕ := ((limit.takes s draws).map Prod.snd).sum

end LaneRateLimit

/-! ### One draw -/

section
variable {limit : LaneRateLimit} {s : LaneStore} {d : LaneDraw}

theorem LaneBucket.take_ok {b b' : LaneBucket} {amount : ℕ} :
    b.take amount = some b' ↔ amount ≤ b.capacity ∧ amount ≤ b.tokens ∧
      b' = { b with tokens := b.tokens - amount } := by
  unfold LaneBucket.take
  split_ifs with above covered
  · exact ⟨nofun, fun h => absurd h.1 (by omega)⟩
  · exact ⟨fun h => ⟨by omega, covered, (Option.some.inj h).symm⟩, fun h => by rw [h.2.2]⟩
  · exact ⟨nofun, fun h => absurd h.2.1 covered⟩

/-- A bucket is never fuller than what was stored and what came in since, nor than its capacity. -/
theorem refill_bounds (limit : LaneRateLimit) (tokens last now : ℕ) :
    (LaneBucket.refill (some (tokens, last)) now limit).tokens ≤ tokens + limit.rate * (now - last) ∧
    (LaneBucket.refill (some (tokens, last)) now limit).lastUpdated = max now last := by
  refine ⟨?_, rfl⟩
  unfold LaneBucket.refill saturatingAdd saturatingMul
  simp only [Option.getD_some]
  rw [Nat.mul_comm limit.rate]
  omega

theorem refill_le (limit : LaneRateLimit) (s : LaneStore) (now : ℕ) :
    (LaneBucket.refill s now limit).tokens ≤ limit.capacity := min_le_right _ _

theorem now_le_refill (limit : LaneRateLimit) (s : LaneStore) (now : ℕ) :
    now ≤ (LaneBucket.refill s now limit).lastUpdated := le_max_left _ _

theorem draw_cases (limit : LaneRateLimit) (s : LaneStore) (d : LaneDraw) :
    limit.draw s d = (s, 0) ∨ ∃ tokens last, limit.draw s d = (some (tokens, last), d.amount) ∧
      tokens + d.amount = (LaneBucket.refill s d.time limit).tokens ∧
      last = (LaneBucket.refill s d.time limit).lastUpdated := by
  unfold LaneRateLimit.draw
  cases took : (LaneBucket.refill s d.time limit).take d.amount with
  | none => exact .inl rfl
  | some b =>
    obtain ⟨-, covered, rfl⟩ := LaneBucket.take_ok.1 took
    exact .inr ⟨_, _, rfl, Nat.sub_add_cancel covered, rfl⟩

end

/-! ### Runs -/

section
variable {limit : LaneRateLimit} {s : LaneStore} {start finish : ℕ}

theorem taken_cons (d : LaneDraw) (draws : List LaneDraw) : limit.taken s (d :: draws) =
    (limit.draw s d).2 + limit.taken (limit.draw s d).1 draws := rfl

theorem taken_stored (draws : List LaneDraw) (tokens last : ℕ)
    (early : ∀ d ∈ draws, d.time ≤ finish) :
    limit.taken (some (tokens, last)) draws ≤ tokens + limit.rate * (finish - last) := by
  induction draws generalizing tokens last with
  | nil => exact Nat.zero_le _
  | cons d draws ih =>
    obtain ⟨now, early⟩ := forall_mem_cons.1 early
    obtain ⟨filled, counted⟩ := refill_bounds limit tokens last d.time
    rw [taken_cons]
    rcases draw_cases limit (some (tokens, last)) d with refused | ⟨left, at_last, took, parts, rfl⟩
    · rw [refused, Nat.zero_add]
      exact ih tokens last early
    · have rest := ih left (LaneBucket.refill (some (tokens, last)) d.time limit).lastUpdated early
      have spans : d.time - last + (finish - max d.time last) ≤ finish - last := by omega
      have filling := Nat.mul_le_mul_left limit.rate spans
      rw [counted] at rest
      rw [Nat.mul_add] at filling
      rw [took, counted]
      simp only
      omega

theorem taken_le (draws : List LaneDraw) (s : LaneStore)
    (times : ∀ d ∈ draws, start ≤ d.time ∧ d.time ≤ finish) :
    limit.taken s draws ≤ limit.capacity + limit.rate * (finish - start) := by
  induction draws generalizing s with
  | nil => exact Nat.zero_le _
  | cons d draws ih =>
    obtain ⟨⟨late, -⟩, times⟩ := forall_mem_cons.1 times
    rw [taken_cons]
    rcases draw_cases limit s d with refused | ⟨left, last, took, parts, rfl⟩
    · rw [refused, Nat.zero_add]
      exact ih s times
    · have rest : limit.taken (some (left, (LaneBucket.refill s d.time limit).lastUpdated)) draws ≤ _ :=
        taken_stored draws left _ fun d mem => (times d mem).2
      have full := refill_le limit s d.time
      have counted := now_le_refill limit s d.time
      have filling : limit.rate * (finish - (LaneBucket.refill s d.time limit).lastUpdated) ≤
          limit.rate * (finish - start) := Nat.mul_le_mul_left _ (by omega)
      rw [took]
      simp only
      omega

theorem after_append (draws : List LaneDraw) (d : LaneDraw) :
    limit.after s (draws ++ [d]) = (limit.draw (limit.after s draws) d).1 := by
  rw [LaneRateLimit.after, foldl_append]
  rfl

theorem after_cases (draws : List LaneDraw) (s : LaneStore) (early : ∀ d ∈ draws, d.time ≤ finish)
    (counted : ∀ e ∈ s, e.2 ≤ finish) : limit.after s draws = s ∨
      ∃ tokens ≤ limit.capacity, ∃ last ≤ finish, limit.after s draws = some (tokens, last) := by
  induction draws using reverseRecOn with
  | nil => exact .inl rfl
  | append_singleton draws d ih =>
    obtain ⟨before, now⟩ := forall_mem_append.1 early
    have now := now d (mem_singleton_self d)
    have stored : ∀ e ∈ limit.after s draws, e.2 ≤ finish := by
      rcases ih before with same | ⟨tokens, -, last, late, same⟩
      · rwa [same]
      · rw [same]
        intro e own
        rw [← Option.some.inj own]
        exact late
    rw [after_append]
    rcases draw_cases limit (limit.after s draws) d with refused | ⟨left, last, took, parts, rfl⟩
    · rw [refused]
      exact ih before
    · have full := refill_le limit (limit.after s draws) d.time
      refine .inr ⟨left, by omega, _, ?_, by rw [took]⟩
      cases here : limit.after s draws with
      | none =>
        change max d.time d.time ≤ finish
        omega
      | some e =>
        have late := stored e here
        change max d.time e.2 ≤ finish
        omega

end

/-! ### The stored bucket -/

def storedLane (b : Option Bytes) : LaneStore :=
  match b with
  | some b => if b.length = 24 then some (ofBeBytes (b.take 16), ofBeBytes (b.drop 16)) else none
  | none => none

theorem storedLane_encode {b : LaneBucket} (tokens : b.tokens < 2 ^ 128)
    (last : b.lastUpdated < 2 ^ 64) : storedLane (some b.encode) = some b.stored := by
  have size : (beBytes 16 b.tokens).length = 16 := length_beBytes ..
  have whole : b.encode.length = 24 := by simp [LaneBucket.encode]
  unfold storedLane
  simp only [whole, if_true]
  rw [LaneBucket.encode, take_left' size, drop_left' size,
    ofBeBytes_beBytes (by omega), ofBeBytes_beBytes (by omega)]
  rfl

theorem consumeBucket_draws (s : RouteState) (key : RouteKey) (limit : LaneRateLimit)
    (direction : LaneDirection) (what : String) (amount : ℕ) :
    (∃ b : LaneBucket, consumeBucket s key (some limit) direction what amount = .ok [(key, b.encode)] ∧
      limit.draw (storedLane (s.get key)) ⟨s.nowSecs, amount⟩ = (some b.stored, amount)) ∨
    ∃ e, consumeBucket s key (some limit) direction what amount = .error e ∧
      limit.draw (storedLane (s.get key)) ⟨s.nowSecs, amount⟩ = (storedLane (s.get key), 0) := by
  have bucket : bucketAt s key limit =
    LaneBucket.refill (storedLane (s.get key)) s.nowSecs limit := rfl
  unfold LaneRateLimit.draw consumeBucket Bridge.draw
  simp only [← bucket]
  cases took : (bucketAt s key limit).take amount with
  | none =>
    right
    split_ifs
    · exact ⟨_, rfl, rfl⟩
    · exact ⟨_, rfl, rfl⟩
  | some b =>
    left
    have within := (LaneBucket.take_ok.1 took).1
    rw [if_neg (not_lt.2 within)]
    exact ⟨b, rfl, rfl⟩

/-- Consecutive draws take at most the capacity and what comes in meanwhile. Every bucket is within
the capacity and its fields fit, and a refused draw changes nothing. -/
theorem lane_bound (limit : LaneRateLimit) (s : LaneStore) (before window : List LaneDraw) :
    (∀ start finish : ℕ, (∀ d ∈ window, start ≤ d.time ∧ d.time ≤ finish) →
      limit.taken (limit.after s before) window ≤
        limit.capacity + limit.rate * (finish - start)) ∧
    (∀ now, (LaneBucket.refill (limit.after s before) now limit).tokens ≤ limit.capacity) ∧
    (limit.capacity < 2 ^ 128 → (∀ e ∈ s, e.2 < 2 ^ 64) → (∀ d ∈ before, d.time < 2 ^ 64) →
      limit.after s before = s ∨ ∃ tokens ≤ limit.capacity, ∃ last < 2 ^ 64,
        limit.after s before = some (tokens, last) ∧
        storedLane (some (LaneBucket.encode ⟨tokens, limit.capacity, limit.rate, last⟩)) =
          some (tokens, last)) ∧
    ∀ d, (LaneBucket.refill (limit.after s before) d.time limit).take d.amount = none →
      limit.after s (before ++ [d]) = limit.after s before := by
  refine ⟨fun start finish times => taken_le window _ times, fun now => refill_le limit _ now,
    fun fits counted early => ?_, fun d refused => ?_⟩
  · have stored : limit.after s before = s ∨ ∃ tokens ≤ limit.capacity, ∃ last ≤ 2 ^ 64 - 1,
        limit.after s before = some (tokens, last) :=
      after_cases before s (fun d mem => Nat.le_sub_one_of_lt (early d mem))
        (fun e own => Nat.le_sub_one_of_lt (counted e own))
    rcases stored with same | ⟨tokens, full, last, late, same⟩
    · exact .inl same
    · exact .inr ⟨tokens, full, last, by omega, same,
        storedLane_encode (b := ⟨tokens, limit.capacity, limit.rate, last⟩)
          (full.trans_lt fits) (by simp only; omega)⟩
  · rw [after_append, LaneRateLimit.draw, refused]

/-- A bucket of 10 that fills by 1 a second: three draws in a row take the 13 that came in. -/
theorem lane_bound_three :
    (LaneRateLimit.taken ⟨10, 1⟩ none [⟨5, 10⟩, ⟨7, 2⟩, ⟨8, 1⟩]) ≤ 10 + 1 * (8 - 5) :=
  (lane_bound ⟨10, 1⟩ none [] [⟨5, 10⟩, ⟨7, 2⟩, ⟨8, 1⟩]).1 5 8 (by simp)

/-- Between two draws at one time, a draw at a later time can fill the bucket again; and what was
stored first may be over the capacity. -/
theorem drawn_twice_at_one_time :
    ¬ ∀ (limit : LaneRateLimit) (s : LaneStore) (draws : List LaneDraw),
      (∀ start finish : ℕ, (((limit.takes s draws).filter fun e => start ≤ e.1 ∧ e.1 ≤ finish).map
        Prod.snd).sum ≤ limit.capacity + limit.rate * (finish - start)) ∧
      ∀ e ∈ limit.after s draws, e.1 ≤ limit.capacity := by
  intro bound
  have again := (bound ⟨10, 1⟩ none [⟨0, 10⟩, ⟨100, 0⟩, ⟨0, 10⟩]).1 0 0
  revert again
  decide

end Tenzro.Bridge
