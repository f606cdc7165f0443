import Tenzro.BitcoinChain
import Tenzro.RouteVault

set_option autoImplicit false

/-!
# Following the chain with the most work

Whatever updates arrive, the client holds one chain, gains work with each update it accepts
and never looks above its tip.
-/
namespace Tenzro.Bridge
open ByteCodec FixedWidth Outcome HeightStore

/-! ### The same continuation -/

theorem require_bind_congr {α : Type} {p : Prop} [Decidable p] {msg : String} {f g : Unit → Read α}
    (h : p → f () = g ()) : (require p msg >>= f) = (require p msg >>= g) := by
  unfold require
  split_ifs with holds
  · exact h holds
  · rfl

theorem ensure_bind_congr {α : Type} {p : Prop} [Decidable p] {msg : String}
    {f g : Unit → Except String α} (h : p → f () = g ()) :
    (ensure p msg >>= f) = (ensure p msg >>= g) := by
  unfold ensure
  split_ifs with holds
  · exact h holds
  · rfl

theorem ok_bind {α β : Type} {a : α} {f : α → Except String β} : (.ok a >>= f) = f a := rfl

theorem liftRead_bind {α β : Type} {a : α} {f : α → Read β} : (liftRead (.ok a) >>= f) = f a := rfl

namespace BitcoinLightClient

section
variable [RouteCrypto] {s s' : RouteState} {route : BridgeRoute} {anchor : LightClientAnchor}

/-! ### Records above the tip -/

/-- The same records as far as a chain goes. -/
structure AgreeUpTo (s s' : RouteState) (route : BridgeRoute) (anchor : LightClientAnchor) (n : ℕ) :
    Prop where
  tip : s'.get (tipKey route anchor) = s.get (tipKey route anchor)
  records : ∀ m ≤ n, s'.get (recordKey route anchor m) = s.get (recordKey route anchor m)

variable {n : ℕ} (agree : AgreeUpTo s s' route anchor n)

include agree

theorem record_agree {m : ℕ} (low : m ≤ n) : record s' route anchor m = record s route anchor m := by
  simp only [record, agree.records m low]

theorem tip_agree {r : Record} (h : tip s route anchor = .ok (some (n, r))) :
    tip s' route anchor = tip s route anchor := by
  unfold tip at h ⊢
  rw [agree.tip]
  cases found : s.get (tipKey route anchor) with
  | none => rfl
  | some b =>
    simp only [found, bind_ok, ensure_ok, exists_const] at h
    obtain ⟨-, stored, -, h⟩ := h
    cases stored with
    | none => cases h
    | some _ =>
      cases pure_ok.1 h
      simp only [record_agree agree (le_refl _)]

theorem expectedBits_agree {m : ℕ} {pending : List (ℕ × Record)} {parent : Record}
    (low : m ≤ n + retargetInterval) :
    expectedBits s' route anchor pending m parent = expectedBits s route anchor pending m parent := by
  have first : known s' route anchor pending (m - retargetInterval) =
      known s route anchor pending (m - retargetInterval) := by
    unfold known
    rw [record_agree agree (by omega)]
  simp only [expectedBits, first]

theorem readHeaders_agree {k m : ℕ} {pending : List (ℕ × Record)} {parent : Record}
    (low : m + k ≤ n + retargetInterval + 1) :
    readHeaders s' route anchor k m parent pending =
      readHeaders s route anchor k m parent pending := by
  induction k generalizing m parent pending with
  | zero => rfl
  | succ k ih =>
    have next (r : Record) (pending : List (ℕ × Record)) :
        readHeaders s' route anchor k (m + 1) r pending =
          readHeaders s route anchor k (m + 1) r pending := ih (by omega)
    simp only [readHeaders, expectedBits_agree agree (show m ≤ _ by omega), next]

theorem build_agree {a : Anchor} {r : Record} (h : tip s route anchor = .ok (some (n, r))) :
    build s' route anchor a = build s route anchor a := by
  unfold build
  rw [tip_agree agree h, h]
  congr 1
  funext parentHeight
  congr 1
  funext k
  apply require_bind_congr
  rintro ⟨-, few⟩
  simp only [maxHeadersPerUpdate] at few
  simp only [liftRead_bind]
  apply require_bind_congr
  rintro ⟨-, low⟩
  rw [record_agree agree low]
  congr 1
  funext stored
  cases stored with
  | none => rfl
  | some parent =>
    simp only [readHeaders_agree agree (show parentHeight + 1 + k ≤ n + retargetInterval + 1 by
      unfold retargetInterval
      omega)]

theorem advance_agree {r : Record} {update : Bytes}
    (h : tip s route anchor = .ok (some (n, r))) :
    advance s' route anchor update = advance s route anchor update := by
  simp only [advance, bootstrap, tip_agree agree h, build_agree agree h]

theorem verify_agree {r : Record} {body proof : Bytes}
    (h : tip s route anchor = .ok (some (n, r))) :
    verify s' route anchor body proof = verify s route anchor body proof := by
  have proves : proveInclusion s' route anchor proof = proveInclusion s route anchor proof := by
    unfold proveInclusion
    rw [tip_agree agree h, h]
    simp only [ok_bind]
    congr 1
    funext a
    congr 1
    funext parts
    congr 1
    funext deposit
    congr 1
    funext tx
    congr 1
    funext fitted
    congr 1
    funext node
    congr 1
    funext climbed
    apply ensure_bind_congr
    intro low
    rw [record_agree agree low]
  simp only [verify, proves]


theorem head_agree {r : Record} (h : tip s route anchor = .ok (some (n, r))) :
    head s' route anchor = head s route anchor := by
  simp only [head, tip_agree agree h]

end

/-! ### Runs of updates -/

section
variable [RouteCrypto] {s : RouteState} {route : BridgeRoute} {anchor : LightClientAnchor} {base : ℕ}
  {hash : Bytes}

def after (s : RouteState) (route : BridgeRoute) (anchor : LightClientAnchor)
    (updates : List Bytes) : RouteState :=
  updates.foldl (fun s update => (applyUpdate s route anchor update).2) s

structure HeadersSound (s : RouteState) (route : BridgeRoute) (anchor : LightClientAnchor)
    (base : ℕ) (hash : Bytes) : Prop where
  synced : Synced s route anchor base hash
  /-- What lies above the tip changes no answer. -/
  unread : ∀ chain, BestChain s route anchor base hash chain →
    ∀ s', AgreeUpTo s s' route anchor (HeightStore.height base chain) →
      (∀ update, advance s' route anchor update = advance s route anchor update) ∧
      (∀ body proof, verify s' route anchor body proof = verify s route anchor body proof) ∧
      head s' route anchor = head s route anchor
  accepted : ∀ update s', applyUpdate s route anchor update = (.ok (), s') →
    Advanced s s' route anchor base hash
  refused : ∀ update e s', applyUpdate s route anchor update = (.error e, s') → s' = s

theorem applyUpdate_error {update : Bytes} {e : String} {s' : RouteState}
    (h : applyUpdate s route anchor update = (.error e, s')) : s' = s := by
  unfold applyUpdate RouteState.commit at h
  split at h
  · cases h
    rfl
  · split at h <;> cases h
    rfl

theorem Advanced.synced {s' : RouteState} (h : Advanced s s' route anchor base hash) :
    Synced s' route anchor base hash := by
  cases h with
  | bootstrapped header fresh best => exact .inr ⟨_, best⟩
  | built chain part new old suffix shared longer heavier best => exact .inr ⟨_, best⟩

/-- From any records without a tip, whatever updates arrive. -/
theorem headers_sound {confirmations threshold feeRate : ℕ} {signers : List Bytes}
    (valid : route.validate = true)
    (anchored : anchor = .bitcoinHeaders base hash confirmations signers threshold feeRate)
    (boundary : base % retargetInterval = 0) (narrow : base < 2 ^ 64)
    (fresh : tip s route anchor = .ok none) (updates : List Bytes) :
    HeadersSound (after s route anchor updates) route anchor base hash := by
  have clean : ColonFree route.routeName.chain := (BridgeRoute.ruled_of_validate valid).chain
  have synced : Synced (after s route anchor updates) route anchor base hash := by
    induction updates using List.reverseRecOn with
    | nil => exact .inl fresh
    | append_singleton updates update ih =>
      rw [after, List.foldl_append]
      change Synced (applyUpdate (after s route anchor updates) route anchor update).2 _ _ _ _
      cases applied : applyUpdate (after s route anchor updates) route anchor update with
      | mk result s' =>
        cases result with
        | error e =>
          rw [applyUpdate_error applied]
          exact ih
        | ok done =>
          exact (applyUpdate_ok clean anchored boundary narrow ih applied).synced
  constructor
  case synced => exact synced
  case unread =>
    intro chain best s' agree
    exact ⟨fun update => advance_agree agree best.tip,
      fun body proof => verify_agree agree best.tip, head_agree agree best.tip⟩
  case accepted => exact fun update s' => applyUpdate_ok clean anchored boundary narrow synced
  case refused => exact fun update e s' => applyUpdate_error

end
/-! ### An anchor without proof of work -/

namespace UncheckedAnchor

open ManyDeposits (crypto g route script)
open AssetMint (id32)

attribute [local instance] crypto

def s : RouteState := ⟨g, fun _ => none⟩

/-- Far above its target. -/
def trusted : BlockHeader := ⟨1, id32 0, id32 1, 0, powLimitBits, 0xffffffff⟩

def next : BlockHeader := ⟨1, trusted.hash, id32 2, 600, powLimitBits, 0⟩

def anchor : LightClientAnchor := .bitcoinHeaders 0 trusted.hash 6 [id32 1] 1 1

def anchored : BridgeRoute := { route with lightClient := some anchor }

def start : Bytes := 0 :: trusted.encode

def step : Bytes := 1 :: (beBytes 8 0 ++ (beBytes 2 1 ++ next.encode))

/-- The client starts from a header that misses its own target. -/
theorem unproven : anchored.validate = true ∧ tip s anchored anchor = .ok none ∧
    (applyUpdate s anchored anchor start).1 = .ok () ∧
    record (applyUpdate s anchored anchor start).2 anchored anchor 0 =
      .ok (some ⟨trusted.hash, workOf trusted.bits, trusted.bits, trusted.time⟩) ∧
    targetOf trusted.bits < ofLeBytes trusted.hash := by
  decide +kernel

theorem next_accepted : tip (after s anchored anchor [start, step]) anchored anchor =
    .ok (some (1, recordOf [next, trusted])) := by
  decide +kernel

/-- A bootstrap and an extension. -/
theorem headers_sound_extended :
    tip (after s anchored anchor [start, step]) anchored anchor =
      .ok (some (1, recordOf [next, trusted])) ∧
    HeadersSound (after s anchored anchor [start, step]) anchored anchor 0 trusted.hash :=
  ⟨next_accepted, headers_sound unproven.1 rfl rfl (by norm_num) unproven.2.1 [start, step]⟩

end UncheckedAnchor
end BitcoinLightClient
end Tenzro.Bridge
