import Tenzro.RouteRuns

set_option autoImplicit false

/-!
# Epoch limits over runs

What is counted under a key in an epoch stays within the limit set for it.
-/
namespace Tenzro.Bridge
open ByteCodec FixedWidth Outcome Option

def CallResult.counted (key : RouteKey) : CallResult → ℕ
  | .admitted route t => if route.mintKey t.asset = key then t.message.amount else 0
  | .sent route out =>
    if (exitUnit route out.asset).toOption.map RouteKey.outflow = some key then out.message.amount
    else 0
  | _ => 0

/-! ### Records of an epoch -/

section
variable {s : RouteState} {writes : List Write} {key : RouteKey}

theorem mintedAt_put (clean : key.Clean) (all : ∀ w ∈ writes, w.1.Clean) {epoch : ℕ} :
    (s.put writes).mintedAt key epoch =
      ((written writes key).elim (s.mintedAt key epoch) fun b =>
        if b.length = 24 ∧ b.take 8 = beBytes 8 epoch then ofBeBytes (b.drop 8) else 0) := by
  unfold RouteState.mintedAt
  rw [RouteState.put_get clean all]
  cases written writes key <;> simp

theorem epochRecord_read {epoch other amount : ℕ} (fits : amount ≤ maxValue 128)
    (he : epoch ≤ maxValue 64) (ho : other ≤ maxValue 64) :
    (if (epochRecord epoch amount).length = 24 ∧ (epochRecord epoch amount).take 8 = beBytes 8 other
      then ofBeBytes ((epochRecord epoch amount).drop 8) else 0) =
      if epoch = other then amount else 0 := by
  have size : (beBytes 8 epoch).length = 8 := length_beBytes ..
  have front : (epochRecord epoch amount).take 8 = beBytes 8 epoch := List.take_left' size
  have back : (epochRecord epoch amount).drop 8 = beBytes 16 amount := List.drop_left' size
  have whole : (epochRecord epoch amount).length = 24 := by simp [epochRecord]
  unfold maxValue at fits he ho
  rw [front, back, ofBeBytes_beBytes (by omega)]
  by_cases same : epoch = other
  · rw [if_pos same, if_pos ⟨whole, by rw [same]⟩]
  · rw [if_neg same, if_neg fun h => same (beBytes_injective (by omega) (by omega) h.2)]

/-- The writes leave the total alone, or count the amount within the cap. -/
inductive EpochMove (s : RouteState) (writes : List Write) (key : RouteKey) (cap : ℕ) : ℕ → Prop where
  | still (none : written writes key = none) : EpochMove s writes key cap 0
  | counts {amount : ℕ} {w : Write} (counts : Counts s key amount cap w)
      (write : written writes key = some w.2) : EpochMove s writes key cap amount

end

/-- The record under the key in the running epoch, and the bound on every epoch. -/
structure Metered (past : List Event) (s : RouteState) (key : RouteKey) (cap : ℕ) : Prop where
  record : ∀ epoch ≤ maxValue 64, (∀ e ∈ past, e.view.epoch ≤ epoch) →
    s.mintedAt key epoch = ((outcomesAt epoch past).map (CallResult.counted key)).sum
  within : ∀ epoch, ((outcomesAt epoch past).map (CallResult.counted key)).sum ≤ cap

theorem outcomesAt_later {past : List Event} {epoch : ℕ}
    (h : ∀ e ∈ past, e.view.epoch < epoch) :
    outcomesAt epoch past = [] := by
  unfold outcomesAt
  rw [List.filter_eq_nil_iff.2]
  · rfl
  · intro e mem
    have := h e mem
    simp
    omega

theorem Metered.step {g : RouteView} {past : List Event} {kv : Kv} {key : RouteKey} {cap : ℕ} {v : RouteView} {c : Call} {writes : List Write} {result : CallResult}
    (h : Metered past ⟨v, kv⟩ key cap) (next : Continues g past v)
    (move : EpochMove ⟨v, kv⟩ writes key cap (result.counted key)) (clean : key.Clean)
    (all : ∀ w ∈ writes, w.1.Clean) :
    Metered (past ++ [⟨v, c, .ok result⟩]) (RouteState.put ⟨v, kv⟩ writes) key cap := by
  have here := h.record v.epoch next.epochFits next.epoch
  generalize total : result.counted key = amount at move
  have same (epoch : ℕ) :
      ((outcomesAt epoch (past ++ [⟨v, c, .ok result⟩])).map (CallResult.counted key)).sum =
        ((outcomesAt epoch past).map (CallResult.counted key)).sum +
          if v.epoch = epoch then amount else 0 := by
    rw [outcomesAt_ok]
    split_ifs <;> simp [total]
  cases move with
  | still none =>
    simp only [ite_self, Nat.add_zero] at same
    constructor
    · intro epoch fits last
      rw [mintedAt_put clean all, none, elim_none, same]
      exact h.record epoch fits fun e mem => last e (by simp [mem])
    · intro epoch
      rw [same]
      exact h.within epoch
  | @counts _ w counts write =>
    obtain ⟨within, fits, rfl⟩ := counts
    have total : RouteState.mintedAt ⟨v, kv⟩ key v.epoch =
        ((outcomesAt v.epoch past).map (CallResult.counted key)).sum := here
    constructor
    · intro epoch small last
      rw [mintedAt_put clean all, write, elim_some,
        epochRecord_read fits next.epochFits small, same, total]
      split_ifs with now
      · rw [now]
      · have later : ∀ e ∈ past, e.view.epoch < epoch := by
          intro e mem
          have before := next.epoch e mem
          have notAfter : v.epoch ≤ epoch := last ⟨v, c, .ok result⟩ (by simp)
          omega
        simp [outcomesAt_later later]
    · intro epoch
      rw [same]
      split_ifs with now
      · subst now
        rw [← total]
        exact within
      · exact h.within epoch

/-! ### Runs -/

theorem mintCap_continues {g : RouteView} {route : BridgeRoute} {past : List Event} {v : RouteView}
    {asset : Option CarriedAsset} (next : Continues g past v) : mintCap v route asset = mintCap g route asset := by
  cases asset with
  | none => rw [mintCap, mintCap, next.networkLimit]
  | some a => rfl

section
variable [RouteCrypto] {g : RouteView} {route other : BridgeRoute}

theorem Live.unique (live : Live g route) (live' : Live g other)
    (same : route.routeName = other.routeName) : route = other := by
  have adapter := congrArg RouteName.adapter same
  have chain := congrArg RouteName.chain same
  simp only [BridgeRoute.routeName] at adapter chain
  have governed := live.governed
  rw [adapter, chain, live'.governed] at governed
  exact (Option.some.inj governed).symm

theorem mintKey_unique {asset asset' : Option CarriedAsset} (live : Live g route)
    (live' : Live g other) (listed : ∀ a, asset = some a → a ∈ route.assets)
    (listed' : ∀ a, asset' = some a → a ∈ other.assets)
    (same : route.mintKey asset = other.mintKey asset') : route = other ∧ asset = asset' := by
  cases asset with
  | none =>
    cases asset' with
    | none => exact ⟨live.unique live' (RouteKey.mintEpoch.inj same), rfl⟩
    | some a => cases same
  | some a =>
    cases asset' with
    | none => cases same
    | some b =>
      obtain ⟨name, symbol⟩ := RouteKey.assetMintEpoch.inj same
      obtain rfl := live.unique live' name
      exact ⟨rfl, congrArg some
        (List.inj_on_of_nodup_map live.ruled.distinct (listed a rfl) (listed' b rfl) symbol)⟩

theorem mintKey_clean {asset : Option CarriedAsset} (live : Live g route)
    (listed : ∀ a, asset = some a → a ∈ route.assets) : (route.mintKey asset).Clean := by
  cases asset with
  | none => exact live.ruled.chain
  | some a => exact ⟨live.ruled.chain, live.ruled.symbols a (listed a rfl)⟩

variable [Json] [RouteEnv] [StoreProofs] {past : List Event} {kv : Kv} {v : RouteView}
  {writes : List Write} {result : CallResult}

theorem Effect.mints {asset : Option CarriedAsset} (e : Effect ⟨v, kv⟩ writes result)
    (next : Continues g past v) (live : Live g route)
    (listed : ∀ a, asset = some a → a ∈ route.assets) :
    EpochMove ⟨v, kv⟩ writes (route.mintKey asset) ((mintCap g route asset).getD 0)
      (result.counted (route.mintKey asset)) := by
  have here : written writes (route.mintKey asset) =
      written (ofKind .minted writes) (route.mintKey asset) := by
    rw [← written_ofKind, kind_mintKey]
  cases result with
  | admitted r t =>
    have a := e.admits
    obtain ⟨cap, w, limit, counts, minted⟩ := a.counts
    simp only [CallResult.counted]
    split_ifs with same
    · obtain ⟨rfl, rfl⟩ :=
        mintKey_unique (a.live.of_continues next) live a.listed listed same
      have capped : mintCap g r t.asset = some cap := (mintCap_continues next).symm.trans limit
      rw [capped, getD_some]
      refine .counts counts ?_
      rw [here, minted, counts.write]
      simp
    · apply EpochMove.still
      rw [here, minted, counts.write]
      simp [same]
  | sent r out =>
    have other : Option.map RouteKey.outflow (exitUnit r out.asset).toOption ≠
        some (route.mintKey asset) := by
      cases (exitUnit r out.asset).toOption <;> cases asset <;> simp [BridgeRoute.mintKey]
    rw [CallResult.counted, if_neg other]
    exact .still (e.unwritten (by simp [CallResult.kinds]))
  | _ => exact .still (e.unwritten (by simp [CallResult.kinds]))

theorem Effect.leaves {unit : String} (e : Effect ⟨v, kv⟩ writes result)
    (next : Continues g past v) :
    EpochMove ⟨v, kv⟩ writes (.outflow unit) ((outflowCap ⟨g, kv⟩ unit).getD 0)
      (result.counted (.outflow unit)) := by
  have kind : (RouteKey.outflow unit).kind = .outflow := rfl
  have here : written writes (.outflow unit) = written (ofKind .outflow writes) (.outflow unit) := by
    rw [← kind, written_ofKind]
  cases result with
  | sent r out =>
    obtain ⟨u, cap, w, counted, capped, counts, outflow⟩ := e.sends.leaves
    rw [CallResult.counted, counted]
    split_ifs with same
    · have unit : u = unit := by simpa [Except.toOption] using same
      subst unit
      have limit : outflowCap ⟨g, kv⟩ u = some cap := by
        rw [← capped]
        unfold outflowCap
        rw [next.outflowLimits]
      rw [limit, getD_some]
      refine .counts counts ?_
      rw [here, outflow, counts.write]
      simp
    · have unit : u ≠ unit := by simpa [Except.toOption] using same
      apply EpochMove.still
      rw [here, outflow, counts.write]
      simp [unit]
  | admitted r t =>
    have other : r.mintKey t.asset ≠ .outflow unit := by
      cases t.asset <;> simp [BridgeRoute.mintKey]
    rw [CallResult.counted, if_neg other]
    exact .still (e.unwritten (by simp [kind, CallResult.kinds]))
  | _ => exact .still (e.unwritten (by simp [kind, CallResult.kinds]))

theorem Run.metered (run : Run g past kv) (key : RouteKey) {cap : ℕ} (clean : key.Clean)
    (move : ∀ {past kv v writes result}, Continues g past v → Effect ⟨v, kv⟩ writes result →
      EpochMove ⟨v, kv⟩ writes key cap (result.counted key)) : Metered past ⟨g, kv⟩ key cap := by
  refine Run.induct (P := fun past kv => Metered past ⟨g, kv⟩ key cap) ?_ ?_ ?_ run
  · exact ⟨fun _ _ _ => rfl, fun _ => Nat.zero_le _⟩
  · intro past kv v c e run ih next
    constructor
    · intro epoch fits last
      rw [outcomesAt_error]
      exact ih.record epoch fits fun e mem => last e (by simp [mem])
    · intro epoch
      rw [outcomesAt_error]
      exact ih.within epoch
  · intro past kv v c writes result run ih next effect
    obtain ⟨record, within⟩ :=
      (⟨ih.record, ih.within⟩ : Metered past ⟨v, kv⟩ key cap).step (c := c) next (move next effect)
        clean effect.clean
    exact ⟨record, within⟩

theorem Run.mint_within (run : Run g past kv) (live : Live g route) (asset : Option CarriedAsset)
    (listed : ∀ a, asset = some a → a ∈ route.assets) (epoch : ℕ) :
    ((outcomesAt epoch past).map (CallResult.counted (route.mintKey asset))).sum ≤
      (mintCap g route asset).getD 0 :=
  (run.metered _ (mintKey_clean live listed) fun next e => e.mints next live listed).within epoch

theorem Run.outflow_within (run : Run g past kv) {unit : String} (clean : ColonFree unit)
    (epoch : ℕ) : ((outcomesAt epoch past).map (CallResult.counted (.outflow unit))).sum ≤
      (outflowCap ⟨g, kv⟩ unit).getD 0 := by
  refine (run.metered (.outflow unit) clean fun next e => ?_).within epoch
  exact e.leaves next

end
end Tenzro.Bridge
