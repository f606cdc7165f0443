import Tenzro.RouteWrites

set_option autoImplicit false

/-!
# Supply records over runs

Calls in any order and with any bytes, from empty records. Governance stays as
it is, time and epoch never go back; a route may be stopped and opened again at
any step.
-/
namespace Tenzro.Bridge
open ByteCodec FixedWidth Outcome List Option

/-- A call made and what came of it. -/
structure Event where
  view : RouteView
  call : Call
  result : Except String CallResult

def outcomes (past : List Event) : List CallResult := past.filterMap fun e => e.result.toOption

def outcomesAt (epoch : ℕ) (past : List Event) : List CallResult :=
  outcomes (past.filter fun e => e.view.epoch = epoch)

/-- The view a next call may be made in. -/
structure Continues (g : RouteView) (past : List Event) (v : RouteView) : Prop where
  route : v.route = g.route
  networkLimit : v.networkLimit = g.networkLimit
  outflowLimits : v.outflowLimits = g.outflowLimits
  time : ∀ e ∈ past, e.view.nowMs ≤ v.nowMs
  epoch : ∀ e ∈ past, e.view.epoch ≤ v.epoch
  epochFits : v.epoch ≤ maxValue 64

section
variable {past : List Event} {v : RouteView} {c : Call} {epoch : ℕ}

theorem outcomes_append {later : List Event} :
    outcomes (past ++ later) = outcomes past ++ outcomes later := by
  simp [outcomes]

@[simp]
theorem outcomes_error {e : String} :
    outcomes (past ++ [⟨v, c, .error e⟩]) = outcomes past := by
  simp [outcomes, Except.toOption]

@[simp]
theorem outcomes_ok {r : CallResult} :
    outcomes (past ++ [⟨v, c, .ok r⟩]) = outcomes past ++ [r] := by
  simp [outcomes, Except.toOption]

@[simp]
theorem outcomesAt_error {e : String} :
    outcomesAt epoch (past ++ [⟨v, c, .error e⟩]) = outcomesAt epoch past := by
  unfold outcomesAt
  by_cases h : v.epoch = epoch <;> simp [filter_append, h]

@[simp]
theorem outcomesAt_ok {r : CallResult} :
    outcomesAt epoch (past ++ [⟨v, c, .ok r⟩]) =
      outcomesAt epoch past ++ if v.epoch = epoch then [r] else [] := by
  unfold outcomesAt
  by_cases h : v.epoch = epoch <;> simp [filter_append, h]

end

theorem Live.of_continues [RouteCrypto] {g v : RouteView} {past : List Event}
    {route : BridgeRoute} (next : Continues g past v) (live : Live v route) : Live g route :=
  ⟨by rw [← next.route]; exact live.governed, live.valid⟩

section
variable [RouteCrypto] [Json] [RouteEnv] [StoreProofs]

/-- The runs under the governance `g`: the events so far and the records they left. -/
inductive Run (g : RouteView) : List Event → Kv → Prop where
  | start : Run g [] fun _ => none
  | step {past : List Event} {kv : Kv} {v : RouteView} (c : Call) (run : Run g past kv)
      (next : Continues g past v) :
      Run g (past ++ [⟨v, c, (c.perform v kv).1⟩]) (c.perform v kv).2

/-- A call either fails and writes nothing, or it is one of the cases and all its writes are
made. -/
inductive Performed (v : RouteView) (kv : Kv) : Except String CallResult → Kv → Prop where
  | failed (e : String) : Performed v kv (.error e) kv
  | done {writes : List Write} {result : CallResult} (effect : Effect ⟨v, kv⟩ writes result) :
      Performed v kv (.ok result) (RouteState.put ⟨v, kv⟩ writes).kv

theorem Call.performed (v : RouteView) (kv : Kv) (c : Call) :
    Performed v kv (c.perform v kv).1 (c.perform v kv).2 := by
  unfold perform RouteState.commit
  cases planned : c.plan ⟨v, kv⟩ with
  | error e => exact .failed e
  | ok p =>
    obtain ⟨writes, result⟩ := p
    simp only
    cases applied : RouteState.apply ⟨v, kv⟩ writes with
    | error e => exact .failed e
    | ok s =>
      unfold RouteState.apply refuse at applied
      split_ifs at applied
      cases applied
      exact .done (c.effect planned)

theorem Call.plan_of_performed {v : RouteView} {kv : Kv} {c : Call} {result : CallResult}
    (h : (c.perform v kv).1 = .ok result) : ∃ writes, c.plan ⟨v, kv⟩ = .ok (writes, result) := by
  unfold perform RouteState.commit at h
  cases planned : c.plan ⟨v, kv⟩ with
  | error e => simp [planned] at h
  | ok p =>
    obtain ⟨writes, r⟩ := p
    cases applied : RouteState.apply ⟨v, kv⟩ writes <;> simp_all

/-- What holds of the empty records, and through every call that succeeds, holds of every run. -/
theorem Run.induct {g : RouteView} {P : List Event → Kv → Prop} (start : P [] fun _ => none)
    (failed : ∀ past kv v c e, Run g past kv → P past kv → Continues g past v →
      P (past ++ [⟨v, c, .error e⟩]) kv)
    (done : ∀ past kv v c writes result, Run g past kv → P past kv → Continues g past v →
      Effect ⟨v, kv⟩ writes result →
      P (past ++ [⟨v, c, .ok result⟩]) (RouteState.put ⟨v, kv⟩ writes).kv)
    {past : List Event} {kv : Kv} (run : Run g past kv) : P past kv := by
  induction run with
  | start => exact start
  | @step past kv v c run next ih =>
    have performed := c.performed v kv
    generalize (c.perform v kv).1 = result at performed ⊢
    generalize (c.perform v kv).2 = kv' at performed ⊢
    cases performed with
    | failed e => exact failed past kv v c e run ih next
    | done effect => exact done past kv v c _ _ run ih next effect

end

section
variable [RouteCrypto]

def CallResult.supplyChange (key : RouteKey) : CallResult → ℤ
  | .admitted route t =>
    if route.supplyKey t.asset = key then
      if route.issues t.asset then t.message.amount else -t.message.amount
    else 0
  | .sent route out =>
    if route.supplyKey out.asset = key then
      if route.issues out.asset then -out.message.amount else out.message.amount
    else 0
  | .ibc route outcome =>
    if route.supplyKey none = key then -(outcome.refund.elim 0 fun r => (r.2 : ℤ)) else 0
  | _ => 0

end

section
variable {s : RouteState} {writes : List Write} {key : RouteKey}

/-- The writes leave the record alone, or move it by the change. -/
inductive SupplyMove (s : RouteState) (writes : List Write) (key : RouteKey) : ℤ → Prop where
  | still (none : written writes key = none) : SupplyMove s writes key 0
  | locks {amount : ℕ} {supply : SupplyRecord}
      (after : (s.supplyAt key).afterLock amount = some supply)
      (write : written writes key = some supply.encode) : SupplyMove s writes key amount
  | releases {amount : ℕ} {supply : SupplyRecord}
      (after : (s.supplyAt key).afterRelease amount = some supply)
      (write : written writes key = some supply.encode) : SupplyMove s writes key (-amount)

theorem SupplyRecord.decode_encode {r : SupplyRecord} (locked : r.locked ≤ maxValue 128)
    (bridged : r.bridged ≤ maxValue 128) : SupplyRecord.decode r.encode = some r := by
  unfold maxValue at locked bridged
  have first : ofBeBytes (beBytes 16 r.locked) = r.locked := ofBeBytes_beBytes (by omega)
  have second : ofBeBytes (beBytes 16 r.bridged) = r.bridged := ofBeBytes_beBytes (by omega)
  simp [encode, decode, first, second]

def Balanced (s : RouteState) (key : RouteKey) (total : ℤ) : Prop :=
  ∃ n : ℕ, s.supplyAt key = ⟨n, n⟩ ∧ n ≤ maxValue 128 ∧ (n : ℤ) = total

theorem supplyAt_put (clean : key.Clean) (all : ∀ w ∈ writes, w.1.Clean) :
    (s.put writes).supplyAt key =
      ((written writes key).elim (s.supplyAt key) fun b => (SupplyRecord.decode b).getD {}) := by
  unfold RouteState.supplyAt
  rw [RouteState.put_get clean all]
  cases written writes key <;> simp

theorem SupplyMove.balanced {total change : ℤ} (move : SupplyMove s writes key change)
    (clean : key.Clean) (all : ∀ w ∈ writes, w.1.Clean) (before : Balanced s key total) :
    Balanced (s.put writes) key (total + change) := by
  obtain ⟨n, record, fits, rfl⟩ := before
  cases move with
  | still none =>
    refine ⟨n, ?_, fits, by simp⟩
    rw [supplyAt_put clean all, none]
    exact record
  | @locks amount supply after write =>
    rw [record, SupplyRecord.afterLock] at after
    split_ifs at after with room
    cases after
    refine ⟨n + amount, ?_, room.1, by simp⟩
    rw [supplyAt_put clean all, write, elim_some,
      SupplyRecord.decode_encode room.1 room.2.1, getD_some]
  | @releases amount supply after write =>
    rw [record, SupplyRecord.afterRelease] at after
    split_ifs at after with room
    cases after
    have enough : amount ≤ n := room.1
    have less : n - amount ≤ maxValue 128 := by omega
    refine ⟨n - amount, ?_, less, by omega⟩
    rw [supplyAt_put clean all, write, elim_some, SupplyRecord.decode_encode less less,
      getD_some]

end

section
variable [RouteCrypto] [Json] {s : RouteState} {writes : List Write} {key : RouteKey}

theorem Relays.supply {route : BridgeRoute} {outcome : IbcOutcome}
    (h : Relays s writes route outcome) (kind : key.kind = .supply) :
    SupplyMove s writes key (CallResult.supplyChange key (.ibc route outcome)) := by
  have handled := h.handled
  simp only [CallResult.supplyChange]
  cases handled with
  | opens =>
    rw [elim_none, neg_zero, ite_self]
    apply SupplyMove.still
    rw [← written_ofKind, kind]
    rfl
  | @settles _ _ _ path _ refund _ _ _ _ settled =>
    cases refund with
    | none =>
      cases settled
      rw [elim_none, neg_zero, ite_self]
      apply SupplyMove.still
      rw [← written_ofKind, kind]
      rfl
    | some r =>
      simp only [settle, bind_ok, pure_ok] at settled
      obtain ⟨supply, released, rfl⟩ := settled
      have one : written [(.ibc path, refunded), (.supply route.routeName, supply.encode)] key =
          if route.supplyKey none = key then some supply.encode else none := by
        rw [← written_ofKind, kind]
        change _ = if RouteKey.supply route.routeName = key then _ else _
        simp [RouteKey.kind]
      split_ifs at one ⊢ with same
      · subst same
        exact .releases (SupplyRecord.release_ok released) one
      · exact .still one

variable [RouteEnv] [StoreProofs]

theorem Effect.supply {result : CallResult} (e : Effect s writes result) (key : RouteKey)
    (kind : key.kind = .supply) : SupplyMove s writes key (result.supplyChange key) := by
  have here : written writes key = written (ofKind .supply writes) key := by
    rw [← kind, written_ofKind]
  cases result with
  | admitted route t =>
    have a := e.admits
    rw [a.supply, written_cons, written_nil, none_or] at here
    simp only [CallResult.supplyChange]
    split_ifs at here ⊢ with same issues
    · subst same
      exact .locks (a.issued issues) here
    · subst same
      exact .releases (a.released issues) here
    · exact .still here
  | sent route out =>
    have a := e.sends
    rw [a.supply, written_cons, written_nil, none_or] at here
    simp only [CallResult.supplyChange]
    split_ifs at here ⊢ with same issues
    · subst same
      exact .releases (a.released issues) here
    · subst same
      exact .locks (a.locked issues) here
    · exact .still here
  | ibc route outcome => exact e.relays.supply kind
  | _ => exact .still (e.unwritten (by simp [kind, CallResult.kinds]))

theorem Run.supply {g : RouteView} {past : List Event} {kv : Kv} (run : Run g past kv)
    (key : RouteKey)
    (kind : key.kind = .supply) (clean : key.Clean) :
    Balanced ⟨g, kv⟩ key ((outcomes past).map (CallResult.supplyChange key)).sum := by
  refine Run.induct (P := fun past kv => Balanced ⟨g, kv⟩ key
    ((outcomes past).map (CallResult.supplyChange key)).sum) ?_ ?_ ?_ run
  · exact ⟨0, rfl, by simp, rfl⟩
  · intro past kv v c e run ih next
    simpa using ih
  · intro past kv v c writes result run ih next effect
    rw [outcomes_ok, map_append, sum_append, map_singleton, sum_singleton]
    exact (effect.supply key kind).balanced clean effect.clean ih

end
end Tenzro.Bridge
