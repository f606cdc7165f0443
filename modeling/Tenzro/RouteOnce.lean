import Tenzro.RouteRuns

set_option autoImplicit false

/-!
# Nonces and sequences over runs

A nonce is used once, and a sequence takes the next number each time.
-/
namespace Tenzro.Bridge
open ByteCodec FixedWidth Outcome List

def CallResult.admits (r : RouteName) (nonce : ℕ) : CallResult → Bool
  | .admitted route t => route.routeName = r ∧ t.message.sequence = nonce
  | _ => false

def CallResult.publishes (r : RouteName) (nonce : ℕ) : CallResult → Bool
  | .published route d => route.routeName = r ∧ d.nonce = nonce
  | _ => false

def CallResult.consumes (r : RouteName) (nonce : ℕ) : CallResult → Bool
  | .consumed route d => route.routeName = r ∧ d.nonce = nonce
  | _ => false

def CallResult.sentAs (r : RouteName) : CallResult → Option ℕ
  | .sent route out => if route.routeName = r then some out.message.sequence else none
  | _ => none

def CallResult.queuedAs (r : RouteName) : CallResult → Option ℕ
  | .queued route data => if route.routeName = r then some data.sequence else none
  | _ => none

theorem or_ne_none {a b : Option Bytes} (h : b ≠ none ∨ a ≠ none) : a.or b ≠ none := by
  cases a <;> cases b <;> simp_all

theorem publishedMessage_ne [RouteCrypto] {body : Bytes} : publishedMessage body ≠ consumedMessage := by
  simp [publishedMessage, consumedMessage]

theorem nextSequence_ok {s : RouteState} {n : ℕ} {key : RouteKey} {what : String}
    (h : nextSequence s key what = .ok n) : n = s.readU64 key + 1 ∧ n ≤ maxValue 64 := by
  simp only [nextSequence, bind_ok, pure_ok, ensure_ok, exists_const] at h
  omega

theorem readU64_put {s : RouteState} {writes : List Write} {key : RouteKey} (clean : key.Clean)
    (all : ∀ w ∈ writes, w.1.Clean) :
    (s.put writes).readU64 key =
      ((written writes key).elim (s.readU64 key) fun b =>
        if b.length = 8 then ofBeBytes b else 0) := by
  unfold RouteState.readU64
  rw [RouteState.put_get clean all]
  cases written writes key <;> simp

section
variable [RouteCrypto] [Json] [RouteEnv] [StoreProofs] {g : RouteView} {past : List Event} {kv : Kv}
  {s : RouteState} {writes : List Write} {result : CallResult} {r : RouteName} {n : ℕ}

/-! ### Used once -/

theorem Run.at_most_once (run : Run g past kv) (key : RouteKey) (clean : key.Clean)
    {p : CallResult → Bool} (Spent : Option Bytes → Prop)
    (refused : ∀ {s writes result}, Effect s writes result → Spent (s.get key) → p result = false)
    (spent : ∀ {s writes result}, Effect s writes result → Spent (s.get key) ∨ p result = true →
      Spent ((written writes key).or (s.get key))) :
    (outcomes past).countP p ≤ 1 := by
  have held : (outcomes past).countP p = 0 ∨
      (outcomes past).countP p = 1 ∧ Spent (RouteState.get ⟨g, kv⟩ key) := by
    refine Run.induct (P := fun past kv => (outcomes past).countP p = 0 ∨
      (outcomes past).countP p = 1 ∧ Spent (RouteState.get ⟨g, kv⟩ key)) ?_ ?_ ?_ run
    · exact .inl rfl
    · intro past kv v c e run ih next
      simpa using ih
    · intro past kv v c writes result run ih next effect
      have after : RouteState.get ⟨g, (RouteState.put ⟨v, kv⟩ writes).kv⟩ key =
          (written writes key).or (RouteState.get ⟨v, kv⟩ key) :=
        RouteState.put_get clean effect.clean
      rw [after]
      rw [outcomes_ok, countP_append, countP_singleton]
      cases happens : p result with
      | true =>
        rcases ih with none | ⟨-, already⟩
        · exact .inr ⟨by simp [none], spent effect (.inr happens)⟩
        · rw [refused effect already] at happens
          cases happens
      | false =>
        rcases ih with none | ⟨one, already⟩
        · exact .inl (by simp [none])
        · exact .inr ⟨by simp [one], spent effect (.inl already)⟩
  rcases held with held | held <;> omega

theorem Run.admits_once (run : Run g past kv) (clean : ColonFree r.chain) :
    (outcomes past).countP (CallResult.admits r n) ≤ 1 := by
  refine run.at_most_once (.nonce r n) clean (· ≠ none) ?_ ?_
  · intro s writes result e used
    cases result with
    | admitted route t =>
      have fresh := e.admits.fresh
      simp only [CallResult.admits, decide_eq_false_iff_not]
      rintro ⟨rfl, rfl⟩
      exact used fresh
    | _ => rfl
  · intro s writes result e why
    apply or_ne_none
    rcases why with used | happens
    · exact .inl used
    · right
      cases result with
      | admitted route t =>
        simp only [CallResult.admits, decide_eq_true_eq] at happens
        obtain ⟨rfl, rfl⟩ := happens
        have nonce := e.admits.nonce
        have kind : (RouteKey.nonce route.routeName t.message.sequence).kind = .nonce := rfl
        rw [← written_ofKind, kind, nonce]
        simp
      | _ => cases happens

theorem Run.publishes_once (run : Run g past kv) (clean : ColonFree r.chain) :
    (outcomes past).countP (CallResult.publishes r n) ≤ 1 := by
  refine run.at_most_once (.messageNonce r n) clean (· ≠ none) ?_ ?_
  · intro s writes result e used
    cases e with
    | published live fresh =>
      simp only [CallResult.publishes, decide_eq_false_iff_not]
      rintro ⟨rfl, rfl⟩
      exact used fresh
    | _ => rfl
  · intro s writes result e why
    apply or_ne_none
    rcases why with used | happens
    · exact .inl used
    · right
      cases e with
      | published live fresh =>
        simp only [CallResult.publishes, decide_eq_true_eq] at happens
        obtain ⟨rfl, rfl⟩ := happens
        simp
      | _ => cases happens

theorem Effect.consumed_stays {key : RouteKey} (e : Effect s writes result)
    (kind : key.kind = .messageNonce) (used : s.get key = some consumedMessage) :
    written writes key = none := by
  cases result with
  | consumed route d =>
    cases e with
    | consumed live fresh =>
      have other : RouteKey.messageNonce route.routeName d.nonce ≠ key := by
        rintro rfl
        rw [used] at fresh
        simp [Ne.symm publishedMessage_ne] at fresh
      simp [other]
  | published route d =>
    cases e with
    | published live fresh =>
      have other : RouteKey.messageNonce route.routeName d.nonce ≠ key := by
        rintro rfl
        rw [used] at fresh
        cases fresh
      simp [other]
  | _ => exact e.unwritten (by simp [kind, CallResult.kinds])

theorem Run.consumes_once (run : Run g past kv) (clean : ColonFree r.chain) :
    (outcomes past).countP (CallResult.consumes r n) ≤ 1 := by
  refine run.at_most_once (.messageNonce r n) clean (· = some consumedMessage) ?_ ?_
  · intro s writes result e used
    cases e with
    | consumed live fresh =>
      simp only [CallResult.consumes, decide_eq_false_iff_not]
      rintro ⟨rfl, rfl⟩
      rw [used] at fresh
      simp [Ne.symm publishedMessage_ne] at fresh
    | _ => rfl
  · intro s writes result e why
    rcases why with used | happens
    · rw [e.consumed_stays rfl used, used]
      rfl
    · cases e with
      | consumed live fresh =>
        simp only [CallResult.consumes, decide_eq_true_eq] at happens
        obtain ⟨rfl, rfl⟩ := happens
        simp
      | _ => cases happens

/-! ### Sequences -/

theorem Run.numbered (run : Run g past kv) (key : RouteKey) (clean : key.Clean)
    {number : CallResult → Option ℕ}
    (given : ∀ {s writes result}, Effect s writes result →
      (number result = none ∧ written writes key = none) ∨
        ∃ n what, number result = some n ∧ nextSequence s key what = .ok n ∧
          written writes key = some (beBytes 8 n)) :
    (outcomes past).filterMap number = range' 1 (RouteState.readU64 ⟨g, kv⟩ key) := by
  refine Run.induct (P := fun past kv => (outcomes past).filterMap number =
    range' 1 (RouteState.readU64 ⟨g, kv⟩ key)) ?_ ?_ ?_ run
  · rfl
  · intro past kv v c e run ih next
    simpa using ih
  · intro past kv v c writes result run ih next effect
    have after : RouteState.readU64 ⟨g, (RouteState.put ⟨v, kv⟩ writes).kv⟩ key = _ :=
      readU64_put (s := ⟨v, kv⟩) clean effect.clean
    rw [after, outcomes_ok, filterMap_append, ih]
    rcases given effect with ⟨none, still⟩ | ⟨n, what, some, next, write⟩
    · rw [still, Option.elim_none]
      simp only [filterMap_cons, none, filterMap_nil, append_nil]
      rfl
    · obtain ⟨rfl, fits⟩ := nextSequence_ok next
      unfold maxValue at fits
      have size : (beBytes 8 (RouteState.readU64 ⟨v, kv⟩ key + 1)).length = 8 := length_beBytes ..
      rw [write, Option.elim_some, if_pos size, ofBeBytes_beBytes (by omega), range'_concat]
      simp only [filterMap_cons, some, filterMap_nil, one_mul]
      rw [Nat.add_comm 1]
      rfl

theorem Run.sent_in_order (run : Run g past kv) (clean : ColonFree r.chain) :
    (outcomes past).filterMap (CallResult.sentAs r) =
      range' 1 (RouteState.readU64 ⟨g, kv⟩ (.sequence r)) := by
  refine run.numbered (.sequence r) clean ?_
  intro s writes result e
  have kind : (RouteKey.sequence r).kind = .sequence := rfl
  cases result with
  | sent route out =>
    have a := e.sends
    rw [← written_ofKind, kind, a.sequence]
    by_cases same : route.routeName = r
    · subst same
      exact .inr ⟨_, _, by simp [CallResult.sentAs], a.next, by simp⟩
    · exact .inl (by simp [CallResult.sentAs, same])
  | _ => exact .inl ⟨rfl, e.unwritten (by simp [kind, CallResult.kinds])⟩

theorem Run.queued_in_order (run : Run g past kv) (clean : ColonFree r.chain) :
    (outcomes past).filterMap (CallResult.queuedAs r) =
      range' 1 (RouteState.readU64 ⟨g, kv⟩ (.messageSequence r)) := by
  refine run.numbered (.messageSequence r) clean ?_
  intro s writes result e
  have kind : (RouteKey.messageSequence r).kind = .messageSequence := rfl
  cases result with
  | queued route data =>
    cases e with
    | queued live next =>
      by_cases same : route.routeName = r
      · subst same
        exact .inr ⟨_, _, by simp [CallResult.queuedAs], next, by simp⟩
      · exact .inl (by simp [CallResult.queuedAs, same])
  | _ => exact .inl ⟨rfl, e.unwritten (by simp [kind, CallResult.kinds])⟩

end
end Tenzro.Bridge
