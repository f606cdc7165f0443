import Tenzro.BridgeExitBooks
import Tenzro.RouteVault
import Tenzro.TokenLedgerSound

set_option autoImplicit false
set_option linter.dupNamespace false

/-!
# The exit escrow covers its queue

While every queued exit's value reaches the escrow, the escrow covers the queue in each asset, the
queue's totals are the queue's, and each exit leaves it once with what its sender put in.
-/
namespace Tenzro.BridgeExit
open ByteCodec FixedWidth Outcome Function List
open Bridge Token
open Book (SumsTo)

/-! ### Sums over the queue -/

def valueOf (p : PendingExit → Prop) [DecidablePred p] : Option PendingExit → ℕ
  | some e => if p e then e.amount else 0
  | none => 0

def ExitState.counted (s : ExitState) (p : PendingExit → Prop) [DecidablePred p] (id : ℕ) : ℕ :=
  valueOf p (s.exits id)

theorem counted_update {s s' : ExitState} {id : ℕ} {o : Option PendingExit}
    (exits : s'.exits = update s.exits id o) (p : PendingExit → Prop) [DecidablePred p] :
    s'.counted p = update (s.counted p) id (valueOf p o) := by
  funext other
  unfold ExitState.counted
  rw [exits]
  by_cases same : other = id
  · rw [same, update_self, update_self]
  · rw [update_of_ne same, update_of_ne same]

section
variable [RouteCrypto] [FactoryHash]

/-- What each exit's sender put in, as the escrow received it, and the ids that left the queue. -/
structure Trail where
  putIn : ℕ → Option (Bytes × Bytes × ℕ)
  left : List ℕ

def Trail.empty : Trail := ⟨fun _ => none, []⟩

def Trail.put (t : Trail) (e : PendingExit) (received : ℕ) : Trail :=
  ⟨update t.putIn e.id (some (e.sender, e.holding, received)), t.left⟩

def Trail.leave (t : Trail) (id : ℕ) : Trail := ⟨t.putIn, id :: t.left⟩

def Trail.next (t : Trail) (s s' : ExitState) : ExitResult → Trail
  | .exitQueued e => t.put e
      (s'.ledger.balance e.holding exitEscrow - s.ledger.balance e.holding exitEscrow)
  | .outbound => t
  | .exitReleased e | .exitCancelled e _ => t.leave e.id

/-- The escrow covers the queue in every asset, and the totals are the queue's. -/
structure Books (s : ExitState) : Prop where
  covered : ∀ x, ∃ n, SumsTo (s.counted (·.holding = x)) n ∧ n ≤ s.ledger.balance x exitEscrow
  queued : ∀ unit, SumsTo (s.counted (·.unit = unit)) (s.queued unit)

structure Kept (s : ExitState) (t : Trail) : Prop where
  books : Books s
  ids : ∀ id e, s.exits id = some e → e.id = id ∧ id ≤ s.lastExitId
  signs : ∀ id e, s.exits id = some e → Signs e.sender
  putIn : ∀ id e, s.exits id = some e → t.putIn id = some (e.sender, e.holding, e.amount)
  gone : ∀ id ∈ t.left, s.exits id = none ∧ id ≤ s.lastExitId
  once : t.left.Nodup

section
variable {s s' : ExitState} {t : Trail} {view : ExitView} {sender : Bytes} {e : PendingExit}

theorem Kept.enough (kept : Kept s t) {id : ℕ} (found : s.exits id = some e) :
    Signs e.sender ∧ e.amount ≤ s.ledger.balance e.holding exitEscrow := by
  obtain ⟨n, sums, within⟩ := kept.books.covered e.holding
  have single := sums.le id
  unfold ExitState.counted valueOf at single
  rw [found] at single
  simp only [if_true] at single
  exact ⟨kept.signs id e found, single.trans within⟩

theorem Kept.fresh (kept : Kept s t) : s.exits (s.lastExitId + 1) = none := by
  cases found : s.exits (s.lastExitId + 1) with
  | none => rfl
  | some e =>
    have bound := (kept.ids _ e found).2
    omega

theorem Kept.sent (kept : Kept s t) (sent : Sent s s' sender) (signs : Signs sender) :
    Kept s' t := by
  obtain ⟨exits, queued, last, others⟩ := sent
  have same (p : PendingExit → Prop) [DecidablePred p] : s'.counted p = s.counted p := by
    unfold ExitState.counted
    rw [exits]
  refine ⟨⟨fun x => ?_, fun unit => ?_⟩, ?_, ?_, ?_, ?_, kept.once⟩
  · obtain ⟨n, sums, within⟩ := kept.books.covered x
    rw [same]
    exact ⟨n, sums, within.trans (others x exitEscrow (Ne.symm signs))⟩
  · rw [same, queued]
    exact kept.books.queued unit
  · rw [exits, last]
    exact kept.ids
  · rw [exits]
    exact kept.signs
  · rw [exits]
    exact kept.putIn
  · rw [exits, last]
    exact kept.gone

theorem Kept.queue (kept : Kept s t) (queued : Queued s s' e) (signs : Signs e.sender)
    (fits : s.queued e.unit + e.amount ≤ maxValue 128) :
    Kept s' (t.put e e.amount) := by
  have empty : s.exits e.id = none := by
    rw [queued.id]
    exact kept.fresh
  have nothing (p : PendingExit → Prop) [DecidablePred p] : s.counted p e.id = 0 := by
    unfold ExitState.counted
    rw [empty]
    rfl
  refine ⟨⟨fun x => ?_, fun unit => ?_⟩, fun id e' found => ?_, fun id e' found => ?_,
    fun id e' found => ?_, fun id gone => ?_, kept.once⟩
  · obtain ⟨n, sums, within⟩ := kept.books.covered x
    rw [counted_update queued.exits]
    refine ⟨n + valueOf (·.holding = x) (some e), sums.update (by rw [nothing]; rfl), ?_⟩
    have value : valueOf (·.holding = x) (some e) = if e.holding = x then e.amount else 0 := rfl
    rw [value]
    by_cases same : e.holding = x
    · have credited := queued.paid.credited
      rw [same] at credited
      rw [if_pos same]
      omega
    · rw [if_neg same, queued.paid.assets x exitEscrow (Ne.symm same)]
      exact within
  · rw [counted_update queued.exits, queued.queued]
    by_cases same : unit = e.unit
    · subst same
      rw [update_self, saturatingAdd, min_eq_left fits]
      refine (kept.books.queued e.unit).update ?_
      rw [nothing]
      simp [valueOf]
    · rw [update_of_ne same]
      refine (kept.books.queued unit).update ?_
      rw [nothing]
      simp [valueOf, Ne.symm same]
  · rw [queued.exits] at found
    by_cases same : id = e.id
    · subst same
      rw [update_self] at found
      obtain rfl := Option.some.inj found
      exact ⟨rfl, by rw [queued.last, queued.id]⟩
    · rw [update_of_ne same] at found
      have old := kept.ids id e' found
      exact ⟨old.1, by rw [queued.last]; omega⟩
  · rw [queued.exits] at found
    by_cases same : id = e.id
    · subst same
      rw [update_self] at found
      obtain rfl := Option.some.inj found
      exact signs
    · rw [update_of_ne same] at found
      exact kept.signs id e' found
  · rw [queued.exits] at found
    by_cases same : id = e.id
    · subst same
      rw [update_self] at found
      obtain rfl := Option.some.inj found
      exact update_self ..
    · rw [update_of_ne same] at found
      exact (update_of_ne same ..).trans (kept.putIn id e' found)
  · obtain ⟨absent, within⟩ := kept.gone id gone
    have other : id ≠ e.id := by
      rw [queued.id]
      omega
    rw [queued.exits, update_of_ne other]
    exact ⟨absent, by rw [queued.last]; omega⟩

theorem Kept.return (kept : Kept s t) {id : ℕ} (returned : Returned s s' id e) :
    e.id = id ∧ id ∉ t.left ∧ Kept s' (t.leave id) := by
  have found := returned.found
  have own (p : PendingExit → Prop) [DecidablePred p] :
      s.counted p id = if p e then e.amount else 0 := by
    unfold ExitState.counted
    rw [found]
    rfl
  have held {id' : ℕ} {e' : PendingExit} (here : s'.exits id' = some e') :
      id' ≠ id ∧ s.exits id' = some e' := by
    rw [returned.exits] at here
    by_cases same : id' = id
    · rw [same, update_self] at here
      cases here
    · rw [update_of_ne same] at here
      exact ⟨same, here⟩
  have stays : id ∉ t.left := fun mem => by
    rw [(kept.gone id mem).1] at found
    cases found
  refine ⟨(kept.ids id e found).1, stays, ⟨fun x => ?_, fun unit => ?_⟩, fun id' e' here => ?_,
    fun id' e' here => kept.signs id' e' (held here).2, fun id' e' here =>
    kept.putIn id' e' (held here).2, fun id' gone => ?_, nodup_cons.2 ⟨stays, kept.once⟩⟩
  · obtain ⟨n, sums, within⟩ := kept.books.covered x
    have single := sums.le id
    rw [own] at single
    rw [counted_update returned.exits]
    refine ⟨n - (if e.holding = x then e.amount else 0), sums.update ?_, ?_⟩
    · rw [own]
      simp only [valueOf]
      omega
    · by_cases same : e.holding = x
      · have debited := returned.paid.debited
        rw [same] at debited
        rw [if_pos same]
        omega
      · rw [if_neg same, returned.paid.assets x exitEscrow (Ne.symm same)]
        exact within
  · have sums := kept.books.queued unit
    have single := sums.le id
    rw [own] at single
    rw [counted_update returned.exits, returned.queued]
    by_cases same : unit = e.unit
    · subst same
      rw [if_pos rfl] at single
      rw [update_self]
      refine sums.update ?_
      rw [own, if_pos rfl]
      simp only [valueOf]
      omega
    · rw [update_of_ne same]
      refine sums.update ?_
      rw [own, if_neg (Ne.symm same)]
      rfl
  · have old := kept.ids id' e' (held here).2
    rw [returned.last]
    exact old
  · rw [returned.last, returned.exits]
    rcases mem_cons.1 gone with rfl | gone
    · rw [update_self]
      exact ⟨rfl, (kept.ids id' e found).2⟩
    · have other : id' ≠ id := fun eq => stays (eq ▸ gone)
      rw [update_of_ne other]
      exact kept.gone id' gone

/-! ### Steps and runs -/

variable [Json] [RouteEnv] {op : BridgeOp} {result : ExitResult}

/-- What an operation that went through did, from the state its gas was charged in. -/
inductive Did (c s' : ExitState) (sender : Bytes) : ExitResult → Prop where
  | queued (e : PendingExit) (own : e.sender = sender)
      (fits : c.queued e.unit + e.amount ≤ maxValue 128) (queued : Queued c s' e) :
      Did c s' sender (.exitQueued e)
  | sent (sent : Sent c s' sender) : Did c s' sender .outbound
  | released (e : PendingExit) (m : ExitState) (id : ℕ) (returned : Returned c m id e)
      (sent : Sent m s' e.sender) : Did c s' sender (.exitReleased e)
  | cancelled (e : PendingExit) (authority : String) (id : ℕ) (returned : Returned c s' id e) :
      Did c s' sender (.exitCancelled e authority)

theorem outbound_did {c : ExitState} {chain : String} {recipient : Bytes} {amount : ℕ}
    {asset : Option String} (charged : s.charge view sender = .ok c) (signs : Signs sender)
    (backed : Backed s view sender (.outbound chain recipient amount asset))
    (ran : c.outbound view sender chain recipient amount asset = .ok (s', result)) :
    Did c s' sender result := by
  obtain ⟨⟨route, carried, overCap⟩, planned, ran⟩ := bind_ok.1 ran
  have covers := backed c route carried overCap charged planned
  have queues {delayed : Bool} {e : PendingExit}
      (went : c.queue view route carried sender (toAsciiLower chain) recipient amount delayed =
        .ok (s', e)) (may : overCap.isSome ∨ waits view amount
          ((carried.map fun a => a.outflow.capacity).getD route.outflow.capacity)) :
      Did c s' sender (.exitQueued e) := by
    obtain ⟨backs, room⟩ := covers may
    obtain ⟨own, whole, unit, queued⟩ := queue_ok went signs backs
    exact .queued e own (whole ▸ room e.unit unit) queued
  cases overCap with
  | some unit =>
    obtain ⟨_, -, ran⟩ := bind_ok.1 ran
    obtain ⟨⟨s₁, e⟩, went, ran⟩ := bind_ok.1 ran
    cases pure_ok.1 ran
    exact queues went (.inl rfl)
  | none =>
    simp only at ran
    split_ifs at ran with waiting
    · obtain ⟨⟨s₁, e⟩, went, ran⟩ := bind_ok.1 ran
      cases pure_ok.1 ran
      exact queues went (.inr waiting)
    · obtain ⟨s₁, went, ran⟩ := bind_ok.1 ran
      cases pure_ok.1 ran
      exact .sent (exitNow_ok went)

theorem executeBridge_did (kept : Kept s t) (signs : Signs sender)
    (backed : Backed s view sender op)
    (ran : s.executeBridge view sender op = .ok (s', result)) :
    ∃ c, s.charge view sender = .ok c ∧ Kept c t ∧ Did c s' sender result := by
  obtain ⟨_, -, ran⟩ := bind_ok.1 ran
  obtain ⟨c, charged, ran⟩ := bind_ok.1 ran
  have keeps : Kept c t := kept.sent (charge_sent charged) signs
  refine ⟨c, charged, keeps, ?_⟩
  cases op with
  | outbound chain recipient amount asset => exact outbound_did charged signs backed ran
  | releaseExit id =>
    obtain ⟨⟨m, e⟩, went, ran⟩ := bind_ok.1 ran
    obtain ⟨s₁, away, ran⟩ := bind_ok.1 ran
    cases pure_ok.1 ran
    exact .released e m id (release_ok went fun e found => keeps.enough found) (exitNow_ok away)
  | cancelExit id =>
    obtain ⟨e, authority, rfl, returned⟩ := cancel_ok ran fun e found => keeps.enough found
    exact .cancelled e authority id returned

omit [Json] [RouteEnv] in
theorem Did.kept {c : ExitState} (did : Did c s' sender result) (kept : Kept c t)
    (signs : Signs sender) : Kept s' (t.next c s' result) := by
  cases did with
  | queued e own fits queued =>
    have received : s'.ledger.balance e.holding exitEscrow -
        c.ledger.balance e.holding exitEscrow = e.amount := by
      have credited := queued.paid.credited
      omega
    unfold Trail.next
    simp only [received]
    exact kept.queue queued (own ▸ signs) fits
  | sent sent => exact kept.sent sent signs
  | released e m id returned sent =>
    obtain ⟨own, -, next⟩ := kept.return returned
    unfold Trail.next
    simp only [own]
    exact next.sent sent (kept.enough returned.found).1
  | cancelled e authority id returned =>
    obtain ⟨own, -, next⟩ := kept.return returned
    unfold Trail.next
    simp only [own]
    exact next

/-- A refused operation leaves nothing behind. -/
def ExitState.apply (s : ExitState) (view : ExitView) (sender : Bytes) (op : BridgeOp) : ExitState :=
  match s.executeBridge view sender op with
  | .ok (s', _) => s'
  | .error _ => s

def ExitState.trail (s : ExitState) (t : Trail) (view : ExitView) (sender : Bytes) (op : BridgeOp) :
    Trail :=
  match s.charge view sender, s.executeBridge view sender op with
  | .ok c, .ok (s', result) => t.next c s' result
  | _, _ => t

/-- Operations of any senders that meet `may`, from a state whose queue is empty. -/
inductive ExitRun (may : ExitState → ExitView → Bytes → BridgeOp → Prop) :
    ExitState → Trail → Prop where
  | start (s : ExitState) (empty : ∀ id, s.exits id = none) (none : ∀ unit, s.queued unit = 0) :
      ExitRun may s .empty
  | step {s : ExitState} {t : Trail} (run : ExitRun may s t) (view : ExitView) (sender : Bytes)
      (op : BridgeOp) (signs : Signs sender) (meets : may s view sender op) :
      ExitRun may (s.apply view sender op) (s.trail t view sender op)

theorem Kept.step (kept : Kept s t) (signs : Signs sender) (backed : Backed s view sender op) :
    Kept (s.apply view sender op) (s.trail t view sender op) := by
  unfold ExitState.apply ExitState.trail
  cases ran : s.executeBridge view sender op with
  | error e =>
    cases s.charge view sender with
    | error e => exact kept
    | ok c => exact kept
  | ok out =>
    obtain ⟨s', result⟩ := out
    obtain ⟨c, charged, keeps, did⟩ := executeBridge_did kept signs backed ran
    rw [charged]
    exact did.kept keeps signs

theorem ExitRun.kept (run : ExitRun Backed s t) : Kept s t := by
  induction run with
  | start s empty none =>
    have nothing (p : PendingExit → Prop) [DecidablePred p] : s.counted p = fun _ => 0 := by
      funext id
      unfold ExitState.counted
      rw [empty]
      rfl
    refine ⟨⟨fun x => ⟨0, ?_, Nat.zero_le _⟩, fun unit => ?_⟩, fun id e found => ?_,
      fun id e found => ?_, fun id e found => ?_, nofun, nodup_nil⟩
    · rw [nothing]
      exact .zero
    · rw [nothing, none]
      exact .zero
    · rw [empty] at found
      cases found
    · rw [empty] at found
      cases found
    · rw [empty] at found
      cases found
  | step run view sender op signs meets ih => exact ih.step signs meets

def Moved (c s s' : ExitState) (t : Trail) (sender : Bytes) : ExitResult → Prop
  | .exitQueued e => e.sender = sender ∧ s'.exits e.id = some e ∧
      Paid c.ledger s'.ledger e.holding sender exitEscrow e.amount
  | .outbound => s'.exits = s.exits ∧ s'.queued = s.queued
  | .exitReleased e => s.exits e.id = some e ∧ e.id ∉ t.left ∧ s'.exits e.id = none
  | .exitCancelled e _ => s.exits e.id = some e ∧ e.id ∉ t.left ∧ s'.exits e.id = none ∧
      t.putIn e.id = some (e.sender, e.holding, e.amount) ∧
      Paid c.ledger s'.ledger e.holding exitEscrow e.sender e.amount

omit [Json] [RouteEnv] in
theorem Did.moved {c : ExitState} (did : Did c s' sender result) (kept : Kept c t)
    (charged : Sent s c sender) : Moved c s s' t sender result := by
  cases did with
  | queued e own fits queued =>
    refine ⟨own, ?_, own ▸ queued.paid⟩
    rw [queued.exits, update_self]
  | sent sent => exact ⟨sent.exits.trans charged.exits, sent.queued.trans charged.queued⟩
  | released e m id returned sent =>
    obtain ⟨rfl, stays, -⟩ := kept.return returned
    have found := returned.found
    rw [charged.exits] at found
    refine ⟨found, stays, ?_⟩
    rw [sent.exits, returned.exits, update_self]
  | cancelled e authority id returned =>
    obtain ⟨rfl, stays, -⟩ := kept.return returned
    have put := kept.putIn _ _ returned.found
    have found := returned.found
    rw [charged.exits] at found
    refine ⟨found, stays, ?_, put, returned.paid⟩
    rw [returned.exits, update_self]

/-- In a run whose queued exits are backed, the escrow covers the queue in every asset, the totals
are the queue's, no exit leaves twice, and every operation moves the value it reports. -/
theorem exits_covered (run : ExitRun Backed s t) : Books s ∧
    (t.left.Nodup ∧ ∀ id ∈ t.left, s.exits id = none) ∧
    ∀ view sender op s' result, Signs sender → Backed s view sender op →
      s.executeBridge view sender op = .ok (s', result) →
      ∃ c, s.charge view sender = .ok c ∧ Moved c s s' t sender result := by
  have kept := run.kept
  refine ⟨kept.books, ⟨kept.once, fun id gone => (kept.gone id gone).1⟩,
    fun view sender op s' result signs backed ran => ?_⟩
  obtain ⟨c, charged, keeps, did⟩ := executeBridge_did kept signs backed ran
  exact ⟨c, charged, did.moved keeps (charge_sent charged)⟩

end

end

/-! ### An exit of nothing -/

namespace Unfunded

open Bridge.AssetMint (json)
open Bridge.ManyDeposits (crypto env)

attribute [local instance] crypto json env Token.BothViews.hash

def btc : Bytes := (depositAsset .bitcoin).getD []

def victim : Bytes := replicate 20 7

def attacker : Bytes := replicate 20 8

def ledger : Ledger where
  word slot := if slot = .balance btc victim then 5 else 0
  record id := if id = btc then
    some ⟨"Bitcoin (deposit route)", "BTC", 8, 5, [], none, .none, {}⟩ else none
  facade _ := []
  claim _ _ _ _ := none
  native _ := 0
  system := ⟨fun _ => none, fun _ => none⟩

def start : ExitState := ⟨fun _ => none, ledger, 0, fun _ => none, fun _ => 0⟩

def view : ExitView where
  route := { Bridge.ManyDeposits.g with outflowLimits := some [⟨"BTC", 100⟩] }
  exitDelayMs := 1000
  exitDelayThresholdBps := 0
  queueMaxEpochs := 1
  lastFaultMs _ := none
  seated _ := false
  installed _ := true
  frozen := none
  gasCost := 0

def leave : BridgeOp := .outbound "bitcoin" [1] 5 none

def first : ExitState := start.apply view victim leave

def second : ExitState := first.apply view attacker leave

def third : ExitState := second.apply view attacker (.cancelExit 2)

theorem evaluated : (ledgerAccount victim ≠ ledgerAccount exitEscrow ∧
      ledgerAccount attacker ≠ ledgerAccount exitEscrow) ∧
    first.counted (·.holding = btc) 1 = 5 ∧
    (third.ledger.balance btc attacker = 5 ∧ third.counted (·.holding = btc) 1 = 5 ∧
      third.ledger.balance btc exitEscrow = 0) ∧
    (start.planExit view (toAsciiLower "bitcoin") 5 none).toOption.map
      (fun r => (r.1, r.2.1)) = some (Bridge.ManyDeposits.route, none) ∧
    (token Bridge.ManyDeposits.route none).toOption = some (some btc) ∧
    5 ≤ start.ledger.balance btc victim := by
  decide +kernel

theorem victim_signs : Signs victim := evaluated.1.1

theorem attacker_signs : Signs attacker := evaluated.1.2

/-- The attacker's exit is queued though it holds nothing, and its cancellation pays it what the
victim put in. -/
theorem exits_uncovered : ∃ s t, ExitRun (fun _ _ _ _ => True) s t ∧ ¬ Books s ∧
    s.ledger.balance btc attacker = 5 := by
  have begun : ExitRun (fun _ _ _ _ => True) start .empty :=
    .start start (fun _ => rfl) fun _ => rfl
  have queued := begun.step view victim leave victim_signs trivial
  have again := queued.step view attacker leave attacker_signs trivial
  have back := again.step view attacker (.cancelExit 2) attacker_signs trivial
  obtain ⟨gained, waits, spent⟩ := evaluated.2.2.1
  refine ⟨third, _, back, fun books => ?_, gained⟩
  obtain ⟨n, sums, within⟩ := books.covered btc
  have single := sums.le 1
  omega

theorem backed : Backed start view victim leave := by
  intro s' route carried overCap charged planned _
  obtain rfl := Except.ok.inj charged
  obtain ⟨found, holds, enough⟩ := evaluated.2.2.2
  have same : (route, carried) = (Bridge.ManyDeposits.route, none) := by
    have planned' : start.planExit view (toAsciiLower "bitcoin") 5 none =
        .ok (route, carried, overCap) := planned
    rw [planned'] at found
    exact Option.some.inj found
  cases same
  refine ⟨fun id held _ => ?_, fun unit _ => ?_⟩
  · rw [held] at holds
    cases holds
    exact enough
  · exact (show 0 + 5 ≤ maxValue 128 by decide)

theorem exits_covered_queued : Books first ∧ first.counted (·.holding = btc) 1 = 5 := by
  have begun : ExitRun Backed start .empty := .start start (fun _ => rfl) fun _ => rfl
  have run := begun.step view victim leave victim_signs backed
  exact ⟨(exits_covered run).1, evaluated.2.1⟩

end Unfunded

end Tenzro.BridgeExit
