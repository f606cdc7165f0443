import Tenzro.Books
import Tenzro.BridgeExit
import Tenzro.TokenSteps

set_option autoImplicit false
set_option linter.dupNamespace false

/-!
# Exit values

What a hold, a burn and a lock do to the balance of every asset, and what each operation on the
queue writes.
-/
namespace Tenzro.BridgeExit
open ByteCodec FixedWidth Outcome Function
open Bridge Token
open Book (SumsTo)

/-! ### Balances of any asset -/

section
variable [FactoryHash] {l l' : Ledger} {x y a c source dest : Bytes} {n v : ℕ}

theorem setNative_eq : setNative l a v = l.setBalance FactoryHash.tnzoId a v :=
  (if_pos rfl).symm

omit [FactoryHash] in
theorem held_writeBalance : (l.writeBalance x a v).held y c =
    if y = x ∧ ledgerAccount c = ledgerAccount a then v else l.held y c := by
  by_cases same : y = x
  · subst same
    rw [held_eq, token_writeBalance, held_eq]
    by_cases own : ledgerAccount c = ledgerAccount a
    · rw [own, if_pos ⟨rfl, rfl⟩]
      exact update_self ..
    · rw [if_neg fun both => own both.2]
      exact update_of_ne own _ _
  · rw [if_neg fun both => same both.1, held_eq, only_writeBalance.others y same]
    rfl

omit [FactoryHash] in
theorem native_writeBalance : (l.writeBalance x a v).native = l.native := by
  unfold Ledger.writeBalance
  simp only
  split_ifs <;> rfl

theorem balance_setBalance : (l.setBalance x a v).balance y c =
    if y = x ∧ ledgerAccount c = ledgerAccount a then v else l.balance y c := by
  unfold Ledger.setBalance Ledger.balance
  by_cases native : x = FactoryHash.tnzoId
  · subst native
    rw [if_pos rfl]
    by_cases same : y = FactoryHash.tnzoId
    · subst same
      rw [if_pos rfl, if_pos rfl]
      by_cases own : ledgerAccount c = ledgerAccount a
      · rw [own, if_pos ⟨rfl, rfl⟩]
        exact update_self ..
      · rw [if_neg fun both => own both.2]
        exact update_of_ne own _ _
    · rw [if_neg same, if_neg fun both => same both.1, if_neg same]
      rfl
  · rw [if_neg native]
    by_cases coin : y = FactoryHash.tnzoId
    · have other : y ≠ x := fun eq => native (eq.symm.trans coin)
      rw [if_pos coin, if_neg fun both => other both.1, if_pos coin, native_writeBalance]
    · rw [if_neg coin, if_neg coin, held_writeBalance]

/-- `n` of the asset goes from one account to another, and nothing else moves. -/
structure Paid (l l' : Ledger) (x source dest : Bytes) (n : ℕ) : Prop where
  enough : n ≤ l.balance x source
  debited : l'.balance x source = l.balance x source - n
  credited : l'.balance x dest = l.balance x dest + n
  accounts : ∀ y a, ledgerAccount a ≠ ledgerAccount source → ledgerAccount a ≠ ledgerAccount dest →
    l'.balance y a = l.balance y a
  assets : ∀ y a, y ≠ x → l'.balance y a = l.balance y a

theorem paid_setBalance (apart : ledgerAccount source ≠ ledgerAccount dest)
    (enough : n ≤ l.balance x source) :
    Paid l ((l.setBalance x source (l.balance x source - n)).setBalance x dest
      (l.balance x dest + n)) x source dest n where
  enough := enough
  debited := by
    rw [balance_setBalance, if_neg fun both => apart both.2, balance_setBalance,
      if_pos ⟨rfl, rfl⟩]
  credited := by rw [balance_setBalance, if_pos ⟨rfl, rfl⟩]
  accounts y a source_ne dest_ne := by
    rw [balance_setBalance, if_neg fun both => dest_ne both.2, balance_setBalance,
      if_neg fun both => source_ne both.2]
  assets y a other := by
    rw [balance_setBalance, if_neg fun both => other both.1, balance_setBalance,
      if_neg fun both => other both.1]

theorem moveBalance_eq (ran : moveBalance l source dest n = .ok l') :
    n ≤ l.balance FactoryHash.tnzoId source ∧
      l' = (l.setBalance FactoryHash.tnzoId source (l.balance FactoryHash.tnzoId source - n)).setBalance
        FactoryHash.tnzoId dest (l.balance FactoryHash.tnzoId dest + n) := by
  have native (a : Bytes) : l.native (ledgerAccount a) = l.balance FactoryHash.tnzoId a :=
    (if_pos rfl).symm
  unfold moveBalance at ran
  simp only [native, setNative_eq] at ran
  split_ifs at ran with short
  cases added : checkedAdd (l.balance FactoryHash.tnzoId dest) n with
  | none =>
    rw [added] at ran
    cases ran
  | some after =>
    rw [added] at ran
    obtain ⟨rfl, -⟩ := checkedAdd_some added
    exact ⟨not_lt.1 short, (Except.ok.inj ran).symm⟩

theorem moveBalance_paid (apart : ledgerAccount source ≠ ledgerAccount dest)
    (ran : moveBalance l source dest n = .ok l') :
    Paid l l' FactoryHash.tnzoId source dest n := by
  obtain ⟨enough, rfl⟩ := moveBalance_eq ran
  exact paid_setBalance apart enough

theorem moveBalance_others (ran : moveBalance l source dest n = .ok l')
    (other : ledgerAccount a ≠ ledgerAccount source) : l.balance y a ≤ l'.balance y a := by
  obtain ⟨-, rfl⟩ := moveBalance_eq ran
  rw [balance_setBalance]
  by_cases receives : y = FactoryHash.tnzoId ∧ ledgerAccount a = ledgerAccount dest
  · have same : l.balance y a = l.balance FactoryHash.tnzoId dest := by
      unfold Ledger.balance
      rw [if_pos receives.1, if_pos rfl, receives.2]
    rw [if_pos receives, same]
    exact Nat.le_add_right _ _
  · rw [if_neg receives, balance_setBalance, if_neg fun both => other both.2]

theorem ledgerMove_paid (apart : ledgerAccount source ≠ ledgerAccount dest)
    (ran : l.moveBalance x source dest n = .ok (some l')) : Paid l l' x source dest n := by
  unfold Ledger.moveBalance at ran
  simp only at ran
  split_ifs at ran with short
  · cases ran
  · have still : (l.setBalance x source (l.balance x source - n)).balance x dest =
        l.balance x dest := by
      rw [balance_setBalance, if_neg fun both => apart both.2.symm]
    rw [still] at ran
    cases added : checkedAdd (l.balance x dest) n with
    | none =>
      rw [added] at ran
      cases ran
    | some after =>
      rw [added] at ran
      obtain rfl := Option.some.inj (Except.ok.inj ran)
      obtain ⟨rfl, -⟩ := checkedAdd_some added
      exact paid_setBalance apart (not_lt.1 short)

omit [FactoryHash] in
theorem onLedger_ok {α : Type} {r : Except Token.VmError α} {z : α} :
    onLedger r = .ok z ↔ r = .ok z := by
  unfold onLedger
  cases r with
  | error e => exact ⟨nofun, nofun⟩
  | ok z' => simp [Except.mapError]

theorem transfer_short {nowMs : ℤ} (ran : l.transfer x source dest n nowMs = .ok none) :
    canTransfer l x source dest n nowMs = .ok () ∧ l.balance x source < n := by
  obtain ⟨_, allowed, ran⟩ := bind_ok.1 ran
  refine ⟨refuseWith_ok.1 allowed, ?_⟩
  unfold Ledger.moveBalance at ran
  simp only at ran
  split_ifs at ran with short
  · exact short
  · split at ran
    · cases ran
    · cases ran

theorem hold_paid [RouteCrypto] {token : Option Bytes} {nowMs : ℤ}
    (apart : ledgerAccount source ≠ ledgerAccount dest)
    (ran : hold l token source dest n nowMs = .ok l')
    (covered : ∀ id, token = some id → canTransfer l id source dest n nowMs = .ok () →
      n ≤ l.balance id source) :
    Paid l l' (token.getD FactoryHash.tnzoId) source dest n := by
  cases token with
  | none => exact moveBalance_paid apart ran
  | some id =>
    obtain ⟨moved, went, same⟩ := map_ok.1 ran
    cases moved with
    | none =>
      obtain ⟨allowed, short⟩ := transfer_short (onLedger_ok.1 went)
      exact absurd (covered id rfl allowed) (not_le.2 short)
    | some l₁ =>
      obtain rfl : l₁ = l' := same
      obtain ⟨_, -, went⟩ := bind_ok.1 (onLedger_ok.1 went)
      exact ledgerMove_paid apart went

theorem burn_others (ran : l.burn x source n = .ok l')
    (other : ledgerAccount a ≠ ledgerAccount source) : l'.balance y a = l.balance y a := by
  obtain ⟨r, -, ran⟩ := bind_ok.1 ran
  obtain ⟨_, -, ran⟩ := bind_ok.1 ran
  obtain ⟨_, -, ran⟩ := bind_ok.1 ran
  obtain rfl := pure_ok.1 ran
  change (l.writeBalance x source (l.held x source - n)).balance y a = _
  have still : (l.writeBalance x source (l.held x source - n)).held y a = l.held y a := by
    rw [held_writeBalance, if_neg fun both => other both.2]
  unfold Ledger.balance
  rw [native_writeBalance, still]

end

/-! ### What each operation writes -/

section
variable [RouteCrypto] [FactoryHash] {s s' : ExitState} {view : ExitView} {sender : Bytes}
  {e : PendingExit} {id : ℕ}

def PendingExit.holding (e : PendingExit) : Bytes := e.token.getD FactoryHash.tnzoId

def Signs (sender : Bytes) : Prop := ledgerAccount sender ≠ ledgerAccount exitEscrow

/-- Nothing but the ledger and the route's records moved, and only the sender paid. -/
structure Sent (s s' : ExitState) (sender : Bytes) : Prop where
  exits : s'.exits = s.exits
  queued : s'.queued = s.queued
  last : s'.lastExitId = s.lastExitId
  others : ∀ y a, ledgerAccount a ≠ ledgerAccount sender →
    s.ledger.balance y a ≤ s'.ledger.balance y a

structure Queued (s s' : ExitState) (e : PendingExit) : Prop where
  id : e.id = s.lastExitId + 1
  last : s'.lastExitId = s.lastExitId + 1
  exits : s'.exits = update s.exits e.id (some e)
  queued : s'.queued = update s.queued e.unit (saturatingAdd 128 (s.queued e.unit) e.amount)
  paid : Paid s.ledger s'.ledger e.holding e.sender exitEscrow e.amount

structure Returned (s s' : ExitState) (id : ℕ) (e : PendingExit) : Prop where
  found : s.exits id = some e
  last : s'.lastExitId = s.lastExitId
  exits : s'.exits = update s.exits id none
  queued : s'.queued = update s.queued e.unit (s.queued e.unit - e.amount)
  paid : Paid s.ledger s'.ledger e.holding exitEscrow e.sender e.amount

omit [RouteCrypto] in
theorem charge_sent (ran : s.charge view sender = .ok s') : Sent s s' sender := by
  unfold ExitState.charge at ran
  simp only at ran
  split_ifs at ran
  obtain rfl := Except.ok.inj ran
  refine ⟨rfl, rfl, rfl, fun y a other => ?_⟩
  simp only [setNative_eq]
  rw [balance_setBalance, if_neg fun both => other both.2]

theorem queue_ok {route : BridgeRoute} {asset : Option CarriedAsset} {chain : String}
    {recipient : Bytes} {amount : ℕ} {delayed : Bool}
    (ran : s.queue view route asset sender chain recipient amount delayed = .ok (s', e))
    (signs : Signs sender)
    (covered : ∀ id, token route asset = .ok (some id) →
      canTransfer s.ledger id sender exitEscrow amount view.nowMs = .ok () →
      amount ≤ s.ledger.balance id sender) :
    e.sender = sender ∧ e.amount = amount ∧ exitUnit route asset = .ok e.unit ∧
      Queued s s' e := by
  obtain ⟨heldToken, kind, ran⟩ := bind_ok.1 ran
  obtain ⟨unit, named, ran⟩ := bind_ok.1 ran
  by_cases full : s.lastExitId = maxValue 64
  · rw [if_pos full] at ran
    cases ran
  · rw [if_neg full] at ran
    obtain ⟨ledger, paid, ran⟩ := bind_ok.1 ran
    cases pure_ok.1 ran
    have unitOf : exitUnit route asset = .ok unit := by
      cases of : exitUnit route asset with
      | error e =>
        rw [of] at named
        cases named
      | ok u =>
        rw [of] at named
        obtain rfl : u = unit := Except.ok.inj named
        rfl
    exact ⟨rfl, rfl, unitOf, rfl, rfl, rfl, rfl,
      hold_paid signs paid fun id eq => covered id (eq ▸ kind)⟩

omit [RouteCrypto] [FactoryHash] in
theorem readExit_ok : s.readExit id = .ok e ↔ s.exits id = some e := by
  unfold ExitState.readExit refuse
  cases s.exits id with
  | none => simp
  | some e' => simp

theorem take_refund_ok (ran : s.take id = .ok (s', e)) {s'' : ExitState}
    (back : s'.refund view e = .ok s'')
    (covered : ∀ e, s.exits id = some e → Signs e.sender ∧
      e.amount ≤ s.ledger.balance e.holding exitEscrow) : Returned s s'' id e := by
  obtain ⟨_, found, ran⟩ := bind_ok.1 ran
  cases pure_ok.1 ran
  obtain ⟨ledger, paid, back⟩ := bind_ok.1 back
  cases pure_ok.1 back
  have recorded := readExit_ok.1 found
  obtain ⟨signs, enough⟩ := covered _ recorded
  refine ⟨recorded, rfl, rfl, rfl, hold_paid (Ne.symm signs) paid fun token eq _ => ?_⟩
  have held : e.holding = token := by
    unfold PendingExit.holding
    rw [eq]
    rfl
  rw [← held]
  exact enough

theorem debitOutbound_others {l l' : Ledger} {route : BridgeRoute} {asset : Option CarriedAsset}
    {amount : ℕ} (ran : debitOutbound l view route asset sender amount = .ok l') {y a : Bytes}
    (other : ledgerAccount a ≠ ledgerAccount sender) : l.balance y a ≤ l'.balance y a := by
  unfold debitOutbound at ran
  cases frozen : view.frozen with
  | some owed =>
    rw [frozen] at ran
    cases ran
  | none =>
    rw [frozen] at ran
    cases asset with
    | some carried => exact (burn_others (onLedger_ok.1 ran) other).ge
    | none =>
      simp only at ran
      split_ifs at ran with deposit
      · exact moveBalance_others ran other
      · cases issued : depositAsset route.family with
        | none =>
          rw [issued] at ran
          cases ran
        | some id =>
          rw [issued] at ran
          exact (burn_others (onLedger_ok.1 ran) other).ge

theorem cancel_ok {result : ExitResult} (ran : s.cancel view id sender = .ok (s', result))
    (covered : ∀ e, s.exits id = some e → Signs e.sender ∧
      e.amount ≤ s.ledger.balance e.holding exitEscrow) :
    ∃ e authority, result = .exitCancelled e authority ∧ Returned s s' id e := by
  obtain ⟨_, -, ran⟩ := bind_ok.1 ran
  obtain ⟨authority, -, ran⟩ := bind_ok.1 ran
  obtain ⟨⟨m, e⟩, taken, ran⟩ := bind_ok.1 ran
  obtain ⟨_, back, ran⟩ := bind_ok.1 ran
  cases pure_ok.1 ran
  exact ⟨e, authority, rfl, take_refund_ok taken back covered⟩

theorem release_ok (ran : s.release view id = .ok (s', e))
    (covered : ∀ e, s.exits id = some e → Signs e.sender ∧
      e.amount ≤ s.ledger.balance e.holding exitEscrow) : Returned s s' id e := by
  obtain ⟨_, -, ran⟩ := bind_ok.1 ran
  split_ifs at ran with early faulted gone
  · cases ran
  · cases ran
  · cases ran
  · obtain ⟨⟨m, e⟩, taken, ran⟩ := bind_ok.1 ran
    obtain ⟨_, back, ran⟩ := bind_ok.1 ran
    cases pure_ok.1 ran
    exact take_refund_ok taken back covered

variable [Json] [RouteEnv]

theorem exitNow_ok {chain : String} {recipient : Bytes} {amount : ℕ} {asset : Option String}
    (ran : s.exitNow view sender chain recipient amount asset = .ok s') : Sent s s' sender := by
  obtain ⟨_, -, ran⟩ := bind_ok.1 ran
  obtain ⟨⟨writes, route, out⟩, -, ran⟩ := bind_ok.1 ran
  obtain ⟨records, -, ran⟩ := bind_ok.1 ran
  obtain ⟨ledger, paid, ran⟩ := bind_ok.1 ran
  cases pure_ok.1 ran
  exact ⟨rfl, rfl, rfl, fun y a other => debitOutbound_others paid other⟩

/-- An outbound transfer that is to queue in a token is from an account that holds its amount, and
the queue's total in the unit stays within its width. -/
def Backed (s : ExitState) (view : ExitView) (sender : Bytes) : BridgeOp → Prop
  | .outbound targetChain _ amount asset => ∀ s' route carried overCap,
    s.charge view sender = .ok s' →
    s'.planExit view (toAsciiLower targetChain) amount asset = .ok (route, carried, overCap) →
    (overCap.isSome ∨ waits view amount
      ((carried.map fun a => a.outflow.capacity).getD route.outflow.capacity)) →
    (∀ id, token route carried = .ok (some id) →
      canTransfer s'.ledger id sender exitEscrow amount view.nowMs = .ok () →
      amount ≤ s'.ledger.balance id sender) ∧
    ∀ unit, exitUnit route carried = .ok unit → s'.queued unit + amount ≤ maxValue 128
  | _ => True

end

end Tenzro.BridgeExit
