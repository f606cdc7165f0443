import Tenzro.SettlementEvm

set_option autoImplicit false
set_option linter.dupNamespace false

/-!
# The settlement lock refines the machine

Through any nesting of calls, as long as no lock completes inside the token transfer of a lock of the
same leg.
-/
namespace Tenzro.Settlement
open ByteCodec ProofVerifiers Outcome List Function

section
variable [SchemeHash] {s s' : LockContract} {params : LockParams} {frames : List Frame}

/-! ### The contract's functions -/

theorem evmDecisionTreeKey_eq {plan : Word} : evmDecisionTreeKey plan = decisionTreeKey plan := by
  have lead : utf8 "storage:ffffffffffffffffffffffffffffffffffffffff:" =
      utf8 "storage:" ++ replicate 40 (UInt8.ofNat 102) ++ utf8 ":" := by decide
  have domain : ([5, 0] : Bytes) = leBytes 2 5 := by decide
  unfold evmDecisionTreeKey decisionTreeKey FinalityVerifier.systemSlotTreeKey treeKeyDomain
  simp only [lead, domain, flatMap_cons, flatMap_nil, flatMap_append,
    append_nil, append_assoc]
  rfl

omit [SchemeHash] in
theorem leg_locked {l : Lock} (locked : l.state = lockedState) :
    l.leg = some ⟨⟨l.payer, l.recipient, l.token, l.amount, l.escapeAt⟩, .locked⟩ := by
  unfold Lock.leg
  rw [locked]
  rfl

omit [SchemeHash] in
theorem leg_moved {l : Lock} {next : LegState} : ({ l with state := next.kind } : Lock).leg =
    some ⟨⟨l.payer, l.recipient, l.token, l.amount, l.escapeAt⟩, next⟩ := by
  cases next with
  | locked => rfl
  | released => rfl
  | refunded => rfl

omit [SchemeHash] in
theorem legs_update {id : Word} {l : Lock} : (fun id' => (update s.locks id l id').leg) =
    update s.legs id l.leg := by
  funext id'
  by_cases same : id' = id
  · subst same
    rw [update_self, update_self]
  · rw [update_of_ne same, update_of_ne same]
    rfl

/-- A leg's move, and the payment it calls for. -/
structure Moves (s s' : LockContract) (p : Payout Address Address) (t : Terms Address Address)
    (next : LegState) : Prop where
  own : ∃ index, p.leg = legId p.plan index
  held : s.legs p.leg = some ⟨t, .locked⟩
  moved : s' = s.moveLock p.plan p.leg (s.locks p.leg) next.kind
  terms : t = ⟨(s.locks p.leg).payer, (s.locks p.leg).recipient, (s.locks p.leg).token,
    (s.locks p.leg).amount, (s.locks p.leg).escapeAt⟩
  pays : p = ⟨p.plan, p.leg, t.payee next, t.asset, t.amount, p.cause⟩
  allowed : p.cause.Allows p.plan t next

theorem settle_moves {roots : ℕ → Word} {plan : Word} {index : UInt8} {tenzroCheckpoint : ℕ}
    {decision proof : Bytes} {p : Payout Address Address}
    (ran : s.settle roots plan index tenzroCheckpoint decision proof = .ok (s', p)) :
    ∃ t next, Moves s s' p t next := by
  unfold LockContract.settle at ran
  simp only [bind_ok] at ran
  obtain ⟨_, locked, _, -, _, shape, _, names, _, known, _, proven, ran⟩ := ran
  have held := leg_locked (ensure_ok.1 locked)
  have shape := ensure_ok.1 shape
  have names := ensure_ok.1 names
  have known := ensure_ok.1 known
  have proven := ensure_ok.1 proven
  rw [contract_verifyAt, if_pos rfl, evmDecisionTreeKey_eq] at proven
  rw [not_or, not_not, not_not] at shape
  have whole : decision.drop 10 = plan.1 := by
    rw [take_of_length_le (by rw [length_drop, shape.1])] at names
    exact names
  have decoded : decodeDecision plan decision = if decision.getD 1 0 = 1 then some .commit
      else if decision.getD 1 0 = 2 then some .abort else none := by
    unfold decodeDecision decisionLen
    rw [if_neg]
    rintro (long | version | other)
    · exact long shape.1
    · exact version shape.2
    · exact other whole
  split_ifs at ran with commits
  · cases pure_ok.1 ran
    refine ⟨_, .released, ⟨index, rfl⟩, held, rfl, rfl, rfl, ?_⟩
    change settleLeg .locked (roots tenzroCheckpoint) plan decision proof = .ok .released
    unfold settleLeg provenOutcome
    rw [decoded, if_pos commits]
    simp [proven]
  · cases pure_ok.1 ran
    refine ⟨_, .refunded, ⟨index, rfl⟩, held, rfl, rfl, rfl, ?_⟩
    have aborts : decision.getD 1 0 = 2 := by
      by_contra other
      exact known ⟨commits, other⟩
    change settleLeg .locked (roots tenzroCheckpoint) plan decision proof = .ok .refunded
    unfold settleLeg provenOutcome
    rw [decoded, if_neg commits, if_pos aborts]
    simp [proven]

theorem escape_moves {now : ℕ} {plan : Word} {index : UInt8} {p : Payout Address Address}
    (ran : s.escape now plan index = .ok (s', p)) : ∃ t next, Moves s s' p t next := by
  unfold LockContract.escape at ran
  obtain ⟨_, locked, ran⟩ := bind_ok.1 ran
  obtain ⟨_, late, ran⟩ := bind_ok.1 ran
  have held := leg_locked (ensure_ok.1 locked)
  cases pure_ok.1 ran
  exact ⟨_, .refunded, ⟨index, rfl⟩, held, rfl, rfl, rfl,
    escapeLeg_ok.2 ⟨rfl, not_lt.1 (ensure_ok.1 late), rfl⟩⟩

theorem completeLock_ok {c : LockCall} (ran : s.completeLock params c = .ok s') :
    ∃ escapeAt l, l.leg = some ⟨⟨c.sender, c.recipient, c.token, c.amount, escapeAt⟩, .locked⟩ ∧
      l.amount = c.amount ∧
      s' = ({ s with locks := update s.locks (legId c.plan c.index) l } :
        LockContract).record c.plan (legId c.plan c.index) reconLocked c.amount := by
  obtain ⟨_, -, ran⟩ := bind_ok.1 ran
  exact ⟨_, _, leg_locked rfl, rfl, (pure_ok.1 ran).symm⟩

/-! ### What each keeps -/

theorem Refines.record_acc (acc : s.reconAcc = accumulate s.entries) {plan id : Word}
    {kind : UInt8} {amount : ℕ} (small : amount < 2 ^ 128) :
    (s.record plan id kind amount).reconAcc = accumulate (s.record plan id kind amount).entries := by
  change sha (packedEntry s.reconAcc plan id kind amount) = accumulate (s.entries ++ [_])
  rw [accumulate_append, packedEntry_eq small, acc]
  rfl

theorem Refines.move (refines : Refines s frames) {p : Payout Address Address}
    {t : Terms Address Address} {next : LegState} (moves : Moves s s' p t next) (before : LockContract) :
    Refines s' (⟨before, .payment p, false⟩ :: frames) := by
  obtain ⟨index, own⟩ := moves.own
  obtain ⟨m, reach, legs, entries, perm⟩ := refines.machine
  obtain ⟨free, covered, room⟩ := refines.covered
  have amount : (s.locks p.leg).amount = t.amount := by rw [moves.terms]
  have asset : p.asset = t.asset := congrArg Payout.asset moves.pays
  have paid : p.amount = t.amount := congrArg Payout.amount moves.pays
  have new_legs : s'.legs = update s.legs p.leg (some ⟨t, next⟩) := by
    rw [moves.moved]
    refine legs_update.trans ?_
    rw [leg_moved, ← moves.terms]
  have new_entries : s'.entries = s.entries ++ [⟨p.plan, p.leg, next.kind, t.amount⟩] := by
    rw [moves.moved, ← amount]
    rfl
  refine ⟨⟨m.move p.plan p.leg t next p.cause, ?_, ?_, ?_, ?_⟩, ⟨fun token => free token -
    if t.asset = token then t.amount else 0, ?_, fun token => ?_⟩, ?_, ?_, fun id => ?_, ?_⟩
  · exact .move reach index own (by rw [legs, moves.held]) moves.allowed
  · rw [Machine.legs_move, legs, new_legs]
  · rw [Machine.entries_move, entries, new_entries]
  · have same_paid : s'.paid = s.paid := by
      rw [moves.moved]
      rfl
    have owed_now : owed (⟨before, .payment p, false⟩ :: frames) = p :: owed frames := rfl
    rw [same_paid, owed_now, Machine.payouts_move, ← moves.pays]
    exact (perm_middle.trans (Perm.cons p perm)).trans (perm_append_singleton p _).symm
  · rw [new_legs]
    exact covered.move moves.allowed.moves moves.held fun token => by omega
  · have same_held : s'.held = s.held := by
      rw [moves.moved]
      rfl
    have whole := room token
    obtain ⟨n, sums, le⟩ := covered token
    have part := sums.le p.leg
    simp only [moves.held] at part
    change (if t.asset = token then t.amount else 0) ≤ n at part
    have reserved_now : reserved (⟨before, .payment p, false⟩ :: frames) token =
        (if p.asset = token then p.amount else 0) + reserved frames token := sum_cons
    rw [same_held, reserved_now, asset, paid]
    simp only
    omega
  · rw [moves.moved]
    exact Refines.record_acc refines.acc (refines.small p.leg)
  · rw [moves.moved]
    change s.reconCount + 1 = (s.entries ++ [_]).length
    rw [refines.count, length_append]
    rfl
  · rw [moves.moved]
    change (update s.locks p.leg { s.locks p.leg with state := next.kind } id).amount < _
    by_cases same : id = p.leg
    · rw [same, update_self]
      exact refines.small p.leg
    · rw [update_of_ne same]
      exact refines.small id
  · intro f mem
    rcases mem_cons.1 mem with rfl | mem
    · trivial
    · exact refines.frames f mem

theorem Refines.complete {c : LockCall} (ran : s.completeLock params c = .ok s')
    (absent : s.legs (legId c.plan c.index) = none) (fits : c.amount < 2 ^ 128)
    (machine : ∃ m : Machine Address Address, Reach m ∧ m.legs = s.legs ∧ m.entries = s.entries ∧
      (s.paid ++ owed frames).Perm m.payouts)
    {free : Address → ℕ} (covered : Covered s.legs free)
    (room : ∀ token, free token + (if c.token = token then c.amount else 0) +
      reserved frames token ≤ s.held token)
    (acc : s.reconAcc = accumulate s.entries) (count : s.reconCount = s.entries.length)
    (small : ∀ id, (s.locks id).amount < 2 ^ 128) (frames_small : ∀ f ∈ frames, f.small) :
    Refines s' frames := by
  obtain ⟨m, reach, legs, entries, perm⟩ := machine
  obtain ⟨escapeAt, l, leg, amount, rfl⟩ := completeLock_ok ran
  set t : Terms Address Address := ⟨c.sender, c.recipient, c.token, c.amount, escapeAt⟩ with t_eq
  have new_legs : ∀ b : Word → Lock, b = update s.locks (legId c.plan c.index) l →
      (fun id => (b id).leg) = update s.legs (legId c.plan c.index) (some ⟨t, .locked⟩) := by
    rintro b rfl
    rw [legs_update, leg]
  refine ⟨⟨m.lock c.plan (legId c.plan c.index) t, ?_, ?_, ?_, perm⟩,
    ⟨fun token => free token + if t.asset = token then t.amount else 0, ?_, room⟩, ?_, ?_,
    fun id => ?_, frames_small⟩
  · exact .lock reach c.index rfl (by rw [legs, absent])
  · rw [Machine.legs_lock, legs]
    exact (new_legs _ rfl).symm
  · rw [Machine.entries_lock, entries]
    rfl
  · have next := covered.lock (t := t) absent fun token => le_rfl
    rw [← new_legs _ rfl] at next
    exact next
  · exact Refines.record_acc acc fits
  · change s.reconCount + 1 = (s.entries ++ [_]).length
    rw [count, length_append]
    rfl
  · change (update s.locks _ l id).amount < _
    by_cases same : id = legId c.plan c.index
    · rw [same, update_self, amount]
      exact fits
    · rw [update_of_ne same]
      exact small id

/-- What is set free of a call in progress, and what the state owes it. -/
theorem Refines.receive (refines : Refines s frames) {token : Address} {amount : ℕ} :
    Refines (s.receive token amount) frames := by
  obtain ⟨free, covered, room⟩ := refines.covered
  refine ⟨refines.machine, ⟨free, covered, fun token' => (room token').trans ?_⟩, refines.acc,
    refines.count, refines.small, refines.frames⟩
  change s.held token' ≤ update s.held token (s.held token + amount) token'
  by_cases same : token' = token
  · rw [same, update_self]
    exact Nat.le_add_right _ _
  · rw [update_of_ne same]

variable {r : LockRun} {a : LockAction}

theorem Refines.undone (refines : Refines r.state r.frames) (undoable : Undoable r.frames) :
    Refines r.undo.state r.undo.frames ∧ Undoable r.undo.frames := by
  unfold LockRun.undo
  cases held : r.frames with
  | nil =>
    rw [held] at refines undoable
    simp only [held]
    exact ⟨refines, undoable⟩
  | cons f rest =>
    rw [held] at undoable
    exact undoable

theorem Refines.startLock (refines : Refines r.state r.frames) (undoable : Undoable r.frames)
    {c : LockCall} (fits : c.amount < 2 ^ 128) :
    Refines (r.startLock params c).state (r.startLock params c).frames ∧
      Undoable (r.startLock params c).frames := by
  unfold LockRun.startLock
  cases checked : r.state.checkLock c with
  | error e => exact ⟨refines, undoable⟩
  | ok _ =>
    obtain ⟨_, free_leg, -⟩ := bind_ok.1 checked
    have absent : r.state.legs (legId c.plan c.index) = none := if_pos (ensure_ok.1 free_leg)
    simp only
    split_ifs with native
    · cases ran : (r.state.receive c.token c.amount).completeLock params c with
      | error e => exact ⟨refines, undoable⟩
      | ok s =>
        refine ⟨?_, undoable⟩
        change Refines s r.frames
        obtain ⟨free, covered, room⟩ := refines.covered
        refine Refines.complete ran absent fits refines.machine covered (fun token => ?_)
          refines.acc refines.count refines.small refines.frames
        change _ ≤ update r.state.held c.token (r.state.held c.token + c.amount) token
        have whole := room token
        by_cases same : c.token = token
        · rw [if_pos same, ← same, update_self]
          rw [← same] at whole
          omega
        · rw [if_neg same, update_of_ne (Ne.symm same)]
          omega
    · refine ⟨⟨refines.machine, ?_, refines.acc, refines.count, refines.small, fun f mem => ?_⟩,
        refines, undoable⟩
      · obtain ⟨free, covered, room⟩ := refines.covered
        refine ⟨free, covered, fun token => ?_⟩
        have same : reserved (⟨r.state, .tokens c, false⟩ :: r.frames) token =
            0 + reserved r.frames token := sum_cons
        rw [same, Nat.zero_add]
        exact room token
      · rcases mem_cons.1 mem with rfl | mem
        · exact fits
        · exact refines.frames f mem

theorem Refines.startPayment (refines : Refines r.state r.frames) (undoable : Undoable r.frames)
    {result : Except LockRevert (LockContract × Payout Address Address)}
    (moves : ∀ s' p, result = .ok (s', p) → ∃ t next, Moves r.state s' p t next) :
    Refines (r.startPayment result).state (r.startPayment result).frames ∧
      Undoable (r.startPayment result).frames := by
  cases result with
  | error e => exact ⟨refines, undoable⟩
  | ok done =>
    obtain ⟨s', p⟩ := done
    obtain ⟨t, next, moved⟩ := moves s' p rfl
    exact ⟨refines.move moved r.state, refines, undoable⟩

theorem Refines.transfer (refines : Refines r.state r.frames) (undoable : Undoable r.frames) :
    Refines (r.transfer params).state (r.transfer params).frames ∧
      Undoable (r.transfer params).frames := by
  obtain ⟨s, frames⟩ := r
  obtain ⟨free, covered, room⟩ := refines.covered
  match frames with
  | [] => exact ⟨refines, undoable⟩
  | ⟨before, .tokens c, true⟩ :: rest => exact ⟨refines, undoable⟩
  | ⟨before, .payment p, true⟩ :: rest => exact ⟨refines, undoable⟩
  | ⟨before, .tokens c, false⟩ :: rest =>
    refine ⟨⟨refines.machine, ⟨free, covered, fun token => ?_⟩, refines.acc, refines.count,
      refines.small, fun f mem => ?_⟩, undoable⟩
    · change free token + reserved (⟨before, .tokens c, true⟩ :: rest) token ≤
        update s.held c.token (s.held c.token + c.amount) token
      have whole := room token
      have old : reserved (⟨before, .tokens c, false⟩ :: rest) token = 0 + reserved rest token :=
        sum_cons
      have new : reserved (⟨before, .tokens c, true⟩ :: rest) token =
        (if c.token = token then c.amount else 0) + reserved rest token := sum_cons
      simp only at whole
      rw [new]
      rw [old] at whole
      by_cases same : c.token = token
      · rw [if_pos same, ← same, update_self]
        rw [← same] at whole
        omega
      · rw [if_neg same, update_of_ne (Ne.symm same)]
        exact whole
    · rcases mem_cons.1 mem with rfl | mem
      · exact refines.frames ⟨before, .tokens c, false⟩ mem_cons_self
      · exact refines.frames f (mem_cons_of_mem _ mem)
  | ⟨before, .payment p, false⟩ :: rest =>
    obtain ⟨m, reach, legs, entries, perm⟩ := refines.machine
    refine ⟨⟨⟨m, reach, legs, entries, ?_⟩, ⟨free, covered, fun token => ?_⟩, refines.acc,
      refines.count, refines.small, fun f mem => ?_⟩, undoable⟩
    · change (s.paid ++ [p] ++ owed rest).Perm m.payouts
      rw [append_assoc]
      exact perm
    · change free token + reserved (⟨before, .payment p, true⟩ :: rest) token ≤
        (if p.dest = params.self then s.held
          else update s.held p.asset (s.held p.asset - p.amount)) token
      have whole := room token
      have old : reserved (⟨before, .payment p, false⟩ :: rest) token =
        (if p.asset = token then p.amount else 0) + reserved rest token := sum_cons
      have new : reserved (⟨before, .payment p, true⟩ :: rest) token = 0 + reserved rest token :=
        sum_cons
      simp only at whole
      rw [new, Nat.zero_add]
      rw [old] at whole
      split_ifs with itself
      · omega
      · by_cases same : p.asset = token
        · rw [← same, update_self]
          rw [if_pos same, ← same] at whole
          omega
        · rw [update_of_ne (Ne.symm same)]
          rw [if_neg same] at whole
          omega
    · rcases mem_cons.1 mem with rfl | mem
      · trivial
      · exact refines.frames f (mem_cons_of_mem _ mem)

theorem Refines.finish (refines : Refines r.state r.frames) (undoable : Undoable r.frames)
    {ok : Bool} (alone : Undisturbed r (.returned ok)) :
    Refines (r.finish params ok).state (r.finish params ok).frames ∧
      Undoable (r.finish params ok).frames := by
  have undone := refines.undone undoable
  obtain ⟨s, frames⟩ := r
  match frames with
  | [] => exact undone
  | ⟨before, .tokens c, false⟩ :: rest => exact undone
  | ⟨before, .payment p, false⟩ :: rest => exact undone
  | ⟨before, .payment p, true⟩ :: rest =>
    unfold LockRun.finish
    simp only
    split_ifs
    · refine ⟨⟨refines.machine, ?_, refines.acc, refines.count, refines.small, fun f mem =>
        refines.frames f (mem_cons_of_mem _ mem)⟩, undone.2⟩
      obtain ⟨free, covered, room⟩ := refines.covered
      refine ⟨free, covered, fun token => ?_⟩
      have whole := room token
      have same : reserved (⟨before, .payment p, true⟩ :: rest) token = 0 + reserved rest token :=
        sum_cons
      simp only at whole ⊢
      rw [same] at whole
      omega
    · exact undone
  | ⟨before, .tokens c, true⟩ :: rest =>
    unfold LockRun.finish
    simp only
    split_ifs
    · cases ran : s.completeLock params c with
      | error e => exact undone
      | ok s' =>
        refine ⟨?_, undone.2⟩
        change Refines s' rest
        have absent : s.legs (legId c.plan c.index) = none := if_pos (alone before c rest rfl)
        have fits : c.amount < 2 ^ 128 :=
          refines.frames ⟨before, .tokens c, true⟩ mem_cons_self
        obtain ⟨free, covered, room⟩ := refines.covered
        refine Refines.complete ran absent fits refines.machine covered (fun token => ?_)
          refines.acc refines.count refines.small fun f mem =>
            refines.frames f (mem_cons_of_mem _ mem)
        have whole := room token
        have same : reserved (⟨before, .tokens c, true⟩ :: rest) token =
          (if c.token = token then c.amount else 0) + reserved rest token := sum_cons
        simp only at whole
        rw [same] at whole
        omega
    · exact undone

theorem Refines.apply (refines : Refines r.state r.frames) (undoable : Undoable r.frames)
    (fits : a.Fits) (alone : Undisturbed r a) :
    Refines (r.apply params a).state (r.apply params a).frames ∧
      Undoable (r.apply params a).frames := by
  cases a with
  | lock c => exact refines.startLock undoable fits
  | settle roots plan index tenzroCheckpoint decision proof =>
    exact refines.startPayment undoable fun s' p ran => settle_moves ran
  | escape now plan index => exact refines.startPayment undoable fun s' p ran => escape_moves ran
  | transferred => exact refines.transfer undoable
  | returned ok => exact refines.finish undoable alone
  | deposited token amount => exact ⟨refines.receive, undoable⟩

theorem Refines.run {actions : List LockAction} (refines : Refines r.state r.frames)
    (undoable : Undoable r.frames) (fits : ∀ a ∈ actions, a.Fits)
    (alone : r.Along params Undisturbed actions) :
    Refines (r.run params actions).state (r.run params actions).frames := by
  induction actions generalizing r with
  | nil => exact refines
  | cons a rest ih =>
    obtain ⟨next, back⟩ := refines.apply undoable (fits a mem_cons_self) alone.1
    exact ih next back (fun a mem => fits a (mem_cons_of_mem _ mem)) alone.2

theorem refines_start : Refines LockRun.start.state LockRun.start.frames where
  machine := ⟨.empty, .empty, rfl, rfl, Perm.refl _⟩
  covered := ⟨fun _ => 0, fun _ => ⟨0, .zero, le_rfl⟩, fun _ => le_rfl⟩
  acc := rfl
  count := rfl
  small _ := Nat.pow_pos (by decide)
  frames _ mem := absurd mem (not_mem_nil)

/-- What holds of the contract at every moment, also while calls are in progress. -/
structure EvmSound (r : LockRun) : Prop where
  sound : LockSound r.state.legs r.state.entries r.state.paid r.state.reconAcc r.state.reconCount
  covered : Covered r.state.legs r.state.held
  /-- With no call in progress, every leg that moved was paid. -/
  paid : r.frames = [] → ∀ id leg, r.state.legs id = some leg → leg.state ≠ .locked →
    ∃ p ∈ r.state.paid, p.leg = id

theorem Refines.sound (refines : Refines r.state r.frames) : EvmSound r := by
  obtain ⟨m, reach, legs, entries, perm⟩ := refines.machine
  have legit := reach.legit
  refine ⟨?_, ?_, fun idle id leg held moved => ?_⟩
  · rw [refines.acc, refines.count, ← legs, ← entries]
    exact legit.sound perm
  · obtain ⟨free, covered, room⟩ := refines.covered
    exact covered.mono fun token => (Nat.le_add_right _ _).trans (room token)
  · obtain ⟨p, mem, own⟩ := legit.paid_moved (legs ▸ held) moved
    rw [idle] at perm
    have settled : r.state.paid.Perm m.payouts := by
      rw [← append_nil r.state.paid]
      exact perm
    exact ⟨p, settled.mem_iff.2 mem, own⟩

theorem evm_sound (params : LockParams) (actions : List LockAction)
    (fits : ∀ a ∈ actions, a.Fits) (alone : LockRun.start.Along params Undisturbed actions) :
    EvmSound (LockRun.start.run params actions) :=
  (refines_start.run trivial fits alone).sound

end

end Tenzro.Settlement
