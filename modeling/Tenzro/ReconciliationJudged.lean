import Tenzro.ReconciliationRuns
import Tenzro.SettlementEvmSound

set_option autoImplicit false
set_option linter.dupNamespace false

/-!
# Whom reconciliation accuses

A lock that follows the plans is never accused, and an entry that breaks them when it is reconciled
always is. An entry is looked at once, so a refund reconciled before its plan commits stays accepted.
-/
namespace Tenzro.Settlement
open ByteCodec ProofVerifiers Outcome List Function

section
variable [SchemeHash] {v : ReconView} {books books' : ReconBooks} {call : ReconCall} {route : Route}
  {plans plans' : Plans} {digest : Bytes} {attested : Bool} {w : ReconWorld}
  {p p' : SettlementPlan} {e : ReconEntry}

/-! ### A lock that follows the plans -/

theorem Names.later {leg : Word} {amount : ℕ} (names : Names p route leg amount)
    (later : Later p p') : Names p' route leg amount := by
  obtain ⟨l, chain, found, is_lock, lower⟩ := names.lockLeg
  refine ⟨l, chain, ?_, is_lock, lower⟩
  unfold planLeg at found ⊢
  rw [later.legs, later.planId]
  exact found

omit [SchemeHash] in
theorem Committed.later (committed : Committed p) (later : Later p p') : Committed p' := by
  unfold Committed at committed ⊢
  rw [later.decision]
  · exact committed
  · intro undecided
    rw [undecided] at committed
    cases committed

/-- A lock's entry names a lock leg of the route, of the leg's amount, and a release has the plan's
commit. -/
def Sanctioned (plans : Plans) (route : Route) (e : Entry) : Prop :=
  ∃ plan, plans e.plan = some plan ∧ Names plan route e.leg e.amount ∧
    (e.kind = reconReleased → Committed plan)

theorem Sanctioned.grows {e : Entry} (sanctioned : Sanctioned plans route e)
    (grows : Grows plans plans') : Sanctioned plans' route e := by
  obtain ⟨plan, held, names, released⟩ := sanctioned
  obtain ⟨plan', held', later⟩ := grows _ plan held
  exact ⟨plan', held', names.later later, fun is_release => (released is_release).later later⟩

def Follows (route : Route) (w : ReconWorld) : ReconStep → Prop
  | .records r e => r = route → Sanctioned w.books.plans route e
  | .reconcile _ call => call.route = route → ∀ e ∈ call.entries, e.kind = .refunded →
      ∀ plan, w.books.plans e.planId = some plan → ¬ Committed plan
  | _ => True

structure Unaccused (w : ReconWorld) (route : Route) : Prop where
  mismatches : ∀ p, w.books.mismatches route p = none
  listed : (w.books.state route).mismatches = []
  slashed : ∀ s ∈ w.books.slashed, s.route ≠ route
  stops : ∀ t, w.books.stops route = some t → t.authority ≠ .reconciliation

structure Clean (w : ReconWorld) (route : Route) : Prop where
  unaccused : Unaccused w route
  pending : ∀ e ∈ (w.log route).drop (w.books.state route).count, Sanctioned w.books.plans route e

theorem Clean.reconcile (clean : Clean w route) (tracked : Tracked w route)
    (genuine : Genuine route w (.reconcile v call)) (follows : Follows route w (.reconcile v call))
    (ran : reconcile v w.books call = .ok books') : Clean { w with books := books' } route := by
  obtain ⟨count, acc, digest, attested, done⟩ := reconcile_ok ran
  by_cases own : call.route = route
  · subst own
    have submitted : ∀ e ∈ call.entries,
        e.entry ∈ (w.log call.route).drop (w.books.state call.route).count := by
      intro e mem
      obtain ⟨i, at_i⟩ := getElem?_of_mem mem
      refine mem_of_getElem? (i := i) ?_
      rw [getElem?_drop]
      exact tracked.entry_at rfl genuine done at_i
    have nothing : found v w.books call digest attested = [] := by
      refine mismatchesFrom_nil fun e mem => ?_
      obtain ⟨plan, held, names, released⟩ := clean.pending e.entry (submitted e mem)
      refine ⟨plan, held, names, fun is_release => released ?_, fun is_refund =>
        follows rfl e mem is_refund plan held⟩
      change e.kind.byte = reconReleased
      rw [is_release]
      rfl
    have state := done.state
    rw [nothing] at state
    obtain ⟨stops, slashed⟩ := done.quiet nothing
    refine ⟨⟨fun p => ?_, ?_, ?_, ?_⟩, fun e mem => ?_⟩
    · rw [done.mismatches, nothing]
      exact clean.unaccused.mismatches p
    · rw [state, clean.unaccused.listed]
      rfl
    · rw [slashed]
      exact clean.unaccused.slashed
    · rw [stops]
      exact clean.unaccused.stops
    · simp only [state] at mem
      have later : e ∈ (w.log call.route).drop (w.books.state call.route).count := by
        rw [done.counted, ← drop_drop] at mem
        exact mem_of_mem_drop mem
      simp only [done.plans]
      exact clean.pending e later
  · have state := done.state_of_ne (Ne.symm own)
    refine ⟨⟨fun p => ?_, ?_, fun s mem => ?_, ?_⟩, fun e mem => ?_⟩
    · cases held : books'.mismatches route p with
      | none => rfl
      | some m =>
        rw [done.mismatches] at held
        rcases written_of held with ⟨mem, at_route, -⟩ | old
        · obtain ⟨-, -, -, -, -, from_call, -⟩ := mem_mismatchesFrom mem
          exact absurd (from_call.symm.trans at_route) own
        · rw [clean.unaccused.mismatches p] at old
          cases old
    · rw [state]
      exact clean.unaccused.listed
    · rcases done.slashed s mem with old | at_call
      · exact clean.unaccused.slashed s old
      · rw [at_call]
        exact own
    · simp only [done.others route (Ne.symm own)]
      exact clean.unaccused.stops
    · simp only [state] at mem
      simp only [done.plans]
      exact clean.pending e mem

theorem Clean.step {a : ReconStep} (clean : Clean w route) (tracked : Tracked w route)
    (genuine : Genuine route w a) (follows : Follows route w a) : Clean (w.step a) route := by
  cases a with
  | plan v op =>
    unfold ReconWorld.step
    cases ran : executePlan v w.books.plans op with
    | error e =>
      simp only [ran]
      exact clean
    | ok plans =>
      simp only [ran]
      have grows := (executePlan_kept tracked.kept ran).grows
      exact ⟨⟨clean.unaccused.mismatches, clean.unaccused.listed, clean.unaccused.slashed,
        clean.unaccused.stops⟩, fun e mem => (clean.pending e mem).grows grows⟩
  | policy r stop =>
    refine ⟨⟨clean.unaccused.mismatches, clean.unaccused.listed, clean.unaccused.slashed,
      fun t held => ?_⟩, clean.pending⟩
    have held : update w.books.stops r stop route = some t := held
    by_cases own : route = r
    · subst own
      rw [update_self] at held
      exact genuine rfl t held
    · rw [update_of_ne own] at held
      exact clean.unaccused.stops t held
  | records r e =>
    refine ⟨⟨clean.unaccused.mismatches, clean.unaccused.listed, clean.unaccused.slashed,
      clean.unaccused.stops⟩, fun x mem => ?_⟩
    have mem : x ∈ (update w.log r (w.log r ++ [e]) route).drop
      (w.books.state route).count := mem
    by_cases own : route = r
    · subst own
      rw [update_self, drop_append_of_le_length tracked.count] at mem
      rcases mem_append.1 mem with old | new
      · exact clean.pending x old
      · rw [mem_singleton.1 new]
        exact follows rfl
    · rw [update_of_ne own] at mem
      exact clean.pending x mem
  | reconcile v call =>
    unfold ReconWorld.step
    cases ran : Settlement.reconcile v w.books call with
    | error e =>
      simp only [ran]
      exact clean
    | ok books' =>
      simp only [ran]
      exact clean.reconcile tracked genuine follows ran

theorem Clean.run {steps : List ReconStep} (clean : Clean w route) (tracked : Tracked w route)
    (genuine : w.Along (Genuine route) steps) (follows : w.Along (Follows route) steps) :
    Clean (w.run steps) route := by
  induction steps generalizing w with
  | nil => exact clean
  | cons a rest ih =>
    exact ih (clean.step tracked genuine.1 follows.1) (tracked.step genuine.1) genuine.2 follows.2

theorem clean_start : Clean .start route where
  unaccused := ⟨fun _ => rfl, rfl, fun _ mem => absurd mem not_mem_nil, fun _ held => nomatch held⟩
  pending _ mem := absurd mem not_mem_nil

/-! ### What stays -/

/-- A recorded mismatch stays recorded, and a lock's entries stay. -/
structure Stays (w w' : ReconWorld) (route : Route) : Prop where
  mismatch : ∀ p, (w.books.mismatches route p).isSome → (w'.books.mismatches route p).isSome
  log : w.log route <+: w'.log route

theorem stays_step (w : ReconWorld) (a : ReconStep) : Stays w (w.step a) route := by
  cases a with
  | plan v op =>
    unfold ReconWorld.step
    cases ran : executePlan v w.books.plans op with
    | error e =>
      simp only [ran]
      exact ⟨fun _ held => held, prefix_rfl⟩
    | ok plans =>
      simp only [ran]
      exact ⟨fun _ held => held, prefix_rfl⟩
  | policy r stop => exact ⟨fun _ held => held, prefix_rfl⟩
  | records r e =>
    refine ⟨fun _ held => held, ?_⟩
    change w.log route <+: update w.log r (w.log r ++ [e]) route
    by_cases own : route = r
    · subst own
      rw [update_self]
      exact prefix_append ..
    · rw [update_of_ne own]
  | reconcile v call =>
    unfold ReconWorld.step
    cases ran : Settlement.reconcile v w.books call with
    | error e =>
      simp only [ran]
      exact ⟨fun _ held => held, prefix_rfl⟩
    | ok books' =>
      simp only [ran]
      obtain ⟨count, acc, digest, attested, done⟩ := reconcile_ok ran
      refine ⟨fun p held => ?_, prefix_rfl⟩
      rw [done.mismatches]
      exact written_kept held

theorem stays_run (w : ReconWorld) (steps : List ReconStep) : Stays w (w.run steps) route := by
  induction steps generalizing w with
  | nil => exact ⟨fun _ held => held, prefix_rfl⟩
  | cons a rest ih =>
    have first : Stays w (w.step a) route := stays_step w a
    have second := ih (w.step a)
    exact ⟨fun p held => second.mismatch p (first.mismatch p held), first.log.trans second.log⟩

/-- What comes of an entry reconciled in a world, by the end of the run: it is the lock's entry at
its position, and where it disagrees with the books it is recorded and the route stopped. -/
structure JudgedAt (w w' : ReconWorld) (books' : ReconBooks) (route : Route) (i : ℕ)
    (e : ReconEntry) : Prop where
  recorded : (w.log route)[(w.books.state route).count + i]? = some e.entry
  accused : ¬ Agrees w.books.plans route e →
    (∃ m, w'.books.mismatches route ((w.books.state route).count + i + 1) = some m ∧
      m.entry.entry = e.entry) ∧ ∃ t, books'.stops route = some t ∧ t.mode ≠ .opened

theorem Tracked.judges {rest : List ReconStep} (tracked : Tracked w route)
    (genuine : w.Along (Genuine route) (.reconcile v call :: rest)) (own : call.route = route)
    (ran : Settlement.reconcile v w.books call = .ok books') {i : ℕ} (at_i : call.entries[i]? = some e) :
    JudgedAt w (w.run (.reconcile v call :: rest)) books' route i e := by
  subst own
  obtain ⟨count, acc, digest, attested, done⟩ := reconcile_ok ran
  have there := tracked.entry_at rfl genuine.1 done at_i
  refine ⟨there, fun disagrees => ?_⟩
  obtain ⟨m, mem, position⟩ : ∃ m ∈ found v w.books call digest attested,
      m.position = (w.books.state call.route).count + i + 1 := exists_mismatch at_i disagrees
  obtain ⟨-, -, -, -, -, at_route, -⟩ := mem_mismatchesFrom mem
  have next : w.step (.reconcile v call) = { w with books := books' } := by
    unfold ReconWorld.step
    simp only [ran]
  have written : (books'.mismatches call.route ((w.books.state call.route).count + i + 1)).isSome := by
    rw [done.mismatches, ← position, ← at_route]
    exact written_new mem
  have later : Stays { w with books := books' } (ReconWorld.run { w with books := books' } rest)
      call.route := stays_run _ rest
  have same_run : w.run (.reconcile v call :: rest) = ReconWorld.run { w with books := books' } rest := by
    change (w.step (.reconcile v call)).run rest = _
    rw [next]
  rw [same_run]
  obtain ⟨m', held⟩ := Option.isSome_iff_exists.1 (later.mismatch _ written)
  have tracked' : Tracked (ReconWorld.run { w with books := books' } rest) call.route := by
    rw [← same_run]
    exact tracked.run genuine
  obtain ⟨j, position', at_j⟩ := tracked'.recorded _ m' held
  have same_j : j = (w.books.state call.route).count + i := by omega
  subst same_j
  obtain ⟨more, whole⟩ := later.log
  have inside := (List.getElem?_eq_some_iff.1 there).1
  rw [← whole, getElem?_append_left inside] at at_j
  refine ⟨⟨m', held, Option.some.inj (at_j.symm.trans there)⟩, done.stopped fun nothing => ?_⟩
  rw [nothing] at mem
  exact absurd mem not_mem_nil

/-! ### The lock of an EVM chain -/

/-- The state and every state a call in progress may go back to. -/
def Everywhere (P : LockContract → Prop) (r : LockRun) : Prop :=
  P r.state ∧ ∀ f ∈ r.frames, P f.before

/-- What depends on the recorded entries alone, and is kept by recording one, is kept by every
action. -/
theorem Everywhere.apply {P : LockContract → Prop} {params : LockParams} {r : LockRun}
    (recorded : ∀ s s' : LockContract, s'.reconAcc = s.reconAcc → s'.reconCount = s.reconCount →
      s'.entries = s.entries → P s → P s')
    (records : ∀ (s : LockContract) plan id kind amount, P s → P (s.record plan id kind amount))
    (all : Everywhere P r) (a : LockAction) : Everywhere P (r.apply params a) := by
  have pays : ∀ result : Except LockRevert (LockContract × Payout Address Address),
      (∀ s' p, result = .ok (s', p) → ∃ t next, Moves r.state s' p t next) →
        Everywhere P (r.startPayment result) := by
    intro result moves
    cases result with
    | error e => exact all
    | ok done =>
      obtain ⟨s', p⟩ := done
      obtain ⟨t, next, moved⟩ := moves s' p rfl
      refine ⟨?_, forall_mem_cons.2 ⟨all.1, all.2⟩⟩
      change P s'
      rw [moved.moved]
      exact records _ _ _ _ _ (recorded r.state _ rfl rfl rfl all.1)
  have completes : ∀ (s s' : LockContract) (c : LockCall), P s → s.completeLock params c = .ok s' →
      P s' := by
    intro s s' c held ran
    obtain ⟨escapeAt, l, -, -, rfl⟩ := completeLock_ok ran
    exact records _ _ _ _ _ (recorded s _ rfl rfl rfl held)
  have undone : Everywhere P r.undo := by
    unfold LockRun.undo
    cases held : r.frames with
    | nil => exact all
    | cons f rest => exact forall_mem_cons.1 (held ▸ all.2)
  cases a with
  | lock c =>
    change Everywhere P (r.startLock params c)
    unfold LockRun.startLock
    cases r.state.checkLock c with
    | error e => exact all
    | ok _ =>
      simp only
      split_ifs
      · cases ran : (r.state.receive c.token c.amount).completeLock params c with
        | error e => exact all
        | ok s' => exact ⟨completes (r.state.receive c.token c.amount) s' c
          (recorded r.state _ rfl rfl rfl all.1) ran, all.2⟩
      · exact ⟨all.1, forall_mem_cons.2 ⟨all.1, all.2⟩⟩
  | settle roots plan index tenzroCheckpoint decision proof =>
    exact pays _ fun s' p ran => settle_moves ran
  | escape now plan index => exact pays _ fun s' p ran => escape_moves ran
  | transferred =>
    obtain ⟨s, frames⟩ := r
    match frames with
    | [] => exact all
    | ⟨before, .tokens c, true⟩ :: rest => exact all
    | ⟨before, .payment p, true⟩ :: rest => exact all
    | ⟨before, .tokens c, false⟩ :: rest
    | ⟨before, .payment c, false⟩ :: rest =>
      obtain ⟨first, later⟩ := forall_mem_cons.1 all.2
      exact ⟨recorded s _ rfl rfl rfl all.1, forall_mem_cons.2 ⟨first, later⟩⟩
  | returned ok =>
    obtain ⟨s, frames⟩ := r
    match frames with
    | [] | ⟨_, .tokens _, false⟩ :: _ | ⟨_, .payment _, false⟩ :: _ => exact undone
    | ⟨before, .payment p, true⟩ :: rest =>
      change Everywhere P (if ok then _ else _)
      split_ifs
      · exact ⟨all.1, undone.2⟩
      · exact undone
    | ⟨before, .tokens c, true⟩ :: rest =>
      change Everywhere P (if ok then _ else _)
      split_ifs
      · cases ran : s.completeLock params c with
        | error e => exact undone
        | ok s' => exact ⟨completes s s' c all.1 ran, undone.2⟩
      · exact undone
  | deposited token amount => exact ⟨recorded r.state _ rfl rfl rfl all.1, all.2⟩

theorem Everywhere.run {P : LockContract → Prop} {params : LockParams} {r : LockRun}
    (recorded : ∀ s s' : LockContract, s'.reconAcc = s.reconAcc → s'.reconCount = s.reconCount →
      s'.entries = s.entries → P s → P s')
    (records : ∀ (s : LockContract) plan id kind amount, P s → P (s.record plan id kind amount))
    (all : Everywhere P r) (actions : List LockAction) : Everywhere P (r.run params actions) := by
  induction actions generalizing r with
  | nil => exact all
  | cons a rest ih => exact ih (all.apply recorded records a)

def Chained (s : LockContract) : Prop :=
  s.reconAcc = lockHash s.entries ∧ s.reconCount = s.entries.length

theorem evm_chained (params : LockParams) (actions : List LockAction) :
    Chained (LockRun.start.run params actions).state := by
  have all : Everywhere Chained LockRun.start :=
    ⟨⟨rfl, rfl⟩, fun _ mem => absurd mem not_mem_nil⟩
  refine (all.run (fun s s' acc count entries held => ?_) (fun s plan id kind amount held => ?_)
    actions).1
  · exact ⟨acc.trans (entries ▸ held.1), count.trans (entries ▸ held.2)⟩
  · refine ⟨?_, ?_⟩
    · change sha (packedEntry s.reconAcc plan id kind amount) = lockHash (s.entries ++ [_])
      rw [lockHash_append, held.1]
    · change s.reconCount + 1 = (s.entries ++ [_]).length
      rw [held.2, length_append]
      rfl

theorem evm_grows (params : LockParams) {r : LockRun} (idle : r.frames = [])
    (actions : List LockAction) : r.state.entries <+: (r.run params actions).state.entries := by
  have all : Everywhere (fun s => r.state.entries <+: s.entries) r := by
    refine ⟨prefix_rfl, fun f mem => ?_⟩
    rw [idle] at mem
    exact absurd mem not_mem_nil
  refine (all.run (fun s s' _ _ entries held => ?_) (fun s plan id kind amount held => ?_) actions).1
  · rw [entries]
    exact held
  · exact held.trans (prefix_append ..)

/-! ### Every run -/

def Wrong (plans : Plans) (e : ReconEntry) : Prop :=
  ∃ plan, plans e.planId = some plan ∧
    ((e.kind = .released ∧ ¬ Committed plan) ∨ (e.kind = .refunded ∧ Committed plan))

omit [SchemeHash] in
theorem Wrong.disagrees [SchemeHash] (wrong : Wrong plans e) : ¬ Agrees plans route e := by
  obtain ⟨plan, held, broken⟩ := wrong
  rintro ⟨plan', held', -, released, refunded⟩
  rw [held] at held'
  cases held'
  rcases broken with ⟨kind, uncommitted⟩ | ⟨kind, committed⟩
  · exact uncommitted (released kind)
  · exact refunded kind committed

theorem along_append {p : ReconWorld → ReconStep → Prop} {first rest : List ReconStep}
    (along : w.Along p (first ++ rest)) : w.Along p first ∧ (w.run first).Along p rest := by
  induction first generalizing w with
  | nil => exact ⟨trivial, along⟩
  | cons a first ih =>
    obtain ⟨now, later⟩ := along
    obtain ⟨part, whole⟩ := ih later
    exact ⟨⟨now, part⟩, whole⟩

/-- A lock that follows the plans is never accused; an entry that disagrees with the books when
reconciled is recorded for good and stops the route; an EVM lock shows the hash and count of what it
only adds to. -/
theorem reconciliation_judges (route : Route) (steps : List ReconStep)
    (genuine : ReconWorld.start.Along (Genuine route) steps) :
    (ReconWorld.start.Along (Follows route) steps →
      Unaccused (ReconWorld.start.run steps) route) ∧
    (∀ first v call rest books', steps = first ++ .reconcile v call :: rest → call.route = route →
      reconcile v (ReconWorld.start.run first).books call = .ok books' →
        ∀ i e, call.entries[i]? = some e →
          JudgedAt (ReconWorld.start.run first) (ReconWorld.start.run steps) books' route i e ∧
            (Wrong (ReconWorld.start.run first).books.plans e →
              ¬ Agrees (ReconWorld.start.run first).books.plans route e)) ∧
    (∀ params actions, Chained (LockRun.start.run params actions).state ∧ ∀ r : LockRun,
      r.frames = [] → r.state.entries <+: (r.run params actions).state.entries) := by
  refine ⟨fun follows => (clean_start.run tracked_start genuine follows).unaccused, ?_,
    fun params actions => ⟨evm_chained params actions, fun r idle => evm_grows params idle actions⟩⟩
  rintro first v call rest books' rfl own ran i e at_i
  obtain ⟨before, now⟩ := along_append genuine
  have whole : ReconWorld.start.run (first ++ .reconcile v call :: rest) =
      (ReconWorld.start.run first).run (.reconcile v call :: rest) := foldl_append ..
  rw [whole]
  exact ⟨(tracked_start.run before).judges now own ran at_i, Wrong.disagrees⟩

end

section
attribute [local instance] residueDigest

def ethereum : Route := (.ccip, "ethereum")

def onePlanId : Word := ⟨replicate 32 5, length_replicate⟩

/-- Every check and move succeeds; the legs are as far as given. -/
def easyPlans (progress : LegProgress) : PlanView where
  nowMs := 0
  horizon := 1000
  evaluate _ _ := progress
  opens := true
  commits _ := true
  aborts _ := true
  confirms _ _ := true
  evidence _ _ := some false

/-- A plan of one lock leg of 100 on Ethereum. -/
def openOne : ReconStep :=
  .plan (easyPlans .pending) (.opened onePlanId [1] [⟨.payee, .address [2]⟩]
    [⟨.remoteLock .ccip "ethereum" 100, .attested, 7⟩] 500)

def commitOne : ReconStep :=
  .plan (easyPlans (.reached .attested)) (.proveLeg onePlanId 0 true [3])

def legEntry (planId : Word) (kind : ReconKind) : ReconEntry := ⟨planId, legId planId 0, kind, 100⟩

def provenBy (entries : List ReconEntry) : ReconView where
  nowMs := 0
  epoch := 3
  proven := some (entries.length, lockHash (entries.map ReconEntry.entry), [9], true)
  resolve _ := none
  toWei n := n
  committees := some ⟨[[4], [6]], []⟩
  slashBps := 1000
  slashes _ := true
  pays := true

def reconcileAll (entries : List ReconEntry) : ReconStep :=
  .reconcile (provenBy entries) ⟨.ccip, "Ethereum", entries, [8]⟩

def strangerRun : List ReconStep :=
  [.records ethereum (legEntry (legId onePlanId 9) .locked).entry,
    reconcileAll [legEntry (legId onePlanId 9) .locked]]

/-- A lock refunds an undecided plan's leg, which is reconciled before the plan commits. -/
def refundedRun : List ReconStep :=
  [openOne, .records ethereum (legEntry onePlanId .locked).entry,
    .records ethereum (legEntry onePlanId .refunded).entry,
    reconcileAll [legEntry onePlanId .locked, legEntry onePlanId .refunded], commitOne]

theorem runs_end :
    (((ReconWorld.start.run strangerRun).books.state ethereum).mismatches = [1] ∧
      (ReconWorld.start.run strangerRun).books.slashed =
        [⟨ethereum, [4], 1000⟩, ⟨ethereum, [6], 1000⟩]) ∧
    (((ReconWorld.start.run refundedRun).books.state ethereum).mismatches = [] ∧
      (legEntry onePlanId .refunded).entry ∈ (ReconWorld.start.run refundedRun).log ethereum ∧
      ((ReconWorld.start.run refundedRun).books.plans onePlanId).map SettlementPlan.status =
        some .committed) ∧
    ∀ x ∈ hashedFrom ProofVerifiers.empty [(legEntry onePlanId .locked).entry,
        (legEntry onePlanId .refunded).entry],
      ∀ y ∈ hashedFrom ProofVerifiers.empty [(legEntry onePlanId .locked).entry,
        (legEntry onePlanId .refunded).entry], sha x = sha y → x = y :=
  ⟨by decide +kernel, by decide +kernel, by decide +kernel⟩

theorem genuine_reconcileAll {w : ReconWorld} {entries : List ReconEntry}
    (small : ∀ e ∈ entries, e.amount < 2 ^ 128)
    (log : w.log ethereum = entries.map ReconEntry.entry) (fresh : (w.books.state ethereum).count = 0)
    (apart : NoCollision (entries.map ReconEntry.entry) (entries.map ReconEntry.entry)) :
    Genuine ethereum w (reconcileAll entries) := by
  refine fun _ => ⟨small, fun count acc digest attested proven => ?_⟩
  cases proven
  have whole : (entries.map ReconEntry.entry).take entries.length = entries.map ReconEntry.entry :=
    take_of_length_le (by rw [length_map])
  rw [log, fresh, whole]
  exact ⟨by rw [length_map], rfl, apart⟩

theorem strangerRun_genuine : ReconWorld.start.Along (Genuine ethereum) strangerRun := by
  refine ⟨fun _ => (by decide : 100 < 2 ^ 256), genuine_reconcileAll ?_ rfl rfl ?_, trivial⟩
  · intro e mem
    rw [mem_singleton.1 mem]
    exact (by decide : 100 < 2 ^ 128)
  · intro x mem y mem' _
    exact (mem_singleton.1 mem).trans (mem_singleton.1 mem').symm

theorem refundedRun_genuine : ReconWorld.start.Along (Genuine ethereum) refundedRun := by
  refine ⟨trivial, fun _ => (by decide : 100 < 2 ^ 256), fun _ => (by decide : 100 < 2 ^ 256),
    genuine_reconcileAll ?_ rfl rfl runs_end.2.2, trivial, trivial⟩
  intro e mem
  rcases mem_cons.1 mem with rfl | mem
  · exact (by decide : 100 < 2 ^ 128)
  · rw [mem_singleton.1 mem]
    exact (by decide : 100 < 2 ^ 128)

/-- A stranger's lock of no plan costs the committee its stake, and a refund reconciled before the
plan commits is never found. -/
theorem stranger_accuses_and_refund_missed :
    (ReconWorld.start.Along (Genuine ethereum) strangerRun ∧
      ((ReconWorld.start.run strangerRun).books.state ethereum).mismatches = [1] ∧
        (ReconWorld.start.run strangerRun).books.slashed ≠ []) ∧
    (ReconWorld.start.Along (Genuine ethereum) refundedRun ∧
      (legEntry onePlanId .refunded).entry ∈ (ReconWorld.start.run refundedRun).log ethereum ∧
        ((ReconWorld.start.run refundedRun).books.plans onePlanId).map SettlementPlan.status =
          some .committed ∧
            ((ReconWorld.start.run refundedRun).books.state ethereum).mismatches = []) := by
  obtain ⟨⟨accused, slashed⟩, ⟨unfound, logged, committed⟩, -⟩ := runs_end
  refine ⟨⟨strangerRun_genuine, accused, ?_⟩, refundedRun_genuine, logged, committed, unfound⟩
  rw [slashed]
  exact cons_ne_nil _ _

def lockedRun : List ReconStep :=
  [openOne, .records ethereum (legEntry onePlanId .locked).entry,
    reconcileAll [legEntry onePlanId .locked]]

theorem lockedRun_genuine : ReconWorld.start.Along (Genuine ethereum) lockedRun := by
  refine ⟨trivial, fun _ => (by decide : 100 < 2 ^ 256), genuine_reconcileAll ?_ rfl rfl ?_, trivial⟩
  · intro e mem
    rw [mem_singleton.1 mem]
    exact (by decide : 100 < 2 ^ 128)
  · intro x mem y mem' _
    exact (mem_singleton.1 mem).trans (mem_singleton.1 mem').symm

theorem lockedRun_follows : ReconWorld.start.Along (Follows ethereum) lockedRun := by
  refine ⟨trivial, fun _ => ⟨_, rfl, ⟨⟨.remoteLock .ccip "ethereum" 100, .attested, 7⟩, "ethereum", ?_,
    rfl, by decide⟩, fun release => ?_⟩, fun _ e mem kind => ?_, trivial⟩
  · decide
  · exact absurd release (by decide)
  · rw [mem_singleton.1 mem] at kind
    cases kind

/-- A locked leg of the plan reconciles without an accusation. -/
theorem reconciliation_judges_lockedLeg :
    Unaccused (ReconWorld.start.run lockedRun) ethereum :=
  (reconciliation_judges ethereum lockedRun lockedRun_genuine).1 lockedRun_follows

end

end Tenzro.Settlement
