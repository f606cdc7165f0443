import Tenzro.CoreInputs

set_option autoImplicit false
set_option linter.dupNamespace false
set_option linter.unusedSectionVars false

/-!
# Runs of one core, and the rule to carry an invariant through them

A run starts with a new core, a recovered one or one that resumes, and takes any
inputs. `S` bounds the ordering states it installs.
-/
namespace Tenzro
variable [Hashing]

namespace Core

inductive Run (S : OrderingState → Prop) : Core → Prop where
  | new (cfg : CoreConfig) (committee : Committee) (me : ValidatorIndex) (start : EpochStart) :
      Run S (Core.new cfg committee me start)
  | recover (cfg : CoreConfig) (committee : Committee) (me : ValidatorIndex) (start : EpochStart)
      (records : List Record) (executedThrough nowMs : ℕ) :
      (∀ cert state, Record.resumed cert state ∈ records → S state) →
      Run S (Core.recover cfg committee me start records executedThrough nowMs)
  | resume (cfg : CoreConfig) (committee : Committee) (me : ValidatorIndex) (cert : Certificate)
      (sessions : List SessionCertificate) (ownRound : Option ℕ)
      (nextBatchSequence executedThrough lookahead : ℕ) :
      Run S (Core.resume cfg committee me cert sessions ownRound nextBatchSequence executedThrough
        lookahead)
  | input {c : Core} (i : Input) : Run S c →
      (∀ cert state, Record.resumed cert state ∈ (c.input i).journal → S state) →
      Run S (c.input i)

theorem not_recovering_env (i : Input) : ¬ i.env.recovering := by
  cases i <;> exact not_false

theorem mem_of_splitResumed {rs : List Record} {cert : Certificate} {state : OrderingState}
    (h : (splitResumed rs).2.1 = some (cert, state)) : Record.resumed cert state ∈ rs := by
  induction rs with
  | nil => cases h
  | cons r rs ih =>
    unfold splitResumed at h
    split at h
    next before resumed after heq =>
      refine List.mem_cons_of_mem r (ih ?_)
      rw [heq]
      exact h
    next =>
      split at h
      · cases h
        exact List.mem_cons_self
      · cases h

/-- The ordering fields two cores share. -/
structure SameOrder (c c' : Core) : Prop where
  schedule : c'.schedule = c.schedule
  availability : c'.availability = c.availability
  nextSlot : c'.nextSlot = c.nextSlot
  lastCommitted : c'.lastCommitted = c.lastCommitted
  ordered : c'.ordered = c.ordered
  nextHeight : c'.nextHeight = c.nextHeight
  lastTimestampMs : c'.lastTimestampMs = c.lastTimestampMs
  lastStateHeight : c'.lastStateHeight = c.lastStateHeight
  epochEndsMs : c'.epochEndsMs = c.epochEndsMs
  epochClosed : c'.epochClosed = c.epochClosed
  lastCheckpointHeight : c'.lastCheckpointHeight = c.lastCheckpointHeight
  lastCheckpointTs : c'.lastCheckpointTs = c.lastCheckpointTs
  nextCheckpointIndex : c'.nextCheckpointIndex = c.nextCheckpointIndex
  seedChain : c'.seedChain = c.seedChain
  handoverIndex : c'.handoverIndex = c.handoverIndex
  decidedSlots : c'.decidedSlots = c.decidedSlots
  released : c'.released = c.released
  releasedBatches : c'.releasedBatches = c.releasedBatches
  segments : c'.segments = c.segments
  sealedStates : c'.sealedStates = c.sealedStates
  resuming : c'.resuming.isSome = c.resuming.isSome
  installed : c'.installed = c.installed

theorem sameOrder_submitPart (c : Core) (part : BatchPart) :
    SameOrder c (c.submitPart part) ∧ (c.submitPart part).dag = c.dag := by
  unfold submitPart
  dsimp only
  split_ifs <;> exact ⟨by constructor <;> rfl, rfl⟩

theorem sameOrder_releaseFirst {c c' : Core} {w : Waiting} {rest : List Waiting}
    (h : c.releaseFirst w rest = some c') : SameOrder c c' ∧ c'.dag = c.dag := by
  cases w with
  | epochEnds last =>
    cases h
    exact ⟨by constructor <;> rfl, rfl⟩
  | segment seg =>
    simp only [releaseFirst] at h
    split_ifs at h <;> cases h <;> exact ⟨by constructor <;> rfl, rfl⟩

theorem sameOrder_onCertified (c : Core) (cert : Certificate) :
    SameOrder c (c.onCertified cert) ∧ (c.onCertified cert).dag = c.dag := by
  unfold onCertified
  dsimp only
  split_ifs <;> exact ⟨by constructor <;> rfl, rfl⟩

theorem sameOrder_adopt (c : Core) (cert : Certificate) (handovers : List (ℕ × Bool)) :
    SameOrder c ({ c with
      certifiedHandoverIndex := cert.checkpoint.index
      handovers := handovers }.onCertified cert) ∧
      ({ c with
        certifiedHandoverIndex := cert.checkpoint.index
        handovers := handovers }.onCertified cert).dag = c.dag := by
  unfold onCertified
  dsimp only
  split_ifs <;> exact ⟨by constructor <;> rfl, rfl⟩

/-- What a move can do to the ordering and the DAG. -/
inductive OrderMove (e : Env) (c c' : Core) : Prop where
  | same : SameOrder c c' → c'.dag = c.dag → OrderMove e c c'
  | expect (d : Digest) (r : ℕ) (a : ValidatorIndex) :
      e.recovering ∨ c.rbc.delivered r a = some d →
      c' = { c with dag := c.dag.expect d r } → OrderMove e c c'
  | offer (v : Vertex) : c' = { c with dag := (c.dag.offer v).1 } → OrderMove e c c'
  | hold (v : Vertex) : c' = { c with dag := (c.dag.hold v).1 } → OrderMove e c c'
  | ask (r : ℕ) : c' = c.askSchedule r → OrderMove e c c'
  | turn : c.resuming = none → c.halted = false →
      c' = (c.askOpen.applyDecisions c.decideSlots).1 → OrderMove e c c'
  | install (cert : Certificate) (state : OrderingState) (ownRound : Option ℕ) (nowMs : ℕ) :
      ¬ e.recovering → c.resuming.isSome = true → state.digest = cert.checkpoint.orderingRoot →
      c' = c.install cert state ownRound nowMs → OrderMove e c c'

theorem Move.order {e : Env} {c c' : Core} (h : Move e c c') : OrderMove e c c' := by
  cases h with
  | expect d r a why => exact .expect d r a why rfl
  | offer v => exact .offer v rfl
  | hold v => exact .hold v rfl
  | ask r => exact .ask r rfl
  | turn live open' => exact .turn live open' rfl
  | install cert state ownRound nowMs live waiting match' =>
    obtain ⟨r, hr, -⟩ := waiting
    exact .install cert state ownRound nowMs live (by rw [hr]; rfl) match' rfl
  | submit part => exact .same (sameOrder_submitPart c part).1 (sameOrder_submitPart c part).2
  | release _ h => exact .same (sameOrder_releaseFirst h).1 (sameOrder_releaseFirst h).2
  | certified cert => exact .same (sameOrder_onCertified c cert).1 (sameOrder_onCertified c cert).2
  | adopt cert _ _ _ => exact .same (sameOrder_adopt c cert _).1 (sameOrder_adopt c cert _).2
  | asked t hr => exact .same (by constructor <;> first | rfl | (rw [hr]; rfl)) rfl
  | _ => exact .same (by constructor <;> rfl) rfl

def restarted (cfg : CoreConfig) (committee : Committee) (me : ValidatorIndex) (start : EpochStart)
    (executedThrough : ℕ) (payloads : SortedMap Digest BatchPayload)
    (payloadRound : SortedMap Digest ℕ) : Core :=
  { Core.new cfg committee me start with
    executedThrough := executedThrough
    payloads := payloads
    payloadRound := payloadRound }

theorem foldl_restorePayload (ps : List BatchPayload) (c : Core) :
    ∃ payloads payloadRound, ps.foldl restorePayload c =
      { c with payloads := payloads, payloadRound := payloadRound } := by
  induction ps generalizing c with
  | nil => exact ⟨c.payloads, c.payloadRound, rfl⟩
  | cons p ps ih =>
    obtain ⟨payloads, payloadRound, eq⟩ := ih (c.restorePayload p)
    exact ⟨payloads, payloadRound, eq⟩

theorem recoverBase_cases (cfg : CoreConfig) (committee : Committee) (me : ValidatorIndex)
    (start : EpochStart) (records : List Record) (executedThrough nowMs : ℕ) :
    recoverBase cfg committee me start records executedThrough nowMs =
        restarted cfg committee me start executedThrough .empty .empty ∨
      ∃ payloads payloadRound cert state ownRound, Record.resumed cert state ∈ records ∧
        recoverBase cfg committee me start records executedThrough nowMs =
          (restarted cfg committee me start executedThrough payloads payloadRound).install cert state
            ownRound nowMs := by
  unfold recoverBase
  cases hs : (splitResumed records).2.1 with
  | none => exact .inl rfl
  | some resumed =>
    obtain ⟨cert, state⟩ := resumed
    obtain ⟨payloads, payloadRound, eq⟩ := foldl_restorePayload (batchesOf (splitResumed records).1)
      { Core.new cfg committee me start with executedThrough := executedThrough }
    refine .inr ⟨payloads, payloadRound, cert, state,
      ((ownOf (splitResumed records).1).map Vertex.round).max?, mem_of_splitResumed hs, ?_⟩
    simp only [recoverResumed]
    rw [eq]
    rfl

section Rule
variable {S : OrderingState → Prop} {P : Core → Prop}

theorem Run.keeps (new : ∀ cfg committee me start, P (Core.new cfg committee me start))
    (again : ∀ cfg committee me start n,
      P (restarted cfg committee me start n .empty .empty))
    (installed : ∀ cfg committee me start n payloads payloadRound cert state ownRound nowMs,
      S state → P ((restarted cfg committee me start n payloads payloadRound).install cert state
        ownRound nowMs))
    (resume : ∀ cfg committee me cert sessions ownRound n m k,
      P (Core.resume cfg committee me cert sessions ownRound n m k))
    (step : ∀ (e : Env) (c c' : Core), Move e c c' →
      (¬ e.recovering → ∀ cert state, Record.resumed cert state ∈ c'.journal → S state) →
      P c → P c')
    {c : Core} (run : Run S c) : P c := by
  induction run with
  | new => exact new ..
  | recover cfg committee me start records executedThrough nowMs hS =>
    refine (moves_recover cfg committee me start records executedThrough nowMs).keeps ?_ ?_
    · exact fun c c' move => step recoverEnv c c' move (fun live => absurd trivial live)
    · obtain eq | ⟨payloads, payloadRound, cert, state, ownRound, mem, eq⟩ :=
        recoverBase_cases cfg committee me start records executedThrough nowMs
      · exact eq ▸ again cfg committee me start executedThrough
      · exact eq ▸ installed _ _ _ _ _ _ _ _ state _ _ (hS cert state mem)
  | resume => exact resume ..
  | @input c i _ hS ih =>
    have live := not_recovering_env i
    -- From the last move back: what a journal holds stays in the later ones.
    have walk : ∀ a b, Moves i.env a b →
        (∀ cert state, Record.resumed cert state ∈ b.journal → S state) → P a → P b := by
      intro a b h
      induction h with
      | refl => exact fun _ hp => hp
      | @tail b b' _ last ih =>
        intro hS hp
        refine step i.env b b' last (fun _ => hS) (ih ?_ hp)
        exact fun cert state hm => hS cert state ((last.journal live).subset hm)
    exact walk c (c.input i) (moves_input c i) hS ih

/-- A turn of `try_commit` is made of skips, commits and checkpoint builds, until one halts it. -/
theorem turn_keeps (ask : ∀ c r, P c → P (c.askSchedule r)) (skip : ∀ c slot, P c → P (c.skipSlot slot))
    (commit : ∀ c slot anchor, c.halted = false → P c →
      P ((c.takeSlot slot (some anchor)).commitOpen anchor))
    (build : ∀ c pc rest, c.decided = pc :: rest → c.buildable pc = true → P c →
      P (c.buildOne pc rest)) {c : Core} (live : c.halted = false) (h : P c) :
    P (c.askOpen.applyDecisions c.decideSlots).1 := by
  have built : ∀ (n : ℕ) (c : Core), P c → P (buildLoop n c) := by
    intro n
    induction n with
    | zero => exact fun _ h => h
    | succ n ih =>
      intro c h
      unfold buildLoop
      split
      · exact h
      next pc rest hd =>
        split_ifs with ready
        · exact ih _ (build c pc rest hd ready h)
        · exact h
  have decided : ∀ (l : List (Slot × Decision)) (c : Core), c.halted = false → P c →
      P (c.applyDecisions l).1 := by
    intro l
    induction l with
    | nil => exact fun _ _ h => h
    | cons x l ih =>
      intro c live h
      obtain ⟨slot, d⟩ := x
      cases d with
      | undecided => exact h
      | skip => exact ih _ live (skip c slot h)
      | commit anchor =>
        have here : P ((c.takeSlot slot (some anchor)).commit anchor) :=
          built _ _ (commit c slot anchor live h)
        unfold applyDecisions
        dsimp only
        split_ifs with stop
        · exact here
        · push Not at stop
          exact ih _ (Bool.eq_false_iff.2 stop.2) here
  have asked : c.askOpen.halted = false ∧ P c.askOpen := by
    unfold askOpen
    split
    · exact ⟨live, h⟩
    · exact ⟨live, ask c _ h⟩
  exact decided _ _ asked.1 asked.2

end Rule

/-- A run whose installed states were all decided by such runs, as their certificates say. -/
inductive Grounded : Core → Prop where
  | new (cfg : CoreConfig) (committee : Committee) (me : ValidatorIndex) (start : EpochStart) :
      Grounded (Core.new cfg committee me start)
  | recover (cfg : CoreConfig) (committee : Committee) (me : ValidatorIndex) (start : EpochStart)
      (records : List Record) (executedThrough nowMs : ℕ) (origin : OrderingState → Core) :
      (∀ cert state, Record.resumed cert state ∈ records → Grounded (origin state)) →
      (∀ cert state, Record.resumed cert state ∈ records → state ∈ (origin state).sealedStates) →
      Grounded (Core.recover cfg committee me start records executedThrough nowMs)
  | resume (cfg : CoreConfig) (committee : Committee) (me : ValidatorIndex) (cert : Certificate)
      (sessions : List SessionCertificate) (ownRound : Option ℕ)
      (nextBatchSequence executedThrough lookahead : ℕ) :
      Grounded (Core.resume cfg committee me cert sessions ownRound nextBatchSequence
        executedThrough lookahead)
  | input {c : Core} (i : Input) (origin : OrderingState → Core) : Grounded c →
      (∀ cert state, Record.resumed cert state ∈ (c.input i).journal → Grounded (origin state)) →
      (∀ cert state, Record.resumed cert state ∈ (c.input i).journal →
        state ∈ (origin state).sealedStates) →
      Grounded (c.input i)

theorem Grounded.run {S : OrderingState → Prop}
    (seals : ∀ c, Run S c → ∀ state ∈ c.sealedStates, S state) {c : Core} (h : Grounded c) :
    Run S c := by
  induction h with
  | new => exact .new ..
  | recover cfg committee me start records executedThrough nowMs origin _ sealed ih =>
    refine .recover cfg committee me start records executedThrough nowMs ?_
    exact fun cert state hm => seals _ (ih cert state hm) state (sealed cert state hm)
  | resume => exact .resume ..
  | input i origin _ _ sealed run ih =>
    refine .input i run ?_
    exact fun cert state hm => seals _ (ih cert state hm) state (sealed cert state hm)

theorem journal_runInputs (c : Core) (is : List Input) : c.journal <+: (c.runInputs is).journal := by
  induction is generalizing c with
  | nil => exact List.prefix_rfl
  | cons i is ih => exact ((moves_input c i).journal (not_recovering_env i)).trans (ih (c.input i))

def Record.isResumed : Record → Bool
  | .resumed _ _ => true
  | _ => false

theorem Grounded.runInputs {c : Core} (h : Grounded c) {is : List Input}
    (none : (c.runInputs is).journal.any Record.isResumed = false) : Grounded (c.runInputs is) := by
  induction is generalizing c with
  | nil => exact h
  | cons i is ih =>
    have fresh : ∀ cert state, Record.resumed cert state ∉ (c.input i).journal := by
      intro cert state hm
      have later := (journal_runInputs (c.input i) is).subset hm
      exact List.any_eq_false.1 none _ later rfl
    refine ih (.input i (fun _ => c) h ?_ ?_) none
    · exact fun cert state hm => absurd hm (fresh cert state)
    · exact fun cert state hm => absurd hm (fresh cert state)

end Core

end Tenzro
