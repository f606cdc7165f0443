import Tenzro.BroadcastActions
import Tenzro.CoreRun

set_option autoImplicit false
set_option linter.dupNamespace false
set_option linter.unusedSectionVars false

/-!
# The moves of a core

Every call of the core, and every part of a recovery, is a sequence of the moves
listed here, so an invariant is checked once for each move. `Env` says what the
call brings in: the messages it hears, and whether it recovers or takes outputs.
-/
namespace Tenzro
open List

structure Env where
  heard : ValidatorIndex → Message → Prop
  recovering : Prop
  taking : Prop

def Net.taken (n : Net) : ℕ × ℕ × ℕ := (n.eventsTaken, n.outboxTaken, n.journalTaken)

namespace Core

@[simp] theorem taken_wantVertex (n : Net) (d : Digest) : (wantVertex n d).taken = n.taken := rfl

@[simp] theorem taken_askBatch (v : Vertex) (n : Net) (d : Digest) :
    (askBatch v n d).taken = n.taken := rfl

theorem taken_foldl {α : Type} {f : Net → α → Net} (step : ∀ n x, (f n x).taken = n.taken)
    (l : List α) (n : Net) : (l.foldl f n).taken = n.taken := by
  induction l generalizing n with
  | nil => rfl
  | cons x l ih => exact (ih _).trans (step n x)

variable [Hashing]

def Vouched (c : Core) : Message → Prop
  | .propose v => ∃ r, c.ownVertex r = some v
  | .signals ss => ∀ s ∈ ss, (c.rbc.inst s.round s.source).sent s.kind = some s.digest
  | .vertices vs => ∀ v ∈ vs, ∃ d, ((c.dag.get d).or (c.bodies.get? d)).or (c.history.get? d) = some v
  | _ => True

def proposeOwn (c : Core) (v : Vertex) (nowMs : ℕ) : Core :=
  { c with
    round := some v.round
    net := { c.net with roundEnteredMs := nowMs }
    firstProposals := c.firstProposals.insert (toLex (v.round, c.me)) v.strong
    bodies := c.bodies.insert v.digest v
    journal := c.journal ++ [Record.own v]
    outbox := c.outbox ++ [(Target.all, Message.propose v)]
    rbc := (c.rbc.onPropose c.committee c.me v.round c.me v.digest).1 }

inductive Move (e : Env) : Core → Core → Prop where
  | net {c : Core} (n : Net) : n.taken = c.net.taken → Move e c { c with net := n }
  | take {c : Core} (n : Net) : e.taking → Move e c { c with net := n }
  | aside {c : Core} (carryPool : SortedMap (ValidatorIndex ×ₗ ℕ) BatchRef)
      (lastPayloadRound : Option ℕ) (votes : VoteCollector) (sessions : SessionBook)
      (ownVotes : SortedMap ℕ CheckpointVote) :
      Move e c { c with
        carryPool := carryPool
        lastPayloadRound := lastPayloadRound
        votes := votes
        sessions := sessions
        ownVotes := ownVotes }
  | asked {c : Core} {r : Resuming} (t : ℕ) : c.resuming = some r →
      Move e c { c with resuming := some { r with askedMs := t } }
  | send {c : Core} (ms : List (Target × Message)) :
      (∀ m ∈ ms, e.recovering ∨ c.Vouched m.2) → Move e c (c.sendAll ms)
  | bodies {c : Core} (m : SortedMap Digest Vertex) :
      (∀ d v, m.get? d = some v →
        c.bodies.get? d = some v ∨ (∃ k, c.unechoed.get? k = some v) ∨ v.source ≠ c.me) →
      Move e c { c with bodies := m }
  | unechoed {c : Core} (m : SortedMap (ℕ ×ₗ ValidatorIndex) Vertex) :
      (∀ k v, m.get? k = some v →
        c.unechoed.get? k = some v ∨ (v.source ≠ c.me ∧ e.heard v.source (.propose v))) →
      Move e c { c with unechoed := m }
  | proposal {c : Core} (v : Vertex) : v.source ≠ c.me → e.heard v.source (.propose v) →
      v.wellFormed c.committee = true →
      Move e c { c with
        firstProposals := c.firstProposals.insert (toLex (v.round, v.source)) v.strong }
  | payload {c : Core} (p : BatchPayload) (r : ℕ) :
      Move e c { c with
        payloads := c.payloads.insert p.digest p
        payloadRound := c.payloadRound.insert p.digest r }
  | heed {c : Core} (v : Vertex) :
      (v.source ≠ c.me ∧ e.heard v.source (.propose v)) ∨ (∃ k, c.unechoed.get? k = some v) →
      Move e c { c with
        rbc := (c.rbc.onPropose c.committee v.source v.round v.source v.digest).1 }
  | hear {c : Core} {frm : ValidatorIndex} {s : Signal} {ss : List Signal} :
      frm ≠ c.me → e.heard frm (.signals ss) → s ∈ ss →
      Move e c { c with rbc := (c.rbc.onSignal c.committee frm s).1 }
  | signal {c : Core} (s : Signal) :
      (c.rbc.inst s.round s.source).sent s.kind = some s.digest →
      Move e c { c with journal := c.journal ++ [Record.signal s] }
  | expect {c : Core} (d : Digest) (r : ℕ) (a : ValidatorIndex) :
      e.recovering ∨ c.rbc.delivered r a = some d →
      Move e c { c with dag := c.dag.expect d r }
  | offer {c : Core} (v : Vertex) : Move e c { c with dag := (c.dag.offer v).1 }
  | hold {c : Core} (v : Vertex) : Move e c { c with dag := (c.dag.hold v).1 }
  | delivered {c : Core} {d : Digest} {v : Vertex} : c.dag.get d = some v →
      Move e c { c with journal := c.journal ++ [Record.delivered v] }
  | submit {c : Core} (part : BatchPart) : Move e c (c.submitPart part)
  | introduce {c : Core} (round : ℕ) : c.halted = false →
      Move e c { c with
        ownUnintroduced := []
        ownIntroduced := c.ownUnintroduced.foldl (fun m b => m.insert b.digest round)
          c.ownIntroduced }
  | ask {c : Core} (r : ℕ) : Move e c (c.askSchedule r)
  | own {c : Core} (v : Vertex) (nowMs : ℕ) : c.resuming = none → v.source = c.me →
      (∀ r, c.round = some r → r < v.round) →
      (∀ r ∈ v.refs, ∃ w, c.dag.vertexAt r.round r.source = some (r.digest, w)) →
      v.strong = c.strongRefs v.round →
      Move e c (c.proposeOwn v nowMs)
  | turn {c : Core} : c.resuming = none → c.halted = false → Move e c (c.askOpen.applyDecisions c.decideSlots).1
  | release {c c' : Core} {w : Waiting} {rest : List Waiting} : c.waiting = w :: rest →
      c.releaseFirst w rest = some c' → Move e c c'
  | build {c : Core} {pc : PendingCheckpoint} {rest : List PendingCheckpoint} :
      c.decided = pc :: rest → c.buildable pc = true → Move e c (c.buildOne pc rest)
  | executed {c : Core} (h : ℕ) (x : Digest × Digest × List Digest) :
      Move e c { c with executed := c.executed.insert h x }
  | nextRoot {c : Core} (root : Digest) : Move e c { c with nextCommitteeRoot := some root }
  | certified {c : Core} (cert : Certificate) : Move e c (c.onCertified cert)
  | adopt {c : Core} (cert : Certificate) : c.epochClosed = false →
      c.certifiedHandoverIndex = u64Max → c.certificates.get? cert.checkpoint.index = none →
      Move e c ({ c with
        certifiedHandoverIndex := cert.checkpoint.index
        handovers := c.handovers ++ [(cert.checkpoint.index, false)] }.onCertified cert)
  | adoptHeld {c : Core} {index : ℕ} {held : Certificate} : c.epochClosed = false →
      c.certifiedHandoverIndex = u64Max → c.certificates.get? index = some held →
      Move e c ({ c with
        certifiedHandoverIndex := index
        handovers := c.handovers ++ [(index, false)] }.completeEpoch held)
  | evidence {c : Core} (es : List CheckpointEquivocation) :
      Move e c { c with events := c.events ++ es.map Event.equivocation }
  | disagree {c : Core} (index : ℕ) : Move e c (c.onDisagreement index)
  | install {c : Core} (cert : Certificate) (state : OrderingState) (ownRound : Option ℕ)
      (nowMs : ℕ) : ¬ e.recovering → (∃ r, c.resuming = some r ∧ r.certificate = cert ∧ r.ownRound = ownRound) →
      state.digest = cert.checkpoint.orderingRoot →
      Move e c (c.install cert state ownRound nowMs)
  | restore {c : Core} (rbc : ReliableBroadcast)
      (firstProposals : SortedMap (ℕ ×ₗ ValidatorIndex) (List VertexRef))
      (bodies : SortedMap Digest Vertex) (round : Option ℕ) (nextBatchSequence : ℕ)
      (ownIntroduced : SortedMap Digest ℕ) (ownUnintroduced : List BatchRef)
      (executedThrough : ℕ) (journal : List Record) : e.recovering →
      Move e c { c with
        rbc := rbc
        firstProposals := firstProposals
        bodies := bodies
        round := round
        nextBatchSequence := nextBatchSequence
        ownIntroduced := ownIntroduced
        ownUnintroduced := ownUnintroduced
        executedThrough := executedThrough
        journal := journal }

def Moves (e : Env) : Core → Core → Prop := Relation.ReflTransGen (Move e)

variable {e : Env}

theorem Moves.of {c c' : Core} (h : Move e c c') : Moves e c c' := .single h

theorem Moves.start (c : Core) : Moves e c c := .refl

theorem Moves.next {a b c : Core} (h : Moves e a b) (step : Move e b c) : Moves e a c := .tail h step

section Chain
variable {a c : Core} (h : Moves e a c)
include h

theorem Moves.net (n : Net) (same : n.taken = c.net.taken) : Moves e a { c with net := n } :=
  h.next (.net n same)

theorem Moves.aside (carryPool : SortedMap (ValidatorIndex ×ₗ ℕ) BatchRef)
    (lastPayloadRound : Option ℕ) (votes : VoteCollector) (sessions : SessionBook)
    (ownVotes : SortedMap ℕ CheckpointVote) :
    Moves e a { c with
      carryPool := carryPool
      lastPayloadRound := lastPayloadRound
      votes := votes
      sessions := sessions
      ownVotes := ownVotes } := h.next (.aside ..)

theorem Moves.send (ms : List (Target × Message))
    (vouched : ∀ m ∈ ms, e.recovering ∨ c.Vouched m.2) : Moves e a (c.sendAll ms) :=
  h.next (.send ms vouched)

theorem Moves.bodies (m : SortedMap Digest Vertex)
    (less : ∀ d v, m.get? d = some v →
      c.bodies.get? d = some v ∨ (∃ k, c.unechoed.get? k = some v) ∨ v.source ≠ c.me) :
    Moves e a { c with bodies := m } := h.next (.bodies m less)

theorem Moves.unechoed (m : SortedMap (ℕ ×ₗ ValidatorIndex) Vertex)
    (less : ∀ k v, m.get? k = some v →
      c.unechoed.get? k = some v ∨ (v.source ≠ c.me ∧ e.heard v.source (.propose v))) :
    Moves e a { c with unechoed := m } := h.next (.unechoed m less)

theorem Moves.payload (p : BatchPayload) (r : ℕ) :
    Moves e a { c with
      payloads := c.payloads.insert p.digest p
      payloadRound := c.payloadRound.insert p.digest r } := h.next (.payload p r)

theorem Moves.delivered {d : Digest} {v : Vertex} (held : c.dag.get d = some v) :
    Moves e a { c with journal := c.journal ++ [Record.delivered v] } := h.next (.delivered held)

end Chain

theorem Moves.keeps {P : Core → Prop} (step : ∀ c c', Move e c c' → P c → P c') {c c' : Core}
    (h : Moves e c c') (start : P c) : P c' := by
  induction h with
  | refl => exact start
  | tail _ last ih => exact step _ _ last ih

def fixed (c : Core) : CoreConfig × Committee × ValidatorIndex × EpochStart :=
  (c.cfg, c.committee, c.me, c.start)

/-- What ordering and certificates leave alone. -/
def still (c : Core) : (CoreConfig × Committee × ValidatorIndex × EpochStart) × Option Resuming ×
    List Record × List (Target × Message) × Option ℕ :=
  (c.fixed, c.resuming, c.journal, c.outbox, c.round)

theorem still_takeCheckpoint (c : Core) (anchor : VertexRef) (t : ℕ) :
    (c.takeCheckpoint anchor t).still = c.still := by
  unfold takeCheckpoint
  dsimp only
  split_ifs <;> rfl

theorem still_collectGarbage (c : Core) (r : ℕ) : (c.collectGarbage r).still = c.still := by
  unfold collectGarbage
  split_ifs <;> rfl

theorem still_sealLast (c : Core) : c.sealLast.still = c.still := by
  unfold sealLast
  split
  · rfl
  · split_ifs <;> rfl

theorem still_buildLoop (n : ℕ) (c : Core) : (buildLoop n c).still = c.still := by
  induction n generalizing c with
  | zero => rfl
  | succ n ih =>
    unfold buildLoop
    split
    · rfl
    · split_ifs
      · exact ih _
      · rfl

theorem still_returnSkipped (c : Core) : c.returnSkipped.still = c.still := rfl

theorem still_orderHistory (c : Core) (anchor : VertexRef) :
    (c.orderHistory anchor).still = c.still := by
  simp only [still, fixed, orderHistory]

theorem still_settleBatches (c : Core) (anchor : VertexRef) (released : List OrderedBatch) :
    (c.settleBatches anchor released).still = c.still := still_returnSkipped _

theorem still_makeBlocks (c : Core) (anchor : VertexRef) (t n : ℕ) (released : List OrderedBatch) :
    (c.makeBlocks anchor t n released).still = c.still := rfl

theorem still_commitOpen (c : Core) (anchor : VertexRef) :
    (c.commitOpen anchor).still = c.still := by
  unfold commitOpen
  rw [still_sealLast, still_collectGarbage, still_takeCheckpoint, makeSegments,
    still_makeBlocks, settle, still_settleBatches, still_orderHistory]

theorem still_commit (c : Core) (anchor : VertexRef) : (c.commit anchor).still = c.still := by
  unfold commit buildCheckpoints
  rw [still_buildLoop, still_commitOpen]

theorem still_skipSlot (c : Core) (slot : Slot) : (c.skipSlot slot).still = c.still := by
  simp only [still, fixed, skipSlot, takeSlot]

theorem still_applyDecisions (c : Core) (l : List (Slot × Decision)) :
    (c.applyDecisions l).1.still = c.still := by
  induction l generalizing c with
  | nil => rfl
  | cons x l ih =>
    obtain ⟨slot, d⟩ := x
    cases d with
    | undecided => rfl
    | skip =>
      rw [applyDecisions]
      exact (ih _).trans (still_skipSlot c slot)
    | commit anchor =>
      have here : ((c.takeSlot slot (some anchor)).commit anchor).still = c.still := by
        rw [still_commit]
        simp only [still, fixed, takeSlot]
      unfold applyDecisions
      dsimp only
      split_ifs
      · exact here
      · exact (ih _).trans here

theorem still_askOpen (c : Core) : c.askOpen.still = c.still := by
  unfold askOpen
  split <;> rfl

theorem still_releaseFirst {c c' : Core} {w : Waiting} {rest : List Waiting}
    (h : c.releaseFirst w rest = some c') : c'.still = c.still := by
  cases w with
  | epochEnds last => cases h; rfl
  | segment seg =>
    simp only [releaseFirst] at h
    split_ifs at h <;> cases h <;> rfl

theorem still_onCertified (c : Core) (cert : Certificate) : (c.onCertified cert).still = c.still := by
  unfold onCertified
  dsimp only
  split_ifs <;> rfl

theorem fixed_submitPart (c : Core) (part : BatchPart) : (c.submitPart part).fixed = c.fixed := by
  unfold submitPart
  dsimp only
  split_ifs <;> rfl

theorem resuming_submitPart (c : Core) (part : BatchPart) :
    (c.submitPart part).resuming = c.resuming := by
  unfold submitPart
  dsimp only
  split_ifs <;> rfl

theorem journal_submitPart (c : Core) (part : BatchPart) :
    c.journal <+: (c.submitPart part).journal := by
  unfold submitPart
  dsimp only
  split_ifs
  · exact prefix_rfl
  · exact prefix_append ..

theorem fixed_of_still {c c' : Core} (h : c'.still = c.still) : c'.fixed = c.fixed :=
  congrArg Prod.fst h

theorem resuming_of_still {c c' : Core} (h : c'.still = c.still) : c'.resuming = c.resuming :=
  congrArg (fun x => x.2.1) h

theorem journal_of_still {c c' : Core} (h : c'.still = c.still) : c'.journal = c.journal :=
  congrArg (fun x => x.2.2.1) h

theorem still_turn (c : Core) :
    (c.askOpen.applyDecisions c.decideSlots).1.still = c.still :=
  (still_applyDecisions _ _).trans (still_askOpen c)

theorem Move.fixed {c c' : Core} (h : Move e c c') : c'.fixed = c.fixed := by
  cases h with
  | turn _ _ => exact fixed_of_still (still_turn c)
  | release _ h => exact fixed_of_still (still_releaseFirst h)
  | submit part => exact fixed_submitPart c part
  | certified cert => exact fixed_of_still (still_onCertified c cert)
  | adopt cert _ _ _ => exact fixed_of_still (still_onCertified _ cert)
  | _ => rfl

theorem Move.resuming {c c' : Core} (h : Move e c c') (none : c.resuming = none) :
    c'.resuming = .none := by
  cases h with
  | turn _ _ => exact (resuming_of_still (still_turn c)).trans none
  | release _ h => exact (resuming_of_still (still_releaseFirst h)).trans none
  | submit part => exact (resuming_submitPart c part).trans none
  | certified cert => exact (resuming_of_still (still_onCertified c cert)).trans none
  | adopt cert _ _ _ => exact (resuming_of_still (still_onCertified _ cert)).trans none
  | asked t h => rw [none] at h; cases h
  | install cert state ownRound nowMs _ _ _ => rfl
  | _ => exact none

theorem Move.journal {c c' : Core} (h : Move e c c') (live : ¬ e.recovering) :
    c.journal <+: c'.journal := by
  cases h with
  | turn _ _ => rw [journal_of_still (still_turn c)]
  | release _ h => rw [journal_of_still (still_releaseFirst h)]
  | submit part => exact journal_submitPart c part
  | certified cert => rw [journal_of_still (still_onCertified c cert)]
  | adopt cert _ _ _ => rw [journal_of_still (still_onCertified _ cert)]
  | signal | delivered | own | install => exact prefix_append ..
  | restore _ _ _ _ _ _ _ _ _ h => exact absurd h live
  | _ => exact prefix_rfl

theorem Moves.journal {c c' : Core} (h : Moves e c c') (live : ¬ e.recovering) :
    c.journal <+: c'.journal := by
  induction h with
  | refl => exact prefix_rfl
  | tail _ last ih => exact ih.trans (last.journal live)

theorem Moves.fixed {c c' : Core} (h : Moves e c c') : c'.fixed = c.fixed := by
  induction h with
  | refl => rfl
  | tail _ last ih => exact last.fixed.trans ih

theorem Moves.me {c c' : Core} (h : Moves e c c') : c'.me = c.me :=
  congrArg (fun x => x.2.2.1) h.fixed

theorem Moves.resuming {c c' : Core} (h : Moves e c c') (none : c.resuming = none) :
    c'.resuming = .none := h.keeps (fun _ _ step old => step.resuming old) none

theorem moves_foldl {α : Type} {f : Core → α → Core} {l : List α}
    (step : ∀ c, ∀ x ∈ l, Moves e c (f c x)) (c : Core) : Moves e c (l.foldl f c) := by
  induction l generalizing c with
  | nil => exact .refl
  | cons x l ih =>
    rw [foldl_cons]
    exact (step c x mem_cons_self).trans
      (ih (fun c y hy => step c y (mem_cons_of_mem x hy)) _)

end Core

end Tenzro
