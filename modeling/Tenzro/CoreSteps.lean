import Tenzro.CoreMoves

set_option autoImplicit false
set_option linter.dupNamespace false
set_option linter.unusedSectionVars false

/-!
# Every call is a sequence of moves
-/
namespace Tenzro
open List SortedMap
variable [Hashing]

namespace Core

variable {e : Env}

theorem moves_noteInserted (c : Core) (r : VertexRef) : Moves e c (c.noteInserted r) := by
  have unwanted : Moves e c { c with
      net := { c.net with wantedVertices := c.net.wantedVertices.erase r.digest } } :=
    (Moves.start c).net _ rfl
  have first : Moves e c { c with
      net := { c.net with wantedVertices := c.net.wantedVertices.erase r.digest }
      bodies := c.bodies.erase r.digest } := by
    refine unwanted.bodies _ ?_
    intro d v hv
    rw [get?_erase] at hv
    split_ifs at hv
    exact .inl hv
  unfold noteInserted
  cases hg : c.dag.get r.digest with
  | none => simpa only [hg] using first
  | some v =>
    simp only [hg]
    refine ((first.aside (v.batches.foldl (fun m b => m.erase (toLex (v.source, b.sequence)))
      c.carryPool) (if v.batches.isEmpty && v.carried.isEmpty then c.lastPayloadRound
        else some (max (c.lastPayloadRound.getD 0) v.round)) c.votes c.sessions
      c.ownVotes).delivered hg).net _ ?_
    refine taken_foldl (fun n b => ?_) _ _
    split_ifs <;> rfl

theorem moves_afterOffer (c : Core) (inserted : List VertexRef) (missing : List Digest) :
    Moves e c (c.afterOffer inserted missing) :=
  Moves.net (moves_foldl (fun c r _ => moves_noteInserted c r) c) _
    (taken_foldl taken_wantVertex missing _)

theorem moves_offer (c : Core) (v : Vertex) : Moves e c (c.offer v) :=
  (Moves.of (.offer v)).trans (moves_afterOffer _ _ _)

theorem moves_holdVertex (c : Core) (v : Vertex) : Moves e c (c.holdVertex v) :=
  (Moves.of (.hold v)).trans (moves_afterOffer _ _ _)

theorem moves_takeUnechoed (c : Core) (r : ℕ) (a : ValidatorIndex) (d : Digest) :
    Moves e c (c.takeUnechoed r a d) := by
  unfold takeUnechoed
  cases hu : c.unechoed.get? (toLex (r, a)) with
  | none => exact .refl
  | some v =>
    dsimp only
    split_ifs
    · refine (Moves.start c).bodies _ ?_
      intro d' v' hv
      rw [get?_insert] at hv
      split_ifs at hv
      · cases hv
        exact .inr (.inl ⟨_, hu⟩)
      · exact .inl hv
    · exact .refl

theorem moves_offerBody (c : Core) (d : Digest) : Moves e c (c.offerBody d) := by
  unfold offerBody
  split
  · exact moves_offer c _
  · exact (Moves.start c).net _ rfl

theorem moves_onDeliver {c : Core} {r : ℕ} {a : ValidatorIndex} {d : Digest}
    (h : c.rbc.delivered r a = some d) : Moves e c (c.onDeliver r a d) :=
  ((Moves.of (.expect d r a (.inr h))).trans (moves_takeUnechoed _ r a d)).trans
    (moves_offerBody _ d)

@[simp] theorem rbc_noteInserted (c : Core) (r : VertexRef) : (c.noteInserted r).rbc = c.rbc := by
  unfold noteInserted
  dsimp only
  split <;> rfl

@[simp] theorem rbc_afterOffer (c : Core) (inserted : List VertexRef) (missing : List Digest) :
    (c.afterOffer inserted missing).rbc = c.rbc := by
  have h : ∀ (l : List VertexRef) (c : Core), (l.foldl noteInserted c).rbc = c.rbc := by
    intro l
    induction l with
    | nil => exact fun _ => rfl
    | cons r l ih => exact fun c => (ih _).trans (rbc_noteInserted c r)
  exact h inserted c

@[simp] theorem rbc_takeUnechoed (c : Core) (r : ℕ) (a : ValidatorIndex) (d : Digest) :
    (c.takeUnechoed r a d).rbc = c.rbc := by
  unfold takeUnechoed
  split
  · split_ifs <;> rfl
  · rfl

@[simp] theorem rbc_offerBody (c : Core) (d : Digest) : (c.offerBody d).rbc = c.rbc := by
  unfold offerBody
  split
  · exact rbc_afterOffer _ _ _
  · rfl

@[simp] theorem rbc_onDeliver (c : Core) (r : ℕ) (a : ValidatorIndex) (d : Digest) :
    (c.onDeliver r a d).rbc = c.rbc := by
  unfold onDeliver
  rw [rbc_offerBody, rbc_takeUnechoed]

@[simp] theorem rbc_applyAction (c : Core) (x : RbcAction) : (c.applyAction x).rbc = c.rbc := by
  cases x with
  | broadcast s => rfl
  | deliver r a d => exact rbc_onDeliver c r a d

theorem moves_applyRbc {c : Core} {acts : List RbcAction} (h : c.rbc.Records acts) :
    Moves e c (c.applyRbc acts) := by
  have fold : ∀ (l : List RbcAction) (c : Core), c.rbc.Records l →
      Moves e c (l.foldl applyAction c) ∧ (l.foldl applyAction c).rbc = c.rbc := by
    intro l
    induction l with
    | nil => exact fun _ _ => ⟨.refl, rfl⟩
    | cons x l ih =>
      intro c h
      have head : Moves e c (c.applyAction x) := by
        cases x with
        | broadcast s => exact .of (.signal s (h.broadcast s mem_cons_self))
        | deliver r a d => exact moves_onDeliver (h.deliver r a d mem_cons_self)
      have rest := ih (c.applyAction x) (by
        rw [rbc_applyAction]
        exact ⟨fun s hs => h.broadcast s (mem_cons_of_mem _ hs),
          fun r a d hd => h.deliver r a d (mem_cons_of_mem _ hd)⟩)
      exact ⟨head.trans rest.1, rest.2.trans (rbc_applyAction c x)⟩
  obtain ⟨moves, same⟩ := fold acts c h
  unfold applyRbc
  dsimp only
  split_ifs with none
  · exact moves
  · refine moves.send _ ?_
    intro m hm
    rw [mem_singleton] at hm
    subst hm
    refine .inr ?_
    intro s hs
    rw [same]
    obtain ⟨x, hx, he⟩ := mem_filterMap.1 hs
    cases x with
    | broadcast s' =>
      cases he
      exact h.broadcast s hx
    | deliver => cases he

theorem moves_echo {c : Core} {v : Vertex} {m : SortedMap (ℕ ×ₗ ValidatorIndex) Vertex}
    (hv : (v.source ≠ c.me ∧ e.heard v.source (.propose v)) ∨ (∃ k, c.unechoed.get? k = some v))
    (hm : ∀ k w, m.get? k = some w → c.unechoed.get? k = some w) :
    Moves e c ({ c with unechoed := m }.echo v) := by
  have heed : Moves e c { c with
      rbc := (c.rbc.onPropose c.committee v.source v.round v.source v.digest).1 } :=
    .of (.heed v hv)
  have records := c.rbc.onPropose_records c.committee v.source v.round v.source v.digest
  have held : Moves e c { c with
      rbc := (c.rbc.onPropose c.committee v.source v.round v.source v.digest).1
      bodies := c.bodies.insert v.digest v } := by
    refine heed.bodies _ ?_
    intro d w hw
    rw [get?_insert] at hw
    split_ifs at hw
    · cases hw
      exact .inr (hv.elim (fun h => .inr h.1) .inl)
    · exact .inl hw
  unfold echo
  dsimp only
  split_ifs
  · exact (held.unechoed m (fun k w hw => .inl (hm k w hw))).trans (moves_applyRbc records)
  · exact (heed.unechoed m (fun k w hw => .inl (hm k w hw))).trans (moves_applyRbc records)

theorem moves_echoHeld (c : Core) : Moves e c c.echoHeld := by
  refine moves_foldl (fun c x _ => ?_) c
  cases hu : c.unechoed.get? x.1 with
  | none => exact .refl
  | some v =>
    have less : ∀ k w, (c.unechoed.erase x.1).get? k = some w → c.unechoed.get? k = some w := by
      intro k w hw
      rw [get?_erase] at hw
      split_ifs at hw
      exact hw
    dsimp only
    split_ifs
    · exact moves_echo (.inr ⟨_, hu⟩) less
    · exact .of (.unechoed _ (fun k w hw => .inl (less k w hw)))

theorem moves_holdBack {c : Core} {v : Vertex} (other : v.source ≠ c.me)
    (heard : e.heard v.source (.propose v)) : Moves e c (c.holdBack v) := by
  refine (((Moves.start c).send ((chunksOf maxFetch (c.missingBatches v)).map
      (fun ds => (.one v.source, .fetchBatches ds))) ?_).unechoed
    (c.unechoed.insert (toLex (v.round, v.source)) v) ?_).net _ (taken_foldl (taken_askBatch v) _ _)
  · intro m hm
    obtain ⟨ds, -, rfl⟩ := mem_map.1 hm
    exact .inr trivial
  · intro k w hw
    rw [get?_insert] at hw
    split_ifs at hw
    · cases hw
      exact .inr ⟨other, heard⟩
    · exact .inl hw

theorem moves_onPropose {c : Core} {frm : ValidatorIndex} {v : Vertex} (other : frm ≠ c.me)
    (heard : e.heard frm (.propose v)) : Moves e c (c.onPropose frm v) := by
  unfold onPropose
  split_ifs with bad
  · exact .refl
  · exact .refl
  · exact .refl
  · push Not at bad
    obtain ⟨same, wf⟩ := bad
    subst same
    have first : Moves e c (c.noteProposal v) := .of (.proposal v other heard (by simpa using wf))
    refine first.trans ?_
    unfold takeProposal
    split_ifs
    · exact moves_echo (.inl ⟨other, heard⟩) (fun _ _ h => h)
    · exact .refl
    · exact moves_holdBack other heard

theorem moves_onSignals {c : Core} {frm : ValidatorIndex} {ss : List Signal} (other : frm ≠ c.me)
    (heard : e.heard frm (.signals ss)) : Moves e c (c.onSignals frm ss) := by
  -- The validator's own index does not change along the fold.
  have fold : ∀ (l : List Signal) (horizon : ℕ) (c : Core), frm ≠ c.me → (∀ s ∈ l, s ∈ ss) →
      Moves e c (l.foldl (fun c s =>
        if horizon < s.round then c
        else
          { c with rbc := (c.rbc.onSignal c.committee frm s).1 }.applyRbc
            (c.rbc.onSignal c.committee frm s).2) c) := by
    intro l horizon
    induction l with
    | nil => exact fun _ _ _ => .refl
    | cons s l ih =>
      intro c other sub
      rw [foldl_cons]
      have rest := fun y hy => sub y (mem_cons_of_mem s hy)
      split_ifs with far
      · exact ih c other rest
      · have step : Moves e c ({ c with rbc := (c.rbc.onSignal c.committee frm s).1 }.applyRbc
            (c.rbc.onSignal c.committee frm s).2) :=
          (Moves.of (.hear other heard (sub s mem_cons_self))).trans
            (moves_applyRbc (c.rbc.onSignal_records c.committee frm s))
        exact step.trans (ih _ (by rwa [step.me]) rest)
  exact fold ss _ c other (fun _ h => h)

theorem refs_buildVertex {c : Core} {round nowMs : ℕ} {r : VertexRef}
    (h : r ∈ (c.buildVertex round nowMs).2.refs) :
    ∃ w, c.dag.vertexAt r.round r.source = some (r.digest, w) := by
  have inside : r ∈ c.strongRefs round ∨ r ∈ c.weakRefs round (c.strongRefs round) := by
    unfold buildVertex at h
    exact mem_append.1 h
  cases inside with
  | inl strong =>
    unfold strongRefs at strong
    split_ifs at strong
    · cases strong
    · obtain ⟨x, hx, rfl⟩ := mem_map.1 ((mem_insertionSort _).1 strong)
      obtain ⟨y, hy, rfl⟩ := mem_map.1 hx
      obtain ⟨mem, at'⟩ := mem_filter.1 hy
      have key : y.1 = toLex (round - 1, (ofLex y.1).2) := by
        have : (ofLex y.1).1 = round - 1 := by simpa using at'
        rw [← this]
        rfl
      refine ⟨y.2.2, ?_⟩
      have := mem_entries.1 (show (y.1, y.2) ∈ c.dag.rounds.entries from mem)
      rw [key] at this
      exact this
  | inr weak =>
    unfold weakRefs at weak
    split_ifs at weak
    · unfold Dag.orphansBelow at weak
      have out : r ∈ (c.dag.rounds.entries.filter (fun e =>
          c.dag.floor ≤ (ofLex e.1).1 && (ofLex e.1).1 < round - 1 &&
            !(Walk.walk (c.dag.expandRefs c.ordered.contains)
              (c.dag.walkFuel + ((c.strongRefs round).map VertexRef.digest).length)
              ((c.strongRefs round).map VertexRef.digest) []).contains e.2.1 &&
            !c.ordered.contains e.2.1)).map
          (fun e => (⟨(ofLex e.1).1, (ofLex e.1).2, e.2.1⟩ : VertexRef)) := by
        dsimp only at weak
        split_ifs at weak
        · exact weak
        · exact mem_of_mem_take weak
      obtain ⟨y, hy, rfl⟩ := mem_map.1 out
      exact ⟨y.2.2, mem_entries.1 (mem_of_mem_filter hy)⟩
    · cases weak

theorem moves_takeCarried (c : Core) (round : ℕ) : Moves e c (c.takeCarried round).1 := by
  unfold takeCarried
  split_ifs
  · exact .refl
  · dsimp only
    split_ifs
    · exact (Moves.of (.ask round)).aside _ c.lastPayloadRound c.votes c.sessions c.ownVotes
    · exact .of (.ask round)

/-- The part of `propose` that moves this validator's batches. -/
def introduceOwn (c : Core) (round : ℕ) : Core :=
  { c with
    ownUnintroduced := if c.halted then c.ownUnintroduced else []
    ownIntroduced := (if c.halted then [] else c.ownUnintroduced).foldl
      (fun m (b : BatchRef) => m.insert b.digest round) c.ownIntroduced }

theorem buildVertex_fst (c : Core) (round nowMs : ℕ) :
    (c.buildVertex round nowMs).1 = ((c.introduceOwn round).takeCarried round).1 := rfl

theorem moves_introduceOwn (c : Core) (round : ℕ) : Moves e c (c.introduceOwn round) := by
  by_cases hh : c.halted = true
  · simp only [introduceOwn, if_pos hh, foldl_nil]
    exact Moves.start c
  · simp only [introduceOwn, if_neg hh]
    exact .of (.introduce round (by simpa using hh))

theorem dag_takeCarried (c : Core) (round : ℕ) : (c.takeCarried round).1.dag = c.dag := by
  unfold takeCarried
  split_ifs
  · rfl
  · dsimp only
    split_ifs <;> rfl

theorem round_takeCarried (c : Core) (round : ℕ) : (c.takeCarried round).1.round = c.round := by
  unfold takeCarried
  split_ifs
  · rfl
  · dsimp only
    split_ifs <;> rfl

theorem moves_propose {c : Core} {round : ℕ} (nowMs : ℕ) (live : c.resuming = none)
    (later : ∀ r, c.round = some r → r < round) : Moves e c (c.propose round nowMs) := by
  have built : Moves e c (c.buildVertex round nowMs).1 := by
    rw [buildVertex_fst]
    exact (moves_introduceOwn c round).trans (moves_takeCarried _ round)
  have sameDag : (c.buildVertex round nowMs).1.dag = c.dag := by
    rw [buildVertex_fst, dag_takeCarried]
    rfl
  have sameRound : (c.buildVertex round nowMs).1.round = c.round := by
    rw [buildVertex_fst, round_takeCarried]
    rfl
  have out : Moves e c ((c.buildVertex round nowMs).1.proposeOwn (c.buildVertex round nowMs).2
      nowMs) := by
    refine built.next (.own _ nowMs (built.resuming live) rfl ?_ ?_ ?_)
    · rw [sameRound]
      exact later
    · intro r hr
      rw [sameDag]
      exact refs_buildVertex hr
    · unfold strongRefs
      rw [sameDag]
      rfl
  exact out.trans (moves_applyRbc (ReliableBroadcast.onPropose_records _ _ _ _ _ _))

theorem moves_enterAfter {c : Core} (live : c.resuming = none) (r nowMs : ℕ) (paced : Bool) :
    Moves e c (c.enterAfter r nowMs paced).1 := by
  unfold enterAfter
  by_cases stay : c.mayLeave r nowMs paced = false
  · rw [if_pos stay]
    exact .refl
  rw [if_neg stay]
  have later : ∀ current, c.round = some current → current < r + 1 := by
    intro current hc
    simp only [mayLeave, Bool.not_eq_false, Bool.and_eq_true] at stay
    have := stay.1.1.1
    rw [hc] at this
    have : current ≤ r := by simpa using this
    omega
  dsimp only
  split_ifs
  · exact .of (.ask r)
  · exact (Moves.of (.ask r)).trans (moves_propose nowMs live later)
  · exact .refl
  · exact moves_propose nowMs live later

theorem moves_leadTop {c : Core} (live : c.resuming = none) (top nowMs : ℕ) :
    Moves e c (c.leadTop top nowMs).1 := by
  unfold leadTop
  split_ifs
  · exact moves_enterAfter live _ _ _
  · exact .refl

theorem moves_catchUp {c : Core} (live : c.resuming = none) (top current nowMs : ℕ) :
    Moves e c (c.catchUp top current nowMs).1 := by
  have led : Moves e c ((c.askSchedule top).leadTop top nowMs).1 :=
    (Moves.of (.ask top)).trans (@moves_leadTop _ e (c.askSchedule top) live top nowMs)
  have jumped : Moves e c (((c.askSchedule top).leadTop top nowMs).1.enterAfter top nowMs false).1 :=
    led.trans (moves_enterAfter (Moves.resuming led live) _ _ _)
  unfold catchUp
  dsimp only
  split_ifs
  · exact led
  · exact jumped
  · exact jumped.trans (moves_enterAfter (Moves.resuming jumped live) _ _ _)

theorem moves_advanceOnce {c : Core} (live : c.resuming = none) (nowMs : ℕ) :
    Moves e c (c.advanceOnce nowMs).1 := by
  unfold advanceOnce
  split
  · exact .refl
  · dsimp only
    split_ifs
    · exact moves_catchUp live _ _ _
    · exact moves_enterAfter live _ _ _

theorem moves_tryAdvance {c : Core} (live : c.resuming = none) (nowMs : ℕ) :
    Moves e c (c.tryAdvance nowMs) := by
  have loop : ∀ (n : ℕ) (c : Core), c.resuming = none → Moves e c (advanceLoop n c nowMs) := by
    intro n
    induction n with
    | zero => exact fun _ _ => .refl
    | succ n ih =>
      intro c live
      have once := moves_advanceOnce (e := e) live nowMs
      unfold advanceLoop
      dsimp only
      split_ifs
      · exact once.trans (ih _ (once.resuming live))
      · exact once
  exact loop _ c live

theorem moves_tryCommit {c : Core} (live : c.resuming = none) : Moves e c c.tryCommit := by
  have loop : ∀ (n : ℕ) (c : Core), c.resuming = none → Moves e c (tryCommitLoop n c) := by
    intro n
    induction n with
    | zero => exact fun _ _ => .refl
    | succ n ih =>
      intro c live
      unfold tryCommitLoop
      by_cases hh : c.halted = true
      · rw [if_pos hh]
        exact .refl
      · have turned : Moves e c (c.askOpen.applyDecisions c.decideSlots).1 :=
          .of (.turn live (by simpa using hh))
        rw [if_neg hh]
        dsimp only
        split_ifs
        · exact turned.trans (ih _ (turned.resuming live))
        · exact turned
  exact loop _ c live

theorem moves_releaseSegments (c : Core) : Moves e c c.releaseSegments := by
  have loop : ∀ (n : ℕ) (c : Core), Moves e c (releaseLoop n c) := by
    intro n
    induction n with
    | zero => exact fun _ => .refl
    | succ n ih =>
      intro c
      unfold releaseLoop
      split
      · exact .refl
      next w rest hw =>
        split
        · exact .refl
        next c' hc => exact (Moves.of (.release hw hc)).trans (ih c')
  exact loop _ c

theorem moves_buildCheckpoints (c : Core) : Moves e c c.buildCheckpoints := by
  have loop : ∀ (n : ℕ) (c : Core), Moves e c (buildLoop n c) := by
    intro n
    induction n with
    | zero => exact fun _ => .refl
    | succ n ih =>
      intro c
      unfold buildLoop
      split
      · exact .refl
      next pc rest hd =>
        split_ifs with ready
        · exact (Moves.of (.build hd ready)).trans (ih _)
        · exact .refl
  exact loop _ c

theorem moves_progress {c : Core} (live : c.resuming = none) (nowMs : ℕ) :
    Moves e c (c.progress nowMs) := by
  have committed := moves_tryCommit (e := e) live
  exact (committed.trans (moves_tryAdvance (committed.resuming live) nowMs)).trans
    (moves_releaseSegments _)

end Core

end Tenzro
