import Tenzro.CoreSteps

set_option autoImplicit false
set_option linter.dupNamespace false
set_option linter.unusedSectionVars false

/-!
# Inputs and recoveries are sequences of moves
-/
namespace Tenzro
open List
variable [Hashing]

namespace Core

variable {e : Env}

theorem moves_onBatch (c : Core) (frm : ValidatorIndex) (p : BatchPayload) :
    Moves e c (c.onBatch frm p) := by
  unfold onBatch
  split_ifs
  · exact .refl
  · exact (((Moves.start c).payload p (c.round.getD 0)).aside
      (c.carryPool.insert (toLex (p.author, p.sequence)) p.reference) c.lastPayloadRound c.votes
      c.sessions c.ownVotes).net _ rfl
  · exact ((Moves.start c).payload p (c.round.getD 0)).net _ rfl

theorem moves_takeFetched (c : Core) (p : BatchPayload) : Moves e c (c.takeFetched p) := by
  unfold takeFetched
  split_ifs
  · exact .refl
  · exact (Moves.start c).net _ rfl
  · exact ((Moves.start c).payload p (c.round.getD 0)).net _ rfl

theorem moves_send {c : Core} (t : Target) {m : Message} (h : c.Vouched m) :
    Moves e c (c.send t m) := by
  refine (Moves.start c).send [(t, m)] ?_
  intro x hx
  rw [mem_singleton] at hx
  subst hx
  exact .inr h

theorem moves_answerBatchFetch (c : Core) (frm : ValidatorIndex) (ds : List Digest) :
    Moves e c (c.answerBatchFetch frm ds) := by
  unfold answerBatchFetch
  dsimp only
  split_ifs
  · exact .refl
  · refine Moves.net (moves_send (.one frm) ?_) _ ?_
    · exact trivial
    · rfl

theorem moves_answerVertexFetch (c : Core) (frm : ValidatorIndex) (ds : List Digest) :
    Moves e c (c.answerVertexFetch frm ds) := by
  unfold answerVertexFetch
  dsimp only
  split_ifs
  · exact .refl
  · refine moves_send _ ?_
    intro v hv
    obtain ⟨d, -, hd⟩ := mem_filterMap.1 hv
    exact ⟨d, hd⟩

theorem moves_takeVertex (c : Core) (v : Vertex) : Moves e c (c.takeVertex v) := by
  have unwanted : Moves e c { c with
      net := { c.net with wantedVertices := c.net.wantedVertices.erase v.digest } } :=
    (Moves.start c).net _ rfl
  unfold takeVertex
  dsimp only
  split_ifs
  · exact .refl
  · exact unwanted.trans (moves_offer _ v)
  · exact unwanted
  · exact unwanted.trans (moves_holdVertex _ v)
  · exact .refl

theorem moves_countVote (c : Core) (vote : CheckpointVote) : Moves e c (c.countVote vote) := by
  have admitted := (Moves.start (e := e) c).aside c.carryPool c.lastPayloadRound c.votes
    (c.sessions.admitSession c.committee vote.signature.session).1 c.ownVotes
  have counted := (Moves.start (e := e) c).aside c.carryPool c.lastPayloadRound
    (c.votes.add c.committee vote).1
    (c.sessions.admitSession c.committee vote.signature.session).1 c.ownVotes
  unfold countVote
  dsimp only
  split_ifs
  · exact admitted
  · split
    next cert _ => exact counted.next (.certified cert)
    next a b _ => exact counted.next (.evidence [_])
    next => exact counted
    next => exact counted

theorem moves_onCertificate (c : Core) (cert : Certificate) : Moves e c (c.onCertificate cert) := by
  unfold onCertificate
  split_ifs
  · exact .of (.disagree _)
  · exact .refl
  · split
    · split_ifs
      · exact .of (.evidence _)
      · exact .refl
    · exact .of (.certified cert)

theorem moves_onVote (c : Core) (vote : CheckpointVote) : Moves e c (c.onVote vote) := by
  unfold onVote
  split
  · exact .refl
  · dsimp only
    split_ifs
    · exact .refl
    · exact .of (.disagree _)
    · exact .refl
    · exact moves_countVote c vote

theorem mem_of_mem_chunksOf {α : Type} {n : ℕ} {l ch : List α} {x : α} (hc : ch ∈ chunksOf n l)
    (hx : x ∈ ch) : x ∈ l := by
  have h : ∀ (fuel : ℕ) (l : List α), ch ∈ chunks n fuel l → x ∈ l := by
    intro fuel
    induction fuel with
    | zero => exact fun l h => absurd h not_mem_nil
    | succ fuel ih =>
      intro l h
      cases l with
      | nil => exact absurd h not_mem_nil
      | cons y l =>
        cases mem_cons.1 h with
        | inl here => exact mem_of_mem_take (here ▸ hx)
        | inr rest => exact mem_of_mem_drop (ih _ rest)
  exact h l.length l hc

theorem sent_of_mem_sentSignals {b : ReliableBroadcast} {low : ℕ} {s : Signal}
    (h : s ∈ b.sentSignals low) : (b.inst s.round s.source).sent s.kind = some s.digest := by
  obtain ⟨x, hx, hs⟩ := mem_flatMap.1 h
  obtain ⟨k, -, hk⟩ := mem_filterMap.1 hs
  obtain ⟨d, hd, rfl⟩ := Option.map_eq_some_iff.1 hk
  have stored : b.instances.get? (toLex ((ofLex x.1).1, (ofLex x.1).2)) = some x.2 :=
    SortedMap.mem_entries.1 (mem_of_mem_filter hx)
  simp only [ReliableBroadcast.inst, SortedMap.getD, stored, Option.getD_some]
  exact hd

theorem vouched_frontierAnswer {c : Core} {current : ℕ} {f : Frontier} {m : Message}
    (h : m ∈ c.frontierAnswer current f) : c.Vouched m := by
  unfold frontierAnswer at h
  dsimp only at h
  split_ifs at h
  · cases h
  · simp only [mem_append, or_assoc] at h
    rcases h with h | h | h | h
    · obtain ⟨v, hv, rfl⟩ := mem_map.1 h
      obtain ⟨r, -, hr⟩ := mem_filterMap.1 hv
      exact ⟨r, hr⟩
    · obtain ⟨ss, hss, rfl⟩ := mem_map.1 h
      intro s hs
      exact sent_of_mem_sentSignals (mem_of_mem_chunksOf hss hs)
    · obtain ⟨v, -, rfl⟩ := mem_map.1 h
      exact trivial
    · split at h
      · split_ifs at h
        · rw [mem_singleton] at h
          subst h
          exact trivial
        · cases h
      · cases h

theorem moves_onFrontier (c : Core) (peer : ValidatorIndex) (f : Frontier) :
    Moves e c (c.onFrontier peer f) := by
  unfold onFrontier
  split
  · exact .refl
  next current _ =>
    split_ifs
    · exact .refl
    · refine ((Moves.start c).send ((c.frontierAnswer current f).map (fun m => (.one peer, m)))
        ?_).net _ rfl
      intro x hx
      obtain ⟨m, hm, rfl⟩ := mem_map.1 hx
      exact .inr (vouched_frontierAnswer hm)

theorem moves_onMessage {c : Core} {frm : ValidatorIndex} {m : Message} (other : frm ≠ c.me)
    (heard : e.heard frm m) : Moves e c (c.onMessage frm m) := by
  have frame : ∀ n : Net, n.taken = c.net.taken → Moves e c { c with net := n } :=
    fun n h => (Moves.start c).net n h
  cases m with
  | propose v => exact moves_onPropose other heard
  | signals ss => exact moves_onSignals other heard
  | batch p => exact moves_onBatch c frm p
  | fetchVertices ds =>
    simp only [onMessage]
    split_ifs
    · exact .refl
    · exact (frame { c.net with frameFetches := c.net.frameFetches + 1 } rfl).trans
        (moves_answerVertexFetch _ frm ds)
  | vertices vs => exact moves_foldl (fun c v _ => moves_takeVertex c v) c
  | fetchBatches ds =>
    simp only [onMessage]
    split_ifs
    · exact .refl
    · exact (frame { c.net with frameFetches := c.net.frameFetches + 1 } rfl).trans
        (moves_answerBatchFetch _ frm ds)
  | batches ps => exact moves_foldl (fun c p _ => moves_takeFetched c p) c
  | vote v => exact moves_onVote c v
  | certificate cert => exact moves_onCertificate c cert
  | frontier f =>
    have answered := frame { c.net with frameAnsweredFrontier := true } rfl
    simp only [onMessage]
    split_ifs
    · exact answered
    · exact answered.trans (moves_onFrontier _ frm f)
  | fetchOrdering index =>
    have answered := frame { c.net with frameAnsweredOrdering := true } rfl
    simp only [onMessage]
    split_ifs
    · exact answered
    · cases c.orderingStates.get? index with
      | none => exact answered
      | some s => exact answered.trans (moves_send _ trivial)
  | ordering s => exact .refl

theorem moves_tryStart (c : Core) (nowMs : ℕ) : Moves e c (c.tryStart nowMs) := by
  unfold tryStart
  split_ifs with h
  · refine moves_propose nowMs (by simpa using h.2.1) ?_
    intro r hr
    rw [h.2.2.1] at hr
    cases hr
  · exact .refl

theorem moves_askOrdering (c : Core) (nowMs : ℕ) : Moves e c (c.askOrdering nowMs) := by
  unfold askOrdering
  split
  · exact .refl
  next r hr =>
    split_ifs
    · exact .refl
    · exact (Moves.of (.asked _ hr)).trans (moves_send _ trivial)

theorem moves_connect (c : Core) (i : ValidatorIndex) (nowMs : ℕ) : Moves e c (c.connect i nowMs) :=
  (Moves.start c).net _ rfl

theorem moves_startEpoch (c : Core) (nowMs : ℕ) : Moves e c (c.startEpoch nowMs) := by
  have started := (moves_connect (e := e) c c.me nowMs).net
    { (c.connect c.me nowMs).net with started := true } rfl
  unfold startEpoch
  dsimp only
  split_ifs
  · exact started.trans (moves_askOrdering _ nowMs)
  · exact started.trans (moves_tryStart _ nowMs)

theorem moves_onPeerUp (c : Core) (peer : ValidatorIndex) (nowMs : ℕ) :
    Moves e c (c.onPeerUp peer nowMs) := by
  have connected := moves_connect (e := e) c peer nowMs
  unfold onPeerUp
  split_ifs
  · exact .refl
  · dsimp only
    split
    · exact connected.trans (moves_send _ trivial)
    · exact (connected.trans (moves_send (m := .frontier _) _ trivial)).trans
        (moves_tryStart _ nowMs)

theorem moves_onOrdering (live : ¬ e.recovering) (c : Core) (state : OrderingState) :
    Moves e c (c.onOrdering state) := by
  unfold onOrdering
  split
  · exact .refl
  next r hr =>
    dsimp only
    split_ifs with bad
    · exact .refl
    · push Not at bad
      have installed : Moves e c (c.install r.certificate state r.ownRound c.net.nowMs) :=
        .of (.install _ _ _ _ live ⟨r, hr, rfl, rfl⟩ bad.2.2)
      have repaired := installed.net { (c.install r.certificate state r.ownRound c.net.nowMs).net with
        lastRepairMs := c.net.nowMs } rfl
      exact (repaired.trans (moves_send (m := .frontier _) _ trivial)).trans (moves_progress rfl _)

theorem moves_onMessages {c : Core} {frm : ValidatorIndex} {ms : List Message} (nowMs : ℕ)
    (normal : ¬ e.recovering) (heard : ∀ m ∈ ms, e.heard frm m) : Moves e c (c.onMessages frm ms nowMs) := by
  unfold onMessages
  split_ifs with out
  · exact .refl
  · have timed := (Moves.start (e := e) c).net { c.net with nowMs := nowMs } rfl
    push Not at out
    dsimp only
    split_ifs with live
    · refine timed.trans (moves_foldl (fun c m _ => ?_) _)
      cases m <;> first | exact moves_onOrdering normal _ _ | exact .refl
    · have framed := timed.net { c.net with
        nowMs := nowMs
        frameFetches := 0
        frameAnsweredFrontier := false
        frameAnsweredOrdering := false } rfl
      have fold : ∀ (l : List Message) (c : Core), frm ≠ c.me → (∀ m ∈ l, m ∈ ms) →
          Moves e c (l.foldl (fun c m => c.onMessage frm m) c) := by
        intro l
        induction l with
        | nil => exact fun _ _ _ => .refl
        | cons m l ih =>
          intro c other sub
          have step := moves_onMessage other (heard m (sub m mem_cons_self))
          rw [foldl_cons]
          exact step.trans (ih _ (by rwa [step.me])
            (fun y hy => sub y (mem_cons_of_mem m hy)))
      have echoed := (framed.trans (fold ms _ out.1 (fun _ h => h))).trans (moves_echoHeld _)
      exact echoed.trans (moves_progress (Moves.resuming echoed (by simpa using live)) nowMs)

theorem moves_retryFetches (c : Core) (nowMs : ℕ) : Moves e c (c.retryFetches nowMs) := by
  unfold retryFetches
  split_ifs
  · exact .refl
  · refine Moves.net ((Moves.start c).send ((range c.committee.size).flatMap (fun p =>
      (chunksOf maxFetch (((c.vertexFetches nowMs).filter
          (fun e => c.pickPeer e.2.attempts e.1 = p)).map Prod.fst)).map
          (fun ds => (Target.one p, Message.fetchVertices ds)) ++
        (chunksOf maxFetch (((c.net.wantedBatches.entries.filter
          (fun e => c.fetchDue nowMs e.2)).filter
            (fun e => c.batchPeer e.1 e.2 = p)).map Prod.fst)).map
          (fun ds => (Target.one p, Message.fetchBatches ds)))) ?_) _ rfl
    intro x hx
    obtain ⟨p, -, hp⟩ := mem_flatMap.1 hx
    refine .inr ?_
    cases mem_append.1 hp with
    | inl h =>
      obtain ⟨ds, -, rfl⟩ := mem_map.1 h
      exact trivial
    | inr h =>
      obtain ⟨ds, -, rfl⟩ := mem_map.1 h
      exact trivial

theorem moves_repairStall (c : Core) (nowMs : ℕ) : Moves e c (c.repairStall nowMs) := by
  unfold repairStall
  dsimp only
  split_ifs
  · exact .refl
  · exact ((Moves.start c).net { c.net with lastRepairMs := nowMs } rfl).trans
      (moves_send _ trivial)

theorem moves_onTick (c : Core) (nowMs : ℕ) : Moves e c (c.onTick nowMs) := by
  have timed := (Moves.start (e := e) c).net { c.net with nowMs := nowMs } rfl
  unfold onTick
  dsimp only
  split_ifs with live
  · exact timed.trans (moves_askOrdering _ nowMs)
  · have asked := timed.trans (moves_retryFetches _ nowMs)
    exact (asked.trans (moves_progress (Moves.resuming asked (by simpa using live)) nowMs)).trans
      (moves_repairStall _ nowMs)

theorem moves_onOwnVote (c : Core) (vote : CheckpointVote) : Moves e c (c.onOwnVote vote) := by
  unfold onOwnVote
  split_ifs
  · exact .refl
  · exact (moves_send (m := .vote vote) _ trivial).trans (moves_countVote _ vote)
  · have kept := (Moves.start (e := e) c).aside c.carryPool c.lastPayloadRound c.votes c.sessions
      (c.ownVotes.insert vote.checkpoint.index vote)
    exact (kept.trans (moves_send (m := .vote vote) _ trivial)).trans (moves_countVote _ vote)

theorem moves_admitSessions (c : Core) (index : ℕ) (ss : List SessionCertificate) :
    Moves e c (c.admitSessions index ss).1 := by
  induction ss generalizing c with
  | nil => exact .refl
  | cons s ss ih =>
    unfold admitSessions
    split_ifs
    · exact .of (.disagree index)
    · exact ((Moves.start c).aside c.carryPool c.lastPayloadRound c.votes
        (c.sessions.admitSession c.committee s).1 c.ownVotes).trans (ih _)

theorem moves_adoptCertificate (c : Core) (cert : Certificate) (ss : List SessionCertificate) :
    Moves e c (c.adoptCertificate cert ss) := by
  have admitted := moves_admitSessions (e := e) c cert.checkpoint.index ss
  unfold adoptCertificate
  dsimp only
  split_ifs
  · exact admitted
  · exact admitted.trans (moves_onCertificate _ cert)

theorem onCertificate_of_verified {c : Core} {cert : Certificate}
    (agrees : certificateAgrees cert c.sessions ≠ false) (verified : c.verifies cert ≠ false)
    (absent : c.certificates.get? cert.checkpoint.index = none) :
    c.onCertificate cert = c.onCertified cert := by
  unfold onCertificate
  rw [if_neg agrees, if_neg verified, absent]

theorem moves_adoptHandover (c : Core) (cert : Certificate) (ss : List SessionCertificate) :
    Moves e c (c.adoptHandover cert ss) := by
  have admitted := moves_admitSessions (e := e) c cert.checkpoint.index ss
  unfold adoptHandover
  dsimp only
  split_ifs with stopped agrees verified first
  · exact admitted
  · exact admitted.next (.disagree _)
  · exact admitted
  · cases held : (c.admitSessions cert.checkpoint.index ss).1.certificates.get?
        cert.checkpoint.index with
    | some own => exact admitted.next (.adoptHeld first.2.1 first.2.2 held)
    | none =>
      have same := @onCertificate_of_verified _
        { (c.admitSessions cert.checkpoint.index ss).1 with
          certifiedHandoverIndex := cert.checkpoint.index
          handovers := (c.admitSessions cert.checkpoint.index ss).1.handovers ++
            [(cert.checkpoint.index, false)] } cert agrees verified held
      dsimp only
      rw [same]
      exact admitted.next (.adopt cert first.2.1 first.2.2 held)
  · exact admitted.trans (moves_onCertificate _ cert)

end Core

def Input.env : Input → Env
  | .messages frm ms _ => ⟨fun i m => i = frm ∧ m ∈ ms, False, False⟩
  | .takeSkipped | .takeEvents | .takeOutbox | .takeJournal => ⟨fun _ _ => False, False, True⟩
  | _ => ⟨fun _ _ => False, False, False⟩

namespace Core

theorem moves_input (c : Core) (i : Input) : Moves i.env c (c.input i) := by
  cases i with
  | start nowMs => exact moves_startEpoch c nowMs
  | peerUp peer nowMs => exact moves_onPeerUp c peer nowMs
  | messages frm ms nowMs => exact moves_onMessages nowMs not_false (fun m hm => ⟨rfl, hm⟩)
  | tick nowMs => exact moves_onTick c nowMs
  | submit part => exact .of (.submit part)
  | executed height blockHash postStateRoot statements =>
    exact (Moves.of (.executed height _)).trans (moves_buildCheckpoints _)
  | nextCommitteeRoot root => exact (Moves.of (.nextRoot root)).trans (moves_buildCheckpoints _)
  | ownVote vote => exact moves_onOwnVote c vote
  | adoptHandover cert sessions => exact moves_adoptHandover c cert sessions
  | adoptCertificate cert sessions => exact moves_adoptCertificate c cert sessions
  | holdFrontier held => exact (Moves.start c).net _ rfl
  | takeSkipped => exact .of (.take _ trivial)
  | takeEvents => exact .of (.take _ trivial)
  | takeOutbox => exact .of (.take _ trivial)
  | takeJournal => exact .of (.take _ trivial)

def recoverEnv : Env := ⟨fun _ _ => False, True, False⟩

theorem moves_restorePayload (c : Core) (p : BatchPayload) :
    Moves recoverEnv c (c.restorePayload p) :=
  (Moves.start c).payload p 0

theorem moves_recoverOwn (c : Core) (v : Vertex) : Moves recoverEnv c (c.recoverOwn v) :=
  .of (.restore c.rbc _ _ _ c.nextBatchSequence _ c.ownUnintroduced c.executedThrough c.journal
    trivial)

theorem moves_continueSequences (c : Core) : Moves recoverEnv c c.continueSequences :=
  .of (.restore c.rbc c.firstProposals c.bodies c.round _ c.ownIntroduced c.ownUnintroduced
    c.executedThrough c.journal trivial)

theorem moves_recoverUnintroduced (c : Core) (introduced : List Digest) :
    Moves recoverEnv c (c.recoverUnintroduced introduced) :=
  .of (.restore c.rbc c.firstProposals c.bodies c.round c.nextBatchSequence c.ownIntroduced _
    c.executedThrough c.journal trivial)

theorem moves_recoverOwns (c : Core) (own : List Vertex) (batches : List BatchPayload) :
    Moves recoverEnv c (c.recoverOwns own batches) := by
  have payloads : Moves recoverEnv c (batches.foldl restorePayload c) :=
    moves_foldl (fun c p _ => moves_restorePayload c p) c
  have owned := (payloads.trans (moves_continueSequences _)).trans
    (moves_foldl (fun c v (_ : v ∈ own) => moves_recoverOwn c v) _)
  exact owned.trans (moves_recoverUnintroduced _ _)

theorem moves_recoverSignal (c : Core) (s : Signal) : Moves recoverEnv c (c.recoverSignal s) :=
  .of (.restore _ c.firstProposals c.bodies c.round c.nextBatchSequence c.ownIntroduced
    c.ownUnintroduced c.executedThrough c.journal trivial)

theorem moves_recoverDelivered (c : Core) (v : Vertex) :
    Moves recoverEnv c (c.recoverDelivered v) := by
  have expected : Moves recoverEnv c { c with dag := c.dag.expect v.digest v.round } :=
    .of (.expect _ _ v.source (.inl trivial))
  have offered : Moves recoverEnv c { c with dag := ((c.dag.expect v.digest v.round).offer v).1 } :=
    expected.next (.offer v)
  exact offered.next (.restore _ _ c.bodies c.round c.nextBatchSequence c.ownIntroduced
    c.ownUnintroduced c.executedThrough c.journal trivial)

theorem moves_recoverRounds (delivered : List Vertex) (rounds : List ℕ) (signals : List Signal)
    {c : Core} (live : c.resuming = none) :
    Moves recoverEnv c (recoverRounds delivered rounds signals c) := by
  induction rounds generalizing signals c with
  | nil => exact moves_foldl (fun c s _ => moves_recoverSignal c s) c
  | cons r rounds ih =>
    unfold recoverRounds
    have sent : Moves recoverEnv c ((signals.takeWhile (fun s => s.round ≤ r)).foldl
        recoverSignal c) := moves_foldl (fun c s _ => moves_recoverSignal c s) c
    have filled := sent.trans (moves_foldl (fun c v (_ : v ∈ delivered.filter
      (fun v => v.round = r)) => moves_recoverDelivered c v) _)
    have committed := filled.trans (moves_tryCommit (Moves.resuming filled live))
    exact committed.trans (ih _ (Moves.resuming committed live))

/-- The core a recovery replays on: new, or installed from the last resumption. -/
def recoverBase (cfg : CoreConfig) (committee : Committee) (me : ValidatorIndex)
    (start : EpochStart) (records : List Record) (executedThrough nowMs : ℕ) : Core :=
  { Core.new cfg committee me start with executedThrough := executedThrough }.recoverResumed
    (splitResumed records).1 (splitResumed records).2.1 nowMs

theorem resuming_recoverBase (cfg : CoreConfig) (committee : Committee) (me : ValidatorIndex)
    (start : EpochStart) (records : List Record) (executedThrough nowMs : ℕ) :
    (recoverBase cfg committee me start records executedThrough nowMs).resuming = none := by
  unfold recoverBase recoverResumed
  split <;> rfl

theorem moves_endReplay (c : Core) (nowMs : ℕ) : Moves recoverEnv c (c.endReplay nowMs) := by
  have cleared : Moves recoverEnv c { c with journal := [] } :=
    .of (.restore c.rbc c.firstProposals c.bodies c.round c.nextBatchSequence c.ownIntroduced
      c.ownUnintroduced c.executedThrough _ trivial)
  exact cleared.net _ rfl

theorem moves_recover (cfg : CoreConfig) (committee : Committee) (me : ValidatorIndex)
    (start : EpochStart) (records : List Record) (executedThrough nowMs : ℕ) :
    Moves recoverEnv (recoverBase cfg committee me start records executedThrough nowMs)
      (recover cfg committee me start records executedThrough nowMs) := by
  have live := resuming_recoverBase cfg committee me start records executedThrough nowMs
  have owned := moves_recoverOwns
    (recoverBase cfg committee me start records executedThrough nowMs)
    (sortedOwn (splitResumed records).2.2) (batchesOf (splitResumed records).2.2)
  have replayed := (owned.trans (moves_recoverRounds (sortedDelivered (splitResumed records).2.2)
    ((sortedDelivered (splitResumed records).2.2).map Vertex.round).dedup
    (sortedSignals (splitResumed records).2.2) (Moves.resuming owned live))).trans
    (moves_releaseSegments _)
  exact Moves.send (replayed.trans (moves_endReplay _ nowMs)) _ (fun _ _ => .inl trivial)

end Core

end Tenzro
