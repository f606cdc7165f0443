import Tenzro.OwnBatches
import Tenzro.ExactlyOnce

set_option autoImplicit false
set_option linter.dupNamespace false
set_option linter.unusedSectionVars false

/-!
# Own batches over whole runs

Every input and every replay of a journal keeps each accepted batch in one place.
-/
namespace Tenzro
open List Function SortedMap
variable [Hashing]

namespace Core

theorem keeps_takeCheckpoint (c : Core) (anchor : VertexRef) (t : ℕ) :
    Keeps c (c.takeCheckpoint anchor t) := by
  unfold takeCheckpoint
  dsimp only
  split_ifs
  · exact .of_owning rfl (fun h => by simp [decideCheckpoint, h]) rfl
  · exact .of_owning rfl (fun h => by simp [decideCheckpoint, h]) rfl
  · exact .of_owning rfl id rfl

theorem keeps_sealLast (c : Core) : Keeps c c.sealLast := by
  unfold sealLast
  split
  · exact .of_owning rfl id rfl
  · split_ifs <;> exact .of_owning rfl id rfl

theorem availability_takeCheckpoint (c : Core) (anchor : VertexRef) (t : ℕ) :
    (c.takeCheckpoint anchor t).availability = c.availability := by
  unfold takeCheckpoint
  dsimp only
  split_ifs <;> rfl

theorem owned_commitOpen (inj : Injective BatchHash.batchDigest) {c : Core} (h : c.Owned)
    (anchor : VertexRef) : (c.commitOpen anchor).Owned := by
  have taken := keeps_takeCheckpoint (c.makeSegments anchor) anchor
    ((c.settle anchor).segmentTimestamp anchor)
  obtain ⟨me, accepted, -, -, -, -, -, commits⟩ := owning_eq_iff.1 taken.owning
  refine (keeps_sealLast _).owned (owned_collectGarbage inj (taken.owned (owned_makeSegments inj h
    anchor)) ?_ anchor.round)
  intro fair p hp tracked
  have before : c.Fair := by
    intro n hn p hp
    have here := fair n (by rw [commits]; exact mem_append_left _ hn) p
      (by rw [accepted]; exact hp)
    rw [me] at here
    exact here
  rw [accepted] at hp
  rw [at_of_owning taken.owning, at_of_owning taken.owning] at tracked
  have high := through_makeSegments inj h anchor before hp tracked
  rw [availability_takeCheckpoint, me]
  exact high

theorem owning_buildOne (c : Core) (pc : PendingCheckpoint) (rest : List PendingCheckpoint) :
    (c.buildOne pc rest).owning = c.owning := by
  have back : (c.buildOne pc rest).returned = c.returned := by
    simp only [returned, buildOne, filterMap_append]
    simp [Event.returned]
  simp only [owning, back]
  rfl

theorem owned_turn (inj : Injective BatchHash.batchDigest) {c : Core}
    (running : c.halted = false) (h : c.Owned) :
    (c.askOpen.applyDecisions c.decideSlots).1.Owned := by
  refine turn_keeps ?_ ?_ ?_ ?_ running h
  · exact fun c r h => (Keeps.of_owning rfl id rfl : Keeps c (c.askSchedule r)).owned h
  · exact fun c slot h => (Keeps.of_owning rfl id rfl : Keeps c (c.skipSlot slot)).owned h
  · intro c slot anchor _ h
    have taken : (c.takeSlot slot (some anchor)).Owned :=
      (Keeps.of_owning rfl id rfl : Keeps c (c.takeSlot slot (some anchor))).owned h
    exact owned_commitOpen inj taken anchor
  · intro c pc rest _ _ h
    exact (Keeps.of_owning (owning_buildOne c pc rest) id rfl).owned h

theorem accepted_journal (c : Core) (rs : List Record) (none : batchesOf rs = []) :
    batchesOf (c.journal ++ rs) = c.accepted := by
  have split : batchesOf (c.journal ++ rs) = batchesOf c.journal ++ batchesOf rs :=
    filterMap_append
  rw [split, none, append_nil]
  rfl

theorem returned_events (c : Core) {es : List Event} (none : es.filterMap Event.returned = []) :
    { c with events := c.events ++ es }.returned = c.returned := by
  simp only [returned, filterMap_append, none, append_nil]

theorem keeps_releaseFirst {c c' : Core} {w : Waiting} {rest : List Waiting}
    (h : c.releaseFirst w rest = some c') : Keeps c c' := by
  have back : c'.returned = c.returned := by
    cases w with
    | epochEnds last =>
      cases h
      exact returned_events c rfl
    | segment seg =>
      simp only [releaseFirst] at h
      split_ifs at h <;> cases h <;> exact returned_events c rfl
  cases w with
  | epochEnds last =>
    cases h
    refine .of_owning ?_ id rfl
    simp only [owning, back]
    rfl
  | segment seg =>
    simp only [releaseFirst] at h
    split_ifs at h <;> cases h <;>
      (refine .of_owning ?_ id rfl; simp only [owning, back]; rfl)

theorem owned_onCertified (inj : Injective BatchHash.batchDigest) {c : Core} (h : c.Owned)
    (cert : Certificate) : (c.onCertified cert).Owned := by
  unfold onCertified
  dsimp only
  split_ifs
  any_goals exact h
  any_goals
    apply owned_completeEpoch inj
    exact Keeps.owned (c := c) (.of_owning rfl id rfl) h
  any_goals
    refine Keeps.owned (c := c) (.of_owning ?_ id rfl) h
    have none : [Event.certified cert].filterMap Event.returned = [] := rfl
    simp only [owning, emit, returned, filterMap_append, none, append_nil]
    rfl

theorem owned_install {c : Core} (h : c.Owned) (cert : Certificate) (state : OrderingState)
    (ownRound : Option ℕ) (nowMs : ℕ) : (c.install cert state ownRound nowMs).Owned := by
  have accepted : (c.install cert state ownRound nowMs).accepted = c.accepted :=
    accepted_journal c [Record.resumed cert state] rfl
  have later : c.nextBatchSequence ≤ (c.install cert state ownRound nowMs).nextBatchSequence :=
    le_max_left _ _
  have past : ∀ q, c.Past q → (c.install cert state ownRound nowMs).Past q :=
    fun q hq => hq.imp_right (fun low => low.trans_le later)
  refine ⟨⟨?_, ?_, ?_, h.tidy.payloads, ?_, h.tidy.segments, ?_⟩, ?_⟩
  · intro b hb
    obtain ⟨q, hq, old⟩ := h.tidy.unintroduced b hb
    exact ⟨q, hq, past q old⟩
  · intro d hd
    obtain ⟨q, hq, old⟩ := h.tidy.introduced d hd
    exact ⟨q, hq, past q old⟩
  · exact fun q hq => (h.tidy.returned q hq).imp_left (past q)
  · exact fun n hn => (h.tidy.notes n hn).trans later
  · rw [accepted]
    exact fun p hp => ⟨(h.tidy.accepted p hp).1, (h.tidy.accepted p hp).2.trans_le later⟩
  · intro fair
    have before : c.Fair := by
      intro n hn p hp
      exact fair n hn p (by rw [accepted]; exact hp)
    have housed := h.housed before
    refine ⟨?_, ?_⟩
    · rw [accepted]
      intro p hp
      refine existsUnique_moved (f := id) ?_ ?_ (housed.one p hp)
      · intro x hx
        cases x <;> exact hx
      · intro y hy
        refine ⟨y, ?_, rfl⟩
        cases y <;> exact hy
    · rw [accepted]
      exact housed.held

theorem owned_move (inj : Injective BatchHash.batchDigest) {e : Env} {c c' : Core}
    (move : Move e c c') (live : ¬ e.recovering) (h : c.Owned) : c'.Owned := by
  cases move with
  | restore _ _ _ _ _ _ _ _ _ no => exact absurd no live
  | turn _ running => exact owned_turn inj running h
  | submit part => exact owned_submitPart inj h part
  | introduce round _ => exact owned_introduce inj h round
  | release _ hr => exact (keeps_releaseFirst hr).owned h
  | build _ _ => exact (Keeps.of_owning (owning_buildOne c _ _) id rfl).owned h
  | certified cert => exact owned_onCertified inj h cert
  | adopt cert _ _ _ =>
    apply owned_onCertified inj
    exact Keeps.owned (c := c) (.of_owning rfl id rfl) h
  | adoptHeld _ _ _ =>
    apply owned_completeEpoch inj
    exact Keeps.owned (c := c) (.of_owning rfl id rfl) h
  | evidence es =>
    have none : (es.map Event.equivocation).filterMap Event.returned = [] := by
      simp [filterMap_map, comp_def, Event.returned]
    refine Keeps.owned (c := c) (.of_owning ?_ id rfl) h
    simp only [owning, returned_events c none]
    rfl
  | disagree index =>
    have none : [Event.verifierDisagreement index].filterMap Event.returned = [] := rfl
    refine Keeps.owned (c := c) (.of_owning ?_ (fun _ => rfl) rfl) h
    simp only [owning, onDisagreement, returned, filterMap_append, none, append_nil]
    rfl
  | payload p r =>
    refine Keeps.owned (c := c) ⟨rfl, id, ?_, ?_⟩ h
    · intro d q hq
      rw [get?_insert] at hq
      split_ifs at hq with same
      · cases hq
        exact .inr same.symm
      · exact .inl hq
    · exact fun q hq => get?_insert_digest inj hq
  | signal s _ =>
    refine Keeps.owned (c := c) (.of_owning ?_ id rfl) h
    simp only [owning, accepted, accepted_journal c [Record.signal s] rfl]
    rfl
  | @delivered d v _ =>
    refine Keeps.owned (c := c) (.of_owning ?_ id rfl) h
    simp only [owning, accepted, accepted_journal c [Record.delivered v] rfl]
    rfl
  | own v nowMs _ _ _ _ _ =>
    refine Keeps.owned (c := c) (.of_owning ?_ id rfl) h
    simp only [owning, accepted, proposeOwn, accepted_journal c [Record.own v] rfl]
    rfl
  | install cert state ownRound nowMs _ _ _ => exact owned_install h cert state ownRound nowMs
  | _ => exact Keeps.owned (c := c) (.of_owning rfl id rfl) h

theorem owned_of_tidy {c : Core} (tidy : c.Tidy) (none : c.accepted = []) : c.Owned := by
  refine ⟨tidy, fun _ => ⟨?_, ?_⟩⟩
  · rw [none]
    exact forall_mem_nil _
  · rw [none]
    exact forall_mem_nil _

theorem tidy_empty {c : Core} (waits : c.ownUnintroduced = []) (tracked : c.ownIntroduced = .empty)
    (events : c.events = []) (commits : c.commits = []) (segments : c.segments = [])
    (accepted : c.accepted = []) (payloads : ∀ d q, c.payloads.get? d = some q → q.digest = d) :
    c.Tidy where
  unintroduced := by
    rw [waits]
    exact forall_mem_nil _
  introduced := by
    rw [tracked]
    exact fun d hd => nomatch hd
  returned := by
    unfold returned
    rw [events]
    exact forall_mem_nil _
  payloads := payloads
  notes := by
    rw [commits]
    exact forall_mem_nil _
  segments := by
    rw [segments]
    exact forall_mem_nil _
  accepted := by
    rw [accepted]
    exact forall_mem_nil _

def Journalled (records : List Record) : Prop :=
  ∀ v ∈ ownOf records, ∀ b ∈ v.batches, ∃ p ∈ batchesOf records, p.digest = b.digest

theorem splitResumed_cases (rs : List Record) :
    splitResumed rs = ([], none, rs) ∨ ∃ cert state, (splitResumed rs).2.1 = some (cert, state) ∧
      rs = (splitResumed rs).1 ++ Record.resumed cert state :: (splitResumed rs).2.2 := by
  induction rs with
  | nil => exact .inl rfl
  | cons r rs ih =>
    unfold splitResumed
    split
    next before resumed after heq =>
      rw [heq] at ih
      cases ih with
      | inl no => cases no
      | inr some =>
        obtain ⟨cert, state, found, eq⟩ := some
        exact .inr ⟨cert, state, found, congrArg (r :: ·) eq⟩
    next heq =>
      split
      · exact .inr ⟨_, _, rfl, rfl⟩
      · exact .inl rfl

theorem mem_batchesOf_split {rs : List Record} {p : BatchPayload} (h : p ∈ batchesOf rs) :
    p ∈ batchesOf (splitResumed rs).1 ∨ p ∈ batchesOf (splitResumed rs).2.2 := by
  cases splitResumed_cases rs with
  | inl none =>
    rw [none]
    exact .inr h
  | inr some =>
    obtain ⟨cert, state, -, eq⟩ := some
    rw [eq] at h
    unfold batchesOf at h
    rw [filterMap_append] at h
    exact mem_append.1 h

theorem mem_ownOf_split {rs : List Record} {v : Vertex} (h : v ∈ ownOf (splitResumed rs).2.2) :
    v ∈ ownOf rs := by
  cases splitResumed_cases rs with
  | inl none =>
    rw [none] at h
    exact h
  | inr some =>
    obtain ⟨cert, state, -, eq⟩ := some
    rw [eq]
    unfold ownOf at h ⊢
    rw [filterMap_append]
    exact mem_append_right _ h

/-- The payloads of a journal, restored. -/
structure Restored (ps : List BatchPayload) (m : SortedMap Digest BatchPayload) : Prop where
  keyed : ∀ d q, m.get? d = some q → q.digest = d
  held : ∀ p ∈ ps, m.get? p.digest = some p

theorem restored_foldl (inj : Injective BatchHash.batchDigest) (ps old : List BatchPayload)
    {c : Core} (h : Restored old c.payloads) :
    Restored (old ++ ps) (ps.foldl restorePayload c).payloads := by
  induction ps generalizing c old with
  | nil =>
    rw [append_nil]
    exact h
  | cons p ps ih =>
    have step : Restored (old ++ [p]) (c.restorePayload p).payloads := by
      refine ⟨keyed_insert h.keyed, ?_⟩
      intro q hq
      cases mem_append.1 hq with
      | inl before => exact get?_insert_digest inj (h.held q before)
      | inr new =>
        cases mem_singleton.1 new
        exact get?_insert_self ..
    have := ih (old ++ [p]) step
    rw [append_assoc] at this
    exact this

def unowned (c : Core) : SortedMap Digest BatchPayload × ℕ × List Event × List CommitNote ×
    List WaitingSegment × List Record × ValidatorIndex :=
  (c.payloads, c.nextBatchSequence, c.events, c.commits, c.segments, c.journal, c.me)

theorem unowned_foldl_recoverOwn (own : List Vertex) (c : Core) :
    (own.foldl recoverOwn c).unowned = c.unowned := by
  induction own generalizing c with
  | nil => rfl
  | cons v own ih => exact ih (c.recoverOwn v)

theorem introduced_foldl_recoverOwn (own : List Vertex) (c : Core) (d : Digest) :
    (own.foldl recoverOwn c).ownIntroduced.contains d = true ↔
      c.ownIntroduced.contains d = true ∨ ∃ v ∈ own, ∃ b ∈ v.batches, b.digest = d := by
  induction own generalizing c with
  | nil => simp
  | cons v own ih =>
    rw [foldl_cons, ih]
    have step : (c.recoverOwn v).ownIntroduced.contains d = true ↔ _ :=
      contains_insertAll v.round v.batches c.ownIntroduced d
    rw [step, exists_mem_cons_iff, or_assoc]

theorem past_continueSequences {c : Core} {d : Digest} {q : BatchPayload}
    (h : c.payloads.get? d = some q) : c.continueSequences.Past q := by
  by_cases mine : q.author = c.me
  · refine .inr ?_
    have mem : q.sequence + 1 ∈ (c.payloads.values.filter (fun p => p.author = c.me)).map
        (fun p => p.sequence + 1) := by
      refine mem_map.2 ⟨q, mem_filter.2 ⟨mem_values.2 ⟨d, h⟩, ?_⟩, rfl⟩
      exact decide_eq_true mine
    refine lt_of_lt_of_le (Nat.lt_succ_self _) ((le_max_right _ _).trans' ?_)
    cases hm : ((c.payloads.values.filter (fun p => p.author = c.me)).map
        (fun p => p.sequence + 1)).max? with
    | none =>
      rw [max?_eq_none_iff] at hm
      rw [hm] at mem
      cases mem
    | some m => exact (max?_eq_some_iff.1 hm).2 _ mem
  · exact .inl mine

theorem tidy_recoverOwns (inj : Injective BatchHash.batchDigest) {c : Core}
    (tracked : c.ownIntroduced = .empty) (events : c.events = []) (commits : c.commits = [])
    (segments : c.segments = []) (accepted : c.accepted = []) {old batches : List BatchPayload}
    (restored : Restored old c.payloads) {own : List Vertex}
    (known : ∀ v ∈ own, ∀ b ∈ v.batches, ∃ p ∈ old ++ batches, p.digest = b.digest) :
    (c.recoverOwns own batches).Owned := by
  let filled := (batches.foldl restorePayload c).continueSequences
  have payloads : Restored (old ++ batches) filled.payloads := restored_foldl inj batches old restored
  have rest : (c.recoverOwns own batches).unowned = filled.unowned := unowned_foldl_recoverOwn own filled
  simp only [unowned, Prod.mk.injEq] at rest
  obtain ⟨samePayloads, sameNext, sameEvents, sameCommits, sameSegments, sameJournal, sameMe⟩ := rest
  obtain ⟨ps, rounds, plain⟩ := foldl_restorePayload batches c
  have kept : filled.events = [] ∧ filled.commits = [] ∧ filled.segments = [] ∧
      filled.accepted = [] ∧ filled.ownIntroduced = .empty := by
    have unchanged : filled.events = c.events ∧ filled.commits = c.commits ∧
        filled.segments = c.segments ∧ filled.accepted = c.accepted ∧
        filled.ownIntroduced = c.ownIntroduced := by
      simp only [filled, plain]
      exact ⟨rfl, rfl, rfl, rfl, rfl⟩
    rw [events, commits, segments, accepted, tracked] at unchanged
    exact unchanged
  have past : ∀ d q, filled.payloads.get? d = some q → (c.recoverOwns own batches).Past q := by
    intro d q hq
    unfold Past
    rw [sameMe, sameNext]
    exact past_continueSequences hq
  have none : (c.recoverOwns own batches).accepted = [] := by
    unfold Core.accepted
    rw [sameJournal]
    exact kept.2.2.2.1
  refine owned_of_tidy ⟨?_, ?_, ?_, ?_, ?_, ?_, ?_⟩ none
  · intro b hb
    unfold recoverOwns recoverUnintroduced at hb
    simp only [mem_insertionSort, mem_map, mem_filter] at hb
    obtain ⟨⟨d, q⟩, ⟨mem, -⟩, rfl⟩ := hb
    have held := mem_entries.1 mem
    rw [show (own.foldl recoverOwn filled).payloads = filled.payloads from samePayloads] at held
    exact ⟨q, rfl, past d q held⟩
  · intro d hd
    cases (introduced_foldl_recoverOwn own filled d).1 hd with
    | inl no =>
      rw [kept.2.2.2.2] at no
      cases no
    | inr some =>
      obtain ⟨v, hv, b, hb, rfl⟩ := some
      obtain ⟨p, hp, digest⟩ := known v hv b hb
      exact ⟨p, digest, past _ p (payloads.held p hp)⟩
  · unfold returned
    rw [sameEvents, kept.1]
    exact forall_mem_nil _
  · rw [samePayloads]
    exact payloads.keyed
  · rw [sameCommits, kept.2.1]
    exact forall_mem_nil _
  · rw [sameSegments, kept.2.2.1]
    exact forall_mem_nil _
  · rw [none]
    exact forall_mem_nil _

/-- A call that hears nothing. -/
def quietEnv : Env := ⟨fun _ _ => False, False, False⟩

theorem owned_moves (inj : Injective BatchHash.batchDigest) {e : Env} (live : ¬ e.recovering)
    {c c' : Core} (moves : Moves e c c') (h : c.Owned) : c'.Owned :=
  moves.keeps (fun _ _ move old => owned_move inj move live old) h

theorem owned_foldl {α : Type} {f : Core → α → Core} (step : ∀ c x, Keeps c (f c x)) (l : List α)
    {c : Core} (h : c.Owned) : (l.foldl f c).Owned := by
  induction l generalizing c with
  | nil => exact h
  | cons x l ih => exact ih ((step c x).owned h)

theorem owned_recoverRounds (inj : Injective BatchHash.batchDigest) (delivered : List Vertex)
    (rounds : List ℕ) (signals : List Signal) {c : Core} (live : c.resuming = none) (h : c.Owned) :
    (recoverRounds delivered rounds signals c).Owned := by
  have signal : ∀ (c : Core) (s : Signal), Keeps c (c.recoverSignal s) :=
    fun c s => .of_owning rfl id rfl
  have vertex : ∀ (c : Core) (v : Vertex), Keeps c (c.recoverDelivered v) :=
    fun c v => .of_owning rfl id rfl
  induction rounds generalizing signals c with
  | nil => exact owned_foldl signal _ h
  | cons r rounds ih =>
    unfold recoverRounds
    have sent : Moves recoverEnv c ((signals.takeWhile (fun s => s.round ≤ r)).foldl
        recoverSignal c) := moves_foldl (fun c s _ => moves_recoverSignal c s) c
    have filled := sent.trans (moves_foldl (fun c v (_ : v ∈ delivered.filter
      (fun v => v.round = r)) => moves_recoverDelivered c v) _)
    have live' := Moves.resuming filled live
    have owned := owned_foldl vertex (delivered.filter (fun v => v.round = r))
      (owned_foldl signal (signals.takeWhile (fun s => s.round ≤ r)) h)
    have committed : Moves quietEnv _ _ := moves_tryCommit live'
    exact ih _ (committed.resuming live') (owned_moves inj not_false committed owned)

theorem keeps_sendAll (c : Core) (ms : List (Target × Message)) : Keeps c (c.sendAll ms) :=
  .of_owning rfl id rfl

theorem owned_endReplay {c : Core} (h : c.Tidy) (nowMs : ℕ) : (c.endReplay nowMs).Owned := by
  refine owned_of_tidy ?_ rfl
  exact ⟨h.unintroduced, h.introduced, h.returned, h.payloads, h.notes, h.segments,
    forall_mem_nil _⟩

theorem owned_recover (inj : Injective BatchHash.batchDigest) (cfg : CoreConfig)
    (committee : Committee) (me : ValidatorIndex) (start : EpochStart) {records : List Record}
    (journalled : Journalled records) (executedThrough nowMs : ℕ) :
    (recover cfg committee me start records executedThrough nowMs).Owned := by
  let base := recoverBase cfg committee me start records executedThrough nowMs
  have restored : Restored (batchesOf (splitResumed records).1) base.payloads ∧
      base.ownIntroduced = .empty ∧ base.events = [] ∧ base.commits = [] ∧ base.segments = [] ∧
      base.accepted = [] := by
    have empty : Restored [] (SortedMap.empty : SortedMap Digest BatchPayload) :=
      ⟨fun d q hq => (nomatch hq), forall_mem_nil _⟩
    have payloads := restored_foldl inj (batchesOf (splitResumed records).1) [] (c :=
      { Core.new cfg committee me start with executedThrough := executedThrough }) empty
    simp only [base, recoverBase, recoverResumed]
    cases hs : (splitResumed records).2.1 with
    | none =>
      cases splitResumed_cases records with
      | inl whole =>
        rw [whole]
        exact ⟨empty, rfl, rfl, rfl, rfl, rfl⟩
      | inr some =>
        obtain ⟨cert, state, found, -⟩ := some
        rw [hs] at found
        cases found
    | some resumed =>
      obtain ⟨ps, rounds, plain⟩ := foldl_restorePayload (batchesOf (splitResumed records).1)
        { Core.new cfg committee me start with executedThrough := executedThrough }
      dsimp only
      refine ⟨payloads, ?_⟩
      rw [plain]
      exact ⟨rfl, rfl, rfl, rfl, rfl⟩
  obtain ⟨payloads, tracked, events, commits, segments, accepted⟩ := restored
  have owned : (base.recoverOwns (sortedOwn (splitResumed records).2.2)
      (batchesOf (splitResumed records).2.2)).Owned := by
    refine tidy_recoverOwns inj tracked events commits segments accepted payloads ?_
    intro v hv b hb
    have own : v ∈ ownOf records := mem_ownOf_split ((mem_insertionSort _).1 hv)
    obtain ⟨p, hp, digest⟩ := journalled v own b hb
    exact ⟨p, mem_append.2 (mem_batchesOf_split hp), digest⟩
  have live : base.resuming = none :=
    resuming_recoverBase cfg committee me start records executedThrough nowMs
  have live' := Moves.resuming (moves_recoverOwns base (sortedOwn (splitResumed records).2.2)
    (batchesOf (splitResumed records).2.2)) live
  have replayed := owned_recoverRounds inj (sortedDelivered (splitResumed records).2.2)
    ((sortedDelivered (splitResumed records).2.2).map Vertex.round).dedup
    (sortedSignals (splitResumed records).2.2) live' owned
  have released := owned_moves inj (e := quietEnv) not_false (moves_releaseSegments _) replayed
  exact (keeps_sendAll _ _).owned (owned_endReplay released.tidy nowMs)

/-- A core from its construction on: new, waiting for an ordering state, or recovered from a
journal that holds the batches its own vertices introduce. -/
inductive Session : Core → Prop where
  | new (cfg : CoreConfig) (committee : Committee) (me : ValidatorIndex) (start : EpochStart) :
      Session (Core.new cfg committee me start)
  | resume (cfg : CoreConfig) (committee : Committee) (me : ValidatorIndex) (cert : Certificate)
      (sessions : List SessionCertificate) (ownRound : Option ℕ)
      (nextBatchSequence executedThrough lookahead : ℕ) :
      Session (Core.resume cfg committee me cert sessions ownRound nextBatchSequence
        executedThrough lookahead)
  | recover (cfg : CoreConfig) (committee : Committee) (me : ValidatorIndex) (start : EpochStart)
      (records : List Record) (executedThrough nowMs : ℕ) : Journalled records →
      Session (Core.recover cfg committee me start records executedThrough nowMs)
  | input {c : Core} (i : Input) : Session c → Session (c.input i)

theorem Session.owned (inj : Injective BatchHash.batchDigest) {c : Core} (h : Session c) :
    c.Owned := by
  induction h with
  | new =>
    exact owned_of_tidy (tidy_empty rfl rfl rfl rfl rfl rfl (fun d q hq => (nomatch hq))) rfl
  | resume =>
    exact owned_of_tidy (tidy_empty rfl rfl rfl rfl rfl rfl (fun d q hq => (nomatch hq))) rfl
  | recover cfg committee me start records executedThrough nowMs journalled =>
    exact owned_recover inj cfg committee me start journalled executedThrough nowMs
  | input i _ ih => exact owned_moves inj (not_recovering_env i) (moves_input _ i) ih

theorem Session.runInputs {c : Core} (h : Session c) (is : List Input) :
    Session (c.runInputs is) := by
  induction is generalizing c with
  | nil => exact h
  | cons i is ih => exact ih (h.input i)

end Core

end Tenzro

namespace Tenzro
open List

section Solo
attribute [local instance] soloHashing

end Solo

def fourCommittee : Committee where
  epoch := 0
  members := (range 4).map (fun i => ⟨i, i, 1, 1⟩)
  nonempty := by decide
  small := by decide
  distinctKeys := by decide
  distinctAddresses := by decide
  seated := by decide
  bounded := by decide

def forgedPayload : BatchPayload := BatchPayload.sealParts 0 0 0 [⟨1, [6]⟩]

def peerVertex (round source : ℕ) : Vertex where
  epoch := 0
  round := round
  source := source
  strong := if round = 0 then []
    else (range' 1 3).map (fun s => ⟨round - 1, s, 3 * (round - 1) + s - 1⟩)
  weak := []
  batches := []
  carried := if round = 1 ∧ source = 1 then [⟨0, ⟨0, 1, 5, 1⟩⟩] else []
  timestampMs := 1

def peerVertices : List Vertex :=
  (range 5).flatMap (fun r => (range' 1 3).map (peerVertex r))

def emptyVertex : Vertex := ⟨0, 0, 0, [], [], [], [], u64Max⟩

local instance fourHashing : Hashing :=
  namedHashing (peerVertices ++ [emptyVertex]) [soloPayload, forgedPayload]

/-- The others' vertices and their readies reach a validator that has a batch to introduce. -/
def forgedInputs : List Input :=
  [Input.start 1, .peerUp 1 1, .peerUp 2 1, .peerUp 3 1, .submit soloPart] ++
    (range' 1 3).map (fun s =>
      Input.messages s ((peerVertices.filter (fun v => v.source = s)).map Message.propose) 1) ++
    (range' 1 3).map (fun s =>
      Input.messages s
        [.signals (peerVertices.map (fun v => ⟨.ready, v.round, v.source, v.digest⟩))] 1)

def forgedCore : Core := (Core.new soloConfig fourCommittee 0 soloStart).runInputs forgedInputs

theorem forged_away : soloPayload ∈ forgedCore.accepted ∧
    soloPayload.reference ∉ forgedCore.ownUnintroduced ∧
    ¬ forgedCore.ownIntroduced.contains soloPayload.digest = true ∧
    (∀ s ∈ forgedCore.segments, ∀ b ∈ s.batches, ¬ Core.Names forgedCore.me soloPayload b) ∧
    Event.unordered soloPayload ∉ forgedCore.events := by decide +kernel

end Tenzro
