import Tenzro.CheckpointChain

set_option autoImplicit false
set_option linter.dupNamespace false
set_option linter.unusedSectionVars false

/-!
# An epoch is completed once

Only a certificate that arrives after the handover index is known completes the
epoch.
-/
namespace Tenzro
open List Function
variable [Hashing]

namespace Core

def Event.isComplete : Event → Bool
  | .epochComplete _ => true
  | _ => false

def completions (c : Core) : List Event := c.events.filter Event.isComplete

def Knows (c : Core) (k : ℕ) : Prop :=
  (c.epochClosed = true ∧ c.handoverIndex = k) ∨
    (c.certifiedHandoverIndex = k ∧ c.certifiedHandoverIndex ≠ u64Max)

/-- The index `k` was known before its certificate was held, each later word of it is the
same, no certificate is past it, and the core was not installed from it. -/
structure Smooth (k : ℕ) (c : Core) : Prop where
  index : k < u64Max
  first : ∀ n ∈ c.handovers.head?, n.2 = false
  same : ∀ n ∈ c.handovers, n.1 = k
  last : ∀ i, c.certificates.contains i = true → i ≤ k
  installed : ∀ x ∈ c.installed, x.1.checkpoint.index ≠ k

structure Handed (k : ℕ) (c : Core) : Prop where
  unknown : c.handovers = [] → c.certifiedHandoverIndex = u64Max ∧ c.epochClosed = false ∧
    c.completions.length = 0
  known : c.handovers ≠ [] → (c.epochClosed = true ∨ c.certifiedHandoverIndex = k) ∧
    c.completions.length = if c.certificates.contains k then 1 else 0
  closed : c.handoverIndex = if c.epochClosed then k else u64Max
  certified : c.certifiedHandoverIndex = k ∨ c.certifiedHandoverIndex = u64Max

/-- What the handover is decided by. -/
def handing (c : Core) : SortedMap ℕ Certificate × Bool × ℕ × ℕ × List (ℕ × Bool) × List Event ×
    Option (Certificate × OrderingState) :=
  (c.certificates, c.epochClosed, c.handoverIndex, c.certifiedHandoverIndex, c.handovers,
    c.completions, c.installed)

section Frame
variable {k : ℕ} {c c' : Core} (same : c'.handing = c.handing)
include same

theorem Smooth.of_handing (h : c.Smooth k) : c'.Smooth k := by
  have certificates : c'.certificates = c.certificates := congrArg (fun x => x.1) same
  have handovers : c'.handovers = c.handovers := congrArg (fun x => x.2.2.2.2.1) same
  have installed : c'.installed = c.installed := congrArg (fun x => x.2.2.2.2.2.2) same
  refine ⟨h.index, ?_, ?_, ?_, ?_⟩
  · rw [handovers]
    exact h.first
  · rw [handovers]
    exact h.same
  · rw [certificates]
    exact h.last
  · rw [installed]
    exact h.installed

theorem Handed.of_handing (h : c.Handed k) : c'.Handed k := by
  have certificates : c'.certificates = c.certificates := congrArg (fun x => x.1) same
  have shut : c'.epochClosed = c.epochClosed := congrArg (fun x => x.2.1) same
  have index : c'.handoverIndex = c.handoverIndex := congrArg (fun x => x.2.2.1) same
  have certified : c'.certifiedHandoverIndex = c.certifiedHandoverIndex :=
    congrArg (fun x => x.2.2.2.1) same
  have handovers : c'.handovers = c.handovers := congrArg (fun x => x.2.2.2.2.1) same
  have completions : c'.completions = c.completions := congrArg (fun x => x.2.2.2.2.2.1) same
  refine ⟨?_, ?_, ?_, ?_⟩
  · rw [handovers, certified, shut, completions]
    exact h.unknown
  · rw [handovers, certified, shut, completions, certificates]
    exact h.known
  · rw [index, shut]
    exact h.closed
  · rw [certified]
    exact h.certified

end Frame

theorem exists_keepLast {υ : Type} {n : ℕ} (pos : 0 < n) {m : SortedMap ℕ υ} {i : ℕ}
    (h : m.contains i = true) : ∃ j, i ≤ j ∧ (keepLast n m).contains j = true := by
  have mem : i ∈ m.keys := SortedMap.mem_keys.2 (SortedMap.contains_eq_true.1 h)
  have some' : m.keys ≠ [] := ne_nil_of_mem mem
  have length : m.keys.length = m.size := length_map _
  have rest : m.keys.drop (m.size - n) ≠ [] := by
    have := length_pos_iff.2 some'
    rw [← length_pos_iff, length_drop]
    omega
  have kept : m.keys.getLast some' ∈ m.keys.drop (m.size - n) := by
    rw [← getLast_drop rest]
    exact getLast_mem rest
  refine ⟨m.keys.getLast some', ?_, ?_⟩
  · have sorted := m.keys_sorted
    rw [← dropLast_append_getLast some'] at mem sorted
    cases mem_append.1 mem with
    | inl before =>
      exact ((pairwise_append.1 sorted).2.2 i before _ mem_cons_self).le
    | inr here => exact (mem_singleton.1 here).le
  · obtain ⟨x, hx⟩ := SortedMap.mem_keys.1 (getLast_mem some')
    refine SortedMap.contains_eq_true.2 ⟨x, SortedMap.get?_filter_eq_some.2 ⟨hx, ?_⟩⟩
    exact contains_iff_mem.2 kept

theorem contains_keepLast {υ : Type} {n : ℕ} {m : SortedMap ℕ υ} {i : ℕ}
    (h : (keepLast n m).contains i = true) : m.contains i = true := by
  obtain ⟨x, hx⟩ := SortedMap.contains_eq_true.1 h
  exact SortedMap.contains_eq_true.2 ⟨x, (SortedMap.get?_filter_eq_some.1 hx).1⟩

theorem keepLast_max {υ : Type} {n : ℕ} (pos : 0 < n) {m : SortedMap ℕ υ} {i : ℕ}
    (h : m.contains i = true) (top : ∀ j, (keepLast n m).contains j = true → j ≤ i) :
    (keepLast n m).contains i = true := by
  obtain ⟨j, le, hj⟩ := exists_keepLast pos h
  exact le_antisymm le (top j hj) ▸ hj

theorem certificatesKept_pos : 0 < certificatesKept := by
  unfold certificatesKept
  decide

def closes (c : Core) (cert : Certificate) : Bool :=
  cert.checkpoint.nextCommitteeRoot.isSome && !c.epochClosed

def handoverOf (c : Core) (cert : Certificate) : ℕ :=
  cert.checkpoint.index + c.cfg.handoverConfirmations

theorem completions_append (c : Core) {es : List Event} (none : es.filter Event.isComplete = []) :
    { c with events := c.events ++ es }.completions = c.completions := by
  simp only [completions, filter_append, none, append_nil]

theorem filter_isComplete_unordered (ps : List BatchPayload) :
    (ps.map Event.unordered).filter Event.isComplete = [] := by
  simp [filter_map, comp_def, Event.isComplete]

theorem completions_completeEpoch (c : Core) (cert : Certificate) :
    (c.completeEpoch cert).completions = c.completions ++ [.epochComplete cert] := by
  simp only [completions, completeEpoch, filter_append, filter_isComplete_unordered,
    append_nil]
  rfl

/-- What a certificate not held yet does to the handover. -/
structure Certifies (c c' : Core) (cert : Certificate) : Prop where
  handovers : c'.handovers = if c.closes cert
    then c.handovers ++ [(c.handoverOf cert, c.certificates.contains (c.handoverOf cert))]
    else c.handovers
  certified : c'.certifiedHandoverIndex = if c.closes cert then c.handoverOf cert
    else c.certifiedHandoverIndex
  certificates : c'.certificates =
    keepLast certificatesKept (c.certificates.insert cert.checkpoint.index cert)
  completions : c'.completions = if cert.checkpoint.index = c.handoverIndex ∨
      cert.checkpoint.index = c'.certifiedHandoverIndex
    then c.completions ++ [.epochComplete cert] else c.completions
  epochClosed : c'.epochClosed = c.epochClosed
  handoverIndex : c'.handoverIndex = c.handoverIndex
  installed : c'.installed = c.installed

theorem onCertified_cases (c : Core) (cert : Certificate) :
    c.onCertified cert = c ∨ (c.certificates.contains cert.checkpoint.index = false ∧
      Certifies c (c.onCertified cert) cert) := by
  unfold onCertified
  dsimp only
  by_cases held : c.certificates.contains cert.checkpoint.index = true
  · exact .inl (if_pos held)
  · rw [if_neg held]
    refine .inr ⟨Bool.eq_false_iff.2 held, ?_⟩
    have known : (cert.checkpoint.nextCommitteeRoot.isSome && !c.epochClosed) = c.closes cert := rfl
    have index : cert.checkpoint.index + c.cfg.handoverConfirmations = c.handoverOf cert := rfl
    rw [known, index]
    by_cases complete : cert.checkpoint.index = c.handoverIndex ∨ cert.checkpoint.index =
        if c.closes cert then c.handoverOf cert else c.certifiedHandoverIndex
    · rw [if_pos complete]
      refine ⟨rfl, rfl, rfl, ?_, rfl, rfl, rfl⟩
      rw [completions_completeEpoch]
      exact (if_pos complete).symm
    · rw [if_neg complete]
      refine ⟨rfl, rfl, rfl, ?_, rfl, rfl, rfl⟩
      have none : [Event.certified cert].filter Event.isComplete = [] := rfl
      refine Eq.trans ?_ (if_neg complete).symm
      exact completions_append _ none

section Certified
variable {k : ℕ} {c c' : Core} {cert : Certificate} (step : Certifies c c' cert)
include step

theorem Certifies.prefix_handovers : c.handovers <+: c'.handovers := by
  rw [step.handovers]
  split_ifs
  · exact prefix_append ..
  · exact prefix_rfl

theorem Certifies.contains_le {i : ℕ} (h : c.certificates.contains i = true) :
    ∃ j, i ≤ j ∧ c'.certificates.contains j = true := by
  rw [step.certificates]
  refine exists_keepLast certificatesKept_pos ?_
  rw [SortedMap.contains_insert, h, Bool.or_true]

theorem Certifies.contains_self (last : ∀ i, c'.certificates.contains i = true → i ≤ k) :
    cert.checkpoint.index ≤ k := by
  have here : (c.certificates.insert cert.checkpoint.index cert).contains cert.checkpoint.index =
      true := by
    rw [SortedMap.contains_insert, decide_eq_true rfl, Bool.true_or]
  obtain ⟨j, le, hj⟩ := exists_keepLast certificatesKept_pos here
  exact le.trans (last j (step.certificates ▸ hj))

theorem Certifies.contains_top (last : ∀ i, c'.certificates.contains i = true → i ≤ k) :
    c'.certificates.contains k = (decide (cert.checkpoint.index = k) || c.certificates.contains k) := by
  rw [Bool.eq_iff_iff]
  constructor
  · intro h
    rw [step.certificates] at h
    have := contains_keepLast h
    rw [SortedMap.contains_insert] at this
    rw [← this]
    simp [eq_comm]
  · intro h
    rw [step.certificates] at last ⊢
    refine keepLast_max certificatesKept_pos ?_ last
    rw [SortedMap.contains_insert, ← h]
    simp [eq_comm]

end Certified

theorem Smooth.before {k : ℕ} {c c' : Core} (h : c'.Smooth k) (handovers : c.handovers <+: c'.handovers)
    (certificates : ∀ i, c.certificates.contains i = true →
      ∃ j, i ≤ j ∧ c'.certificates.contains j = true)
    (installed : ∀ x ∈ c.installed, x.1.checkpoint.index ≠ k) : c.Smooth k where
  index := h.index
  first := by
    intro n hn
    refine h.first n ?_
    obtain ⟨rest, eq⟩ := handovers
    cases hc : c.handovers with
    | nil => rw [hc] at hn; cases hn
    | cons a l =>
      rw [hc] at hn eq
      rw [← eq]
      exact hn
  same := fun n hn => h.same n (handovers.subset hn)
  last := by
    intro i hi
    obtain ⟨j, le, hj⟩ := certificates i hi
    exact le.trans (h.last j hj)
  installed := installed

theorem handed_certifies {k : ℕ} {c c' : Core} {cert : Certificate}
    (new : c.certificates.contains cert.checkpoint.index = false) (step : Certifies c c' cert)
    (smooth : c'.Smooth k) (h : c.Handed k) : c'.Handed k := by
  have low := step.contains_self smooth.last
  have index := smooth.index
  have held := step.contains_top smooth.last
  -- The index a closing certificate names is the one every note names.
  have named : c.closes cert = true → c.handoverOf cert = k := by
    intro closing
    refine smooth.same (c.handoverOf cert, c.certificates.contains (c.handoverOf cert)) ?_
    rw [step.handovers, if_pos closing]
    exact mem_append_right _ mem_cons_self
  have certified : c'.certifiedHandoverIndex = k ∨ c'.certifiedHandoverIndex = u64Max := by
    rw [step.certified]
    split_ifs with closing
    · exact .inl (named closing)
    · exact h.certified
  refine ⟨?_, ?_, ?_, certified⟩
  · intro none
    have open' : c.closes cert ≠ true := by
      intro closing
      rw [step.handovers, if_pos closing] at none
      exact append_ne_nil_of_right_ne_nil _ (cons_ne_nil _ _) none
    rw [step.handovers, if_neg open'] at none
    obtain ⟨unset, running, zero⟩ := h.unknown none
    have index' : c.handoverIndex = u64Max := by rw [h.closed, running]; rfl
    refine ⟨by rw [step.certified, if_neg open', unset], by rw [step.epochClosed, running], ?_⟩
    rw [step.completions, step.certified, if_neg open', unset, index', if_neg (by omega), zero]
  · intro some
    have aware : c'.epochClosed = true ∨ c'.certifiedHandoverIndex = k := by
      rw [step.certified, step.epochClosed]
      split_ifs with closing
      · exact .inr (named closing)
      · rw [step.handovers, if_neg closing] at some
        exact (h.known some).1
    -- The certificate completes the epoch exactly if it is the handover's.
    have completes : (cert.checkpoint.index = c.handoverIndex ∨
        cert.checkpoint.index = c'.certifiedHandoverIndex) ↔ cert.checkpoint.index = k := by
      constructor
      · rintro (own | told)
        · rw [h.closed] at own
          split_ifs at own
          · exact own
          · omega
        · cases certified with
          | inl here => exact told.trans here
          | inr unset => omega
      · intro here
        cases aware with
        | inl shut =>
          rw [step.epochClosed] at shut
          rw [h.closed, shut]
          exact .inl here
        | inr told => exact .inr (here.trans told.symm)
    refine ⟨aware, ?_⟩
    have count : c.completions.length = if c.certificates.contains k ∧ c.handovers ≠ [] then 1 else 0 := by
      by_cases none : c.handovers = []
      · rw [(h.unknown none).2.2, if_neg (fun both => both.2 none)]
      · rw [(h.known none).2]
        simp [none]
    rw [step.completions, held]
    simp only [completes]
    by_cases here : cert.checkpoint.index = k
    · rw [here] at new
      rw [if_pos here, length_append, count, if_neg (by rw [new]; simp), here]
      simp
    · rw [if_neg here, count, decide_eq_false here, Bool.false_or]
      by_cases none : c.handovers = []
      · -- The first word of the handover came with no certificate for it held.
        have closing : c.closes cert = true := by
          by_contra open'
          rw [step.handovers, if_neg open'] at some
          exact some none
        have first := smooth.first (c.handoverOf cert, c.certificates.contains (c.handoverOf cert))
          (by rw [step.handovers, if_pos closing, none]; rfl)
        rw [named closing] at first
        dsimp only at first
        simp [first]
      · simp [none]
  · rw [step.handoverIndex, step.epochClosed]
    exact h.closed

theorem handed_onCertified {k : ℕ} {c : Core} {cert : Certificate}
    (smooth : (c.onCertified cert).Smooth k) (fresh : ∀ x ∈ c.installed, x.1.checkpoint.index ≠ k)
    (h : c.Smooth k → c.Handed k) : (c.onCertified cert).Handed k := by
  cases onCertified_cases c cert with
  | inl same =>
    rw [same] at smooth ⊢
    exact h smooth
  | inr step =>
    obtain ⟨new, step⟩ := step
    refine handed_certifies new step smooth (h ?_)
    exact smooth.before step.prefix_handovers (fun i => step.contains_le) fresh

theorem Handed.none_of_open {k : ℕ} {c : Core} (index : k < u64Max) (h : c.Handed k)
    (running : c.epochClosed = false) (unset : c.certifiedHandoverIndex = u64Max) :
    c.handovers = [] := by
  by_contra some
  cases (h.known some).1 with
  | inl shut =>
    rw [running] at shut
    cases shut
  | inr told =>
    rw [unset] at told
    omega

theorem handing_settle (c : Core) (anchor : VertexRef) :
    (c.settle anchor).handing = c.handing := by
  have completions : (c.settle anchor).completions = c.completions := by
    simp only [completions, settle, settleBatches, returnSkipped, filter_append]
    simp [filter_map, comp_def, Event.isComplete, orderHistory]
  simp only [handing, completions]
  simp [settle, settleBatches, returnSkipped, orderHistory]

theorem handing_collectGarbage (c : Core) (r : ℕ) : (c.collectGarbage r).handing = c.handing := by
  unfold collectGarbage
  split_ifs <;> rfl

theorem handing_sealLast (c : Core) : c.sealLast.handing = c.handing := by
  unfold sealLast
  split
  · rfl
  · split_ifs <;> rfl

theorem handing_buildOne (c : Core) (pc : PendingCheckpoint) (rest : List PendingCheckpoint) :
    (c.buildOne pc rest).handing = c.handing := by
  have none : [Event.sign (c.checkpointBody pc)].filter Event.isComplete = [] := rfl
  have completions : (c.buildOne pc rest).completions = c.completions := completions_append c none
  simp only [handing, completions]
  rfl

def HandedAt (k : ℕ) (c : Core) : Prop := c.Smooth k → c.Handed k

theorem HandedAt.of_handing {k : ℕ} {c c' : Core} (h : c.HandedAt k)
    (same : c'.handing = c.handing) : c'.HandedAt k :=
  fun smooth => (h (smooth.of_handing same.symm)).of_handing same

theorem handedAt_takeCheckpoint {k : ℕ} {c : Core} (h : c.HandedAt k) (anchor : VertexRef) (t : ℕ) :
    (c.takeCheckpoint anchor t).HandedAt k := by
  unfold takeCheckpoint
  dsimp only
  split_ifs with closing
  · intro smooth
    have before : c.Smooth k := by
      refine smooth.before (prefix_append ..) (fun i hi => ⟨i, le_refl i, hi⟩) ?_
      exact smooth.installed
    have handed := h before
    have named : c.nextCheckpointIndex + c.cfg.handoverConfirmations = k :=
      smooth.same (_, c.certificates.contains _) (mem_append_right _ mem_cons_self)
    refine ⟨?_, ?_, ?_, handed.certified⟩
    · intro none
      exact absurd none (append_ne_nil_of_right_ne_nil _ (cons_ne_nil _ _))
    · intro _
      refine ⟨.inl rfl, ?_⟩
      by_cases none : c.handovers = []
      · have first := smooth.first (c.nextCheckpointIndex + c.cfg.handoverConfirmations,
          c.certificates.contains (c.nextCheckpointIndex + c.cfg.handoverConfirmations))
          (by simp [decideCheckpoint, none])
        rw [named] at first
        have empty : c.certificates.contains k = false := first
        have zero := (handed.unknown none).2.2
        have count : c.completions.length = if c.certificates.contains k then 1 else 0 := by
          rw [zero, empty]
          rfl
        exact count
      · exact (handed.known none).2
    · exact named
  · exact h.of_handing rfl
  · exact h

theorem handedAt_turn {k : ℕ} {c : Core} (running : c.halted = false) (h : c.HandedAt k) :
    (c.askOpen.applyDecisions c.decideSlots).1.HandedAt k := by
  refine turn_keeps ?_ ?_ ?_ ?_ running h
  · exact fun c r h => h.of_handing rfl
  · exact fun c slot h => h.of_handing rfl
  · intro c slot anchor _ h
    have taken : (c.takeSlot slot (some anchor)).HandedAt k := h.of_handing rfl
    have settled := taken.of_handing (handing_settle (c.takeSlot slot (some anchor)) anchor)
    have segmented : ((c.takeSlot slot (some anchor)).makeSegments anchor).HandedAt k :=
      settled.of_handing rfl
    have decided := handedAt_takeCheckpoint segmented anchor
      (((c.takeSlot slot (some anchor)).settle anchor).segmentTimestamp anchor)
    have collected := decided.of_handing (handing_collectGarbage _ anchor.round)
    exact collected.of_handing (handing_sealLast _)
  · exact fun c pc rest _ _ h => h.of_handing (handing_buildOne c pc rest)

def Open (s : OrderingState) : Prop := s.epochClosed = false → s.handoverIndex = u64Max

theorem handedAt_install {k : ℕ} {c : Core} (h : c.HandedAt k) (fresh : c.installed = none)
    (running : c.epochClosed = false) (cert : Certificate) {state : OrderingState}
    (lawful : Open state) (ownRound : Option ℕ) (nowMs : ℕ) :
    (c.install cert state ownRound nowMs).HandedAt k := by
  intro smooth
  have other : cert.checkpoint.index ≠ k := smooth.installed (cert, state) rfl
  have held : (c.certificates.insert cert.checkpoint.index cert).contains k =
      c.certificates.contains k := by
    rw [SortedMap.contains_insert, decide_eq_false (Ne.symm other), Bool.false_or]
  have notes : (c.install cert state ownRound nowMs).handovers = if state.epochClosed
      then c.handovers ++ [(state.handoverIndex,
        (c.certificates.insert cert.checkpoint.index cert).contains state.handoverIndex)]
      else c.handovers := rfl
  have before : c.Smooth k := by
    refine smooth.before ?_ ?_ ?_
    · rw [notes]
      split_ifs
      · exact prefix_append ..
      · exact prefix_rfl
    · intro i hi
      refine ⟨i, le_refl i, ?_⟩
      have : (c.certificates.insert cert.checkpoint.index cert).contains i = true := by
        rw [SortedMap.contains_insert, hi, Bool.or_true]
      exact this
    · rw [fresh]
      exact fun x hx => nomatch hx
  have handed := h before
  have count : (c.install cert state ownRound nowMs).completions = c.completions := rfl
  have kept : (c.install cert state ownRound nowMs).certificates.contains k =
    c.certificates.contains k := held
  cases hs : state.epochClosed with
  | false =>
    rw [hs] at notes
    have same : (c.install cert state ownRound nowMs).handovers = c.handovers := notes
    refine ⟨?_, ?_, ?_, handed.certified⟩
    · rw [same, count]
      exact fun none => ⟨(handed.unknown none).1, hs, (handed.unknown none).2.2⟩
    · rw [same, count, kept]
      intro some
      refine ⟨.inr ?_, (handed.known some).2⟩
      cases (handed.known some).1 with
      | inl shut =>
        rw [running] at shut
        cases shut
      | inr told => exact told
    · have index : (c.install cert state ownRound nowMs).handoverIndex = state.handoverIndex := rfl
      have shut : (c.install cert state ownRound nowMs).epochClosed = state.epochClosed := rfl
      rw [index, shut, lawful hs, hs]
      rfl
  | true =>
    rw [hs, if_pos rfl] at notes
    have named : state.handoverIndex = k := by
      refine smooth.same (state.handoverIndex,
        (c.certificates.insert cert.checkpoint.index cert).contains state.handoverIndex) ?_
      rw [notes]
      exact mem_append_right _ mem_cons_self
    refine ⟨?_, ?_, ?_, handed.certified⟩
    · rw [notes]
      exact fun none => absurd none (append_ne_nil_of_right_ne_nil _ (cons_ne_nil _ _))
    · intro _
      refine ⟨.inl hs, ?_⟩
      rw [count, kept]
      by_cases none : c.handovers = []
      · have first := smooth.first (state.handoverIndex,
          (c.certificates.insert cert.checkpoint.index cert).contains state.handoverIndex)
          (by rw [notes, none]; rfl)
        rw [named, held] at first
        dsimp only at first
        rw [(handed.unknown none).2.2, first]
        rfl
      · exact (handed.known none).2
    · have index : (c.install cert state ownRound nowMs).handoverIndex = state.handoverIndex := rfl
      have shut : (c.install cert state ownRound nowMs).epochClosed = state.epochClosed := rfl
      rw [index, shut, named, hs]
      rfl

/-- An open epoch has no handover, in the core and in what it seals. -/
structure Shut (c : Core) : Prop where
  shut : c.epochClosed = false → c.handoverIndex = u64Max
  seals : ∀ s ∈ c.sealedStates, Open s

theorem shut_commitOpen {c : Core} (h : c.Shut) (anchor : VertexRef) : (c.commitOpen anchor).Shut := by
  have segmented : (c.makeSegments anchor).Shut := ⟨h.shut, h.seals⟩
  have decided : ((c.makeSegments anchor).takeCheckpoint anchor
      ((c.settle anchor).segmentTimestamp anchor)).Shut := by
    unfold takeCheckpoint
    dsimp only
    split_ifs
    · exact ⟨fun no => (nomatch no), segmented.seals⟩
    · exact ⟨segmented.shut, segmented.seals⟩
    · exact segmented
  have collected : (((c.makeSegments anchor).takeCheckpoint anchor
      ((c.settle anchor).segmentTimestamp anchor)).collectGarbage anchor.round).Shut := by
    have carried := carried_collectGarbage ((c.makeSegments anchor).takeCheckpoint anchor
      ((c.settle anchor).segmentTimestamp anchor)) anchor.round
    refine ⟨?_, ?_⟩
    · rw [carried.epochClosed, carried.handoverIndex]
      exact decided.shut
    · rw [carried.sealedStates]
      exact decided.seals
  unfold commitOpen sealLast
  split
  · exact collected
  · split_ifs
    · exact collected
    · refine ⟨collected.shut, ?_⟩
      intro s hs
      cases mem_append.1 hs with
      | inl old => exact collected.seals s old
      | inr new =>
        cases mem_singleton.1 new
        exact collected.shut

theorem shut_turn {c : Core} (running : c.halted = false) (h : c.Shut) :
    (c.askOpen.applyDecisions c.decideSlots).1.Shut := by
  refine turn_keeps ?_ ?_ ?_ ?_ running h
  · exact fun c r h => ⟨h.shut, h.seals⟩
  · exact fun c slot h => ⟨h.shut, h.seals⟩
  · intro c slot anchor _ h
    have taken : (c.takeSlot slot (some anchor)).Shut := ⟨h.shut, h.seals⟩
    exact shut_commitOpen taken anchor
  · exact fun c pc rest _ _ h => ⟨h.shut, h.seals⟩

def Pending (c : Core) : Prop :=
  c.resuming.isSome = true → c.installed = none ∧ c.epochClosed = false

theorem shut_move {e : Env} {c c' : Core} (move : Move e c c')
    (open' : ¬ e.recovering → ∀ cert s, Record.resumed cert s ∈ c'.journal → Open s)
    (h : c.Shut ∧ c.Pending) : c'.Shut ∧ c'.Pending := by
  obtain ⟨⟨shut, seals⟩, pending⟩ := h
  cases move.order with
  | same same _ =>
    refine ⟨⟨?_, ?_⟩, ?_⟩
    · rw [same.epochClosed, same.handoverIndex]
      exact shut
    · rw [same.sealedStates]
      exact seals
    · unfold Pending
      rw [same.resuming, same.installed, same.epochClosed]
      exact pending
  | expect d r a _ eq => subst eq; exact ⟨⟨shut, seals⟩, pending⟩
  | offer v eq => subst eq; exact ⟨⟨shut, seals⟩, pending⟩
  | hold v eq => subst eq; exact ⟨⟨shut, seals⟩, pending⟩
  | ask r eq => subst eq; exact ⟨⟨shut, seals⟩, pending⟩
  | turn live running eq =>
    subst eq
    refine ⟨shut_turn running ⟨shut, seals⟩, ?_⟩
    unfold Pending
    rw [resuming_of_still (still_turn c), live]
    exact fun h => absurd h Bool.false_ne_true
  | install cert state ownRound nowMs live resuming _ eq =>
    subst eq
    have known := open' live cert state (mem_append_right _ mem_cons_self)
    exact ⟨⟨known, seals⟩, fun h => absurd h Bool.false_ne_true⟩

theorem handing_releaseFirst {c c' : Core} {w : Waiting} {rest : List Waiting}
    (h : c.releaseFirst w rest = some c') : c'.handing = c.handing := by
  have completions : c'.completions = c.completions := by
    cases w with
    | epochEnds last =>
      cases h
      exact completions_append c rfl
    | segment seg =>
      simp only [releaseFirst] at h
      split_ifs at h <;> cases h <;> exact completions_append c rfl
  simp only [handing, completions]
  cases w with
  | epochEnds last => cases h; rfl
  | segment seg =>
    simp only [releaseFirst] at h
    split_ifs at h <;> cases h <;> rfl

theorem handing_submitPart (c : Core) (part : BatchPart) :
    (c.submitPart part).handing = c.handing := by
  have completions : (c.submitPart part).completions = c.completions := by
    unfold submitPart
    dsimp only
    split_ifs
    · exact completions_append c rfl
    · rfl
  simp only [handing, completions]
  unfold submitPart
  dsimp only
  split_ifs <;> rfl

def told (c : Core) (index : ℕ) : Core :=
  { c with certifiedHandoverIndex := index, handovers := c.handovers ++ [(index, false)] }

theorem handed_told {k : ℕ} {c : Core} (h : c.HandedAt k) (running : c.epochClosed = false)
    (unset : c.certifiedHandoverIndex = u64Max) {index : ℕ} (smooth : (c.told index).Smooth k) :
    index = k ∧ c.handoverIndex = u64Max ∧ c.completions.length = 0 := by
  have before : c.Smooth k :=
    smooth.before (prefix_append ..) (fun i hi => ⟨i, le_refl i, hi⟩) smooth.installed
  have handed := h before
  have none := handed.none_of_open smooth.index running unset
  refine ⟨smooth.same (index, false) (mem_append_right _ mem_cons_self), ?_,
    (handed.unknown none).2.2⟩
  rw [handed.closed, running]
  rfl

theorem handedAt_told {k : ℕ} {c : Core} (h : c.HandedAt k) (running : c.epochClosed = false)
    (unset : c.certifiedHandoverIndex = u64Max) {index : ℕ}
    (absent : c.certificates.get? index = none) : (c.told index).HandedAt k := by
  intro smooth
  obtain ⟨rfl, handover, zero⟩ := handed_told h running unset smooth
  have missing : c.certificates.contains index = false := SortedMap.contains_eq_false.2 absent
  refine ⟨?_, ?_, ?_, .inl rfl⟩
  · exact fun none => absurd none (append_ne_nil_of_right_ne_nil _ (cons_ne_nil _ _))
  · intro _
    refine ⟨.inr rfl, ?_⟩
    have count : c.completions.length = if c.certificates.contains index then 1 else 0 := by
      rw [zero, missing]
      rfl
    exact count
  · have here : c.handoverIndex = if c.epochClosed then index else u64Max := by
      rw [handover, running]
      rfl
    exact here

theorem handedAt_toldHeld {k : ℕ} {c : Core} (h : c.HandedAt k) (running : c.epochClosed = false)
    (unset : c.certifiedHandoverIndex = u64Max) {index : ℕ} {held : Certificate}
    (have' : c.certificates.get? index = some held) :
    ((c.told index).completeEpoch held).HandedAt k := by
  intro smooth
  have before : (c.told index).Smooth k :=
    smooth.before prefix_rfl (fun i hi => ⟨i, le_refl i, hi⟩) smooth.installed
  obtain ⟨rfl, handover, zero⟩ := handed_told h running unset before
  refine ⟨?_, ?_, ?_, .inl rfl⟩
  · exact fun none => absurd none (append_ne_nil_of_right_ne_nil _ (cons_ne_nil _ _))
  · intro _
    refine ⟨.inr rfl, ?_⟩
    have one : (c.told index).completions = c.completions := rfl
    have kept : ((c.told index).completeEpoch held).certificates.contains index = true :=
      SortedMap.contains_eq_true.2 ⟨held, have'⟩
    rw [completions_completeEpoch, one, length_append, zero, kept]
    rfl
  · have here : c.handoverIndex = if c.epochClosed then index else u64Max := by
      rw [handover, running]
      rfl
    exact here

theorem handedAt_onCertified {k : ℕ} {c : Core} (h : c.HandedAt k) (cert : Certificate) :
    (c.onCertified cert).HandedAt k := by
  intro smooth
  have same := (sameOrder_onCertified c cert).1.installed
  refine handed_onCertified smooth ?_ h
  rw [← same]
  exact smooth.installed

theorem handedAt_move {k : ℕ} {e : Env} {c c' : Core} (move : Move e c c')
    (open' : ¬ e.recovering → ∀ cert s, Record.resumed cert s ∈ c'.journal → Open s)
    (pending : c.Pending) (h : c.HandedAt k) : c'.HandedAt k := by
  cases move with
  | turn _ running => exact handedAt_turn running h
  | install cert state ownRound nowMs live waiting _ =>
    obtain ⟨r, hr, -⟩ := waiting
    have known := open' live cert state (mem_append_right _ mem_cons_self)
    obtain ⟨fresh, running⟩ := pending (by rw [hr]; rfl)
    exact handedAt_install h fresh running cert known ownRound nowMs
  | release _ hr => exact h.of_handing (handing_releaseFirst hr)
  | submit part => exact h.of_handing (handing_submitPart c part)
  | build _ _ => exact h.of_handing (handing_buildOne c _ _)
  | evidence es =>
    have none : (es.map Event.equivocation).filter Event.isComplete = [] := by
      simp [filter_map, comp_def, Event.isComplete]
    refine h.of_handing ?_
    simp only [handing, completions_append c none]
  | disagree index =>
    have none : [Event.verifierDisagreement index].filter Event.isComplete = [] := rfl
    refine h.of_handing ?_
    have same := completions_append c none
    simp only [handing, completions, onDisagreement] at same ⊢
    rw [same]
  | certified cert => exact handedAt_onCertified h cert
  | adopt cert running unset absent =>
    exact handedAt_onCertified (handedAt_told h running unset absent) cert
  | adoptHeld running unset held => exact handedAt_toldHeld h running unset held
  | _ => exact h.of_handing rfl

theorem handed_fresh {k : ℕ} {c : Core} (none : c.handovers = [])
    (unset : c.certifiedHandoverIndex = u64Max) (running : c.epochClosed = false)
    (handover : c.handoverIndex = u64Max) (events : c.events = []) : c.Handed k := by
  refine ⟨?_, fun some => absurd none some, ?_, .inr unset⟩
  · intro _
    refine ⟨unset, running, ?_⟩
    unfold completions
    rw [events]
    rfl
  · rw [handover, running]
    rfl

theorem Run.handover {c : Core} (run : Run Open c) (k : ℕ) :
    (c.Shut ∧ c.Pending) ∧ c.HandedAt k := by
  refine run.keeps (P := fun c => (c.Shut ∧ c.Pending) ∧ c.HandedAt k) ?_ ?_ ?_ ?_ ?_
  · intro cfg committee me start
    exact ⟨⟨⟨fun _ => rfl, forall_mem_nil _⟩, fun no => absurd no Bool.false_ne_true⟩,
      fun _ => handed_fresh rfl rfl rfl rfl rfl⟩
  · intro cfg committee me start n
    exact ⟨⟨⟨fun _ => rfl, forall_mem_nil _⟩, fun no => absurd no Bool.false_ne_true⟩,
      fun _ => handed_fresh rfl rfl rfl rfl rfl⟩
  · intro cfg committee me start n payloads payloadRound cert state ownRound nowMs lawful
    refine ⟨⟨⟨lawful, forall_mem_nil _⟩, fun no => absurd no Bool.false_ne_true⟩, ?_⟩
    exact handedAt_install (fun _ => handed_fresh rfl rfl rfl rfl rfl) rfl rfl cert lawful ownRound
      nowMs
  · intro cfg committee me cert sessions ownRound n m k
    exact ⟨⟨⟨fun _ => rfl, forall_mem_nil _⟩, fun _ => ⟨rfl, rfl⟩⟩,
      fun _ => handed_fresh rfl rfl rfl rfl rfl⟩
  · rintro e c c' move lawful ⟨shut, handed⟩
    exact ⟨shut_move move lawful shut, handedAt_move move lawful shut.2 handed⟩

/-- A core that knows its handover index and holds the certificate for it has announced the end
of the epoch once, if the index was known before the certificate was held. -/
theorem epoch_completes_once {c : Core} (run : Grounded c) {k : ℕ} (smooth : c.Smooth k)
    (known : c.Knows k) (held : c.certificates.contains k = true) : c.completions.length = 1 := by
  have handed := ((run.run (fun _ run => (run.handover k).1.1.seals)).handover k).2 smooth
  by_cases none : c.handovers = []
  · obtain ⟨unset, running, -⟩ := handed.unknown none
    cases known with
    | inl own =>
      rw [running] at own
      cases own.1
    | inr told => exact absurd unset told.2
  · rw [(handed.known none).2, held]
    rfl

end Core

end Tenzro

namespace Tenzro

attribute [local instance] soloHashing

def soloSession : SessionCertificate := ⟨1, 0, 0, 0, 0, 0⟩

def soloCheckpoint (index : ℕ) (root : Option Digest) : Checkpoint where
  chainId := 1
  genesisHash := 0
  epoch := 0
  index := index
  prev := 0
  firstHeight := 1
  lastHeight := 0
  blocksRoot := 0
  stateHeight := 0
  stateRoot := 0
  statementRoot := 0
  nextCommitteeRoot := root
  anchorRound := 0
  timestampMs := 0
  orderingRoot := 0

def closingCertificate : Certificate := ⟨soloCheckpoint 1 (some 9), [0], [0], [0]⟩

def handoverCertificate : Certificate := ⟨soloCheckpoint 2 none, [0], [0], [0]⟩

def toldFirst : Core := (Core.new soloConfig soloCommittee 0 soloStart).runInputs
  [.adoptCertificate closingCertificate [soloSession],
    .adoptCertificate handoverCertificate [soloSession]]

/-- The core given the handover's certificate before it knows that it is the handover's. -/
def toldLast : Core := (Core.new soloConfig soloCommittee 0 soloStart).runInputs
  [.adoptCertificate handoverCertificate [soloSession],
    .adoptCertificate closingCertificate [soloSession]]

theorem toldLast_grounded : Core.Grounded toldLast :=
  (Core.Grounded.new soloConfig soloCommittee 0 soloStart).runInputs (by decide +kernel)

theorem epoch_completes_once_told : toldFirst.Smooth 2 ∧ toldFirst.Knows 2 ∧
    toldFirst.certificates.contains 2 = true ∧ toldFirst.completions.length = 1 :=
  have grounded : Core.Grounded toldFirst :=
    (Core.Grounded.new soloConfig soloCommittee 0 soloStart).runInputs (by decide +kernel)
  have fresh : toldFirst.installed.isNone = true := by decide +kernel
  have smooth : toldFirst.Smooth 2 :=
    { index := by decide +kernel
      first := by decide +kernel
      same := by decide +kernel
      last := by
        have keys : ∀ i ∈ toldFirst.certificates.keys, i ≤ 2 := by decide +kernel
        exact fun i hi => keys i (SortedMap.mem_keys.2 (SortedMap.contains_eq_true.1 hi))
      installed := by
        intro x hx
        rw [hx] at fresh
        cases fresh }
  have known : toldFirst.Knows 2 := .inr (by decide +kernel)
  have held : toldFirst.certificates.contains 2 = true := by decide +kernel
  ⟨smooth, known, held, Core.epoch_completes_once grounded smooth known held⟩

/-- A handover certificate held before its index is known never completes the epoch. -/
theorem epoch_left_incomplete : ¬ ∀ c : Core, Core.Grounded c →
    (∀ index, Event.verifierDisagreement index ∉ c.events) → ∀ k, c.Knows k →
    c.certificates.contains k = true → c.completions.length = 1 := by
  intro claim
  have agreed : ∀ index, Event.verifierDisagreement index ∉ toldLast.events := by
    intro index mem
    have none : toldLast.events.all (fun e => match e with
      | .verifierDisagreement _ => false
      | _ => true) = true := by decide +kernel
    exact absurd (List.all_eq_true.1 none _ mem) Bool.false_ne_true
  have once := claim toldLast toldLast_grounded agreed 2 (.inr (by decide +kernel))
    (by decide +kernel)
  have never : toldLast.completions.length = 0 := by decide +kernel
  omega

end Tenzro
