import Tenzro.ExactlyOnce

set_option autoImplicit false
set_option linter.dupNamespace false
set_option linter.unusedSectionVars false

/-!
# The checkpoints a core asks to sign form one chain

Deciding, executing and building run at different times, so the chain is kept
over what is signed followed by what is decided: building moves the border only.
-/
namespace Tenzro
open List Function

/-- What fixes a checkpoint's place in the chain. -/
structure Mark where
  index : ℕ
  firstHeight : ℕ
  lastHeight : ℕ
  timestampMs : ℕ
  ends : Bool

/-- Where the next checkpoint starts: its index, the last height and time before it. -/
structure Tip where
  index : ℕ
  height : ℕ
  timestampMs : ℕ

namespace Mark

def tip (m : Mark) : Tip := ⟨m.index + 1, m.lastHeight, m.timestampMs⟩

/-- The checkpoint starts at the tip, and is due unless it ends the epoch. -/
structure Follows (interval : ℕ) (t : Tip) (m : Mark) : Prop where
  index : m.index = t.index
  first : m.firstHeight = t.height + 1
  last : t.height ≤ m.lastHeight
  time : t.timestampMs ≤ m.timestampMs
  due : m.ends = true ∨ satAdd t.timestampMs interval ≤ m.timestampMs

def Linked (interval : ℕ) : Tip → List Mark → Tip → Prop
  | t, [], u => t = u
  | t, m :: l, u => m.Follows interval t ∧ Linked interval m.tip l u

variable {interval : ℕ}

theorem linked_append {t u : Tip} {l r : List Mark} :
    Linked interval t (l ++ r) u ↔ ∃ v, Linked interval t l v ∧ Linked interval v r u := by
  induction l generalizing t with
  | nil => exact ⟨fun h => ⟨t, rfl, h⟩, fun ⟨v, hv, h⟩ => hv ▸ h⟩
  | cons m l ih =>
    constructor
    · rintro ⟨follows, rest⟩
      obtain ⟨v, hl, hr⟩ := ih.1 rest
      exact ⟨v, ⟨follows, hl⟩, hr⟩
    · rintro ⟨v, ⟨follows, hl⟩, hr⟩
      exact ⟨follows, ih.2 ⟨v, hl, hr⟩⟩

theorem Linked.snoc {t u : Tip} {l : List Mark} (h : Linked interval t l u) {m : Mark}
    (follows : m.Follows interval u) : Linked interval t (l ++ [m]) m.tip :=
  linked_append.2 ⟨u, h, follows, rfl⟩

theorem Linked.le {t u : Tip} {l : List Mark} (h : Linked interval t l u) :
    t.index ≤ u.index ∧ t.height ≤ u.height := by
  induction l generalizing t with
  | nil => cases h; exact ⟨le_refl _, le_refl _⟩
  | cons m l ih =>
    obtain ⟨follows, rest⟩ := h
    obtain ⟨hi, hh⟩ := ih rest
    refine ⟨?_, follows.last.trans hh⟩
    have := follows.index
    unfold tip at hi
    dsimp only at hi
    omega

theorem Linked.mem {t u : Tip} {l : List Mark} (h : Linked interval t l u) {m : Mark}
    (hm : m ∈ l) : m.firstHeight ≤ m.lastHeight + 1 ∧ m.lastHeight ≤ u.height ∧
      t.index ≤ m.index ∧ m.index < u.index := by
  induction l generalizing t with
  | nil => cases hm
  | cons x l ih =>
    obtain ⟨follows, rest⟩ := h
    cases mem_cons.1 hm with
    | inl here =>
      subst here
      have low := follows.last
      rw [follows.first]
      refine ⟨by omega, rest.le.2, follows.index.ge, rest.le.1⟩
    | inr later =>
      obtain ⟨a, b, lo, hi⟩ := ih rest later
      refine ⟨a, b, ?_, hi⟩
      have := follows.index
      unfold tip at lo
      dsimp only at lo
      omega

theorem Linked.low {t u : Tip} {l : List Mark} (h : Linked interval t l u) {m : Mark}
    (hm : m ∈ l) : t.height ≤ m.lastHeight := by
  induction l generalizing t with
  | nil => cases hm
  | cons x l ih =>
    obtain ⟨follows, rest⟩ := h
    cases mem_cons.1 hm with
    | inl here => exact here ▸ follows.last
    | inr later => exact follows.last.trans (ih rest later)

theorem Linked.height {t u : Tip} {l : List Mark} (h : Linked interval t l u) :
    u.height = (l.map Mark.lastHeight).getLastD t.height := by
  induction l generalizing t with
  | nil => cases h; rfl
  | cons m l ih =>
    rw [map_cons, getLastD_cons]
    exact ih h.2

end Mark

variable [Hashing]

def Checkpoint.mark (cp : Checkpoint) : Mark :=
  ⟨cp.index, cp.firstHeight, cp.lastHeight, cp.timestampMs, cp.nextCommitteeRoot.isSome⟩

def Prevs : Digest → List Checkpoint → Digest → Prop
  | d, [], e => d = e
  | d, cp :: l, e => cp.prev = d ∧ Prevs cp.digest l e

theorem Prevs.snoc {d e : Digest} {l : List Checkpoint} (h : Prevs d l e) {cp : Checkpoint}
    (prev : cp.prev = e) : Prevs d (l ++ [cp]) cp.digest := by
  induction l generalizing d with
  | nil => exact ⟨prev.trans h.symm, rfl⟩
  | cons x l ih => exact ⟨h.1, ih h.2⟩

namespace Core

def PendingCheckpoint.mark (pc : PendingCheckpoint) : Mark :=
  ⟨pc.index, pc.firstHeight, pc.lastHeight, pc.timestampMs, pc.endsEpoch⟩

def Event.signed : Event → Option Checkpoint
  | .sign cp => some cp
  | _ => none

def signed (c : Core) : List Checkpoint := c.events.filterMap Event.signed

def marks (c : Core) : List Mark := c.signed.map Checkpoint.mark ++ c.decided.map PendingCheckpoint.mark

def tip (c : Core) : Tip := ⟨c.nextCheckpointIndex, c.lastCheckpointHeight, c.lastCheckpointTs⟩

/-- The checkpoint the core's own ones follow: the epoch's start or the one it was installed from. -/
def baseTip (c : Core) : Tip :=
  c.installed.elim ⟨c.start.firstCheckpoint, c.start.firstHeight - 1, c.start.timestampMs⟩
    (fun x => ⟨x.1.checkpoint.index + 1, x.2.lastCheckpointHeight, x.2.lastCheckpointTs⟩)

def basePrev (c : Core) : Digest :=
  c.installed.elim c.start.prevCheckpoint (fun x => x.1.checkpoint.digest)

def installedClosed (c : Core) : Bool := c.installed.any (fun x => x.2.epochClosed)

def EpochStart.Based (s : EpochStart) : Prop :=
  ∀ h, stateRootHeight (s.firstHeight - 1) ≤ h → h ≤ s.firstHeight - 1 →
    ∃ b ∈ s.baseBlocks, b.1 = h

/-- The first index is a handover's at most: the epoch's own, or one before the installed
state's handover. -/
def Opens (c : Core) : Prop :=
  c.installed.elim (c.start.firstCheckpoint ≤ u64Max)
    (fun x => x.1.checkpoint.index < x.2.handoverIndex)

def builtHeight (c : Core) : ℕ := (c.signed.map Checkpoint.lastHeight).getLastD c.baseTip.height

structure Chained (c : Core) : Prop where
  linked : Mark.Linked c.cfg.checkpointIntervalMs c.baseTip c.marks c.tip
  prevs : Prevs c.basePrev c.signed c.prevCheckpoint
  height : c.lastCheckpointHeight ≤ c.nextHeight - 1
  time : c.lastCheckpointTs ≤ c.lastTimestampMs
  state : ∀ cp ∈ c.signed, cp.stateHeight = checkpointStateHeight cp.firstHeight cp.lastHeight
  waits : c.resuming.isSome = true → c.signed = [] ∧ c.decided = []
  seals : ∀ s ∈ c.sealedStates,
    s.lastCheckpointHeight ≤ s.nextHeight - 1 ∧ s.lastCheckpointTs ≤ s.lastTimestampMs
  bounded : c.Opens → (∀ m ∈ c.marks, m.index ≤ c.handoverIndex) ∧
    (c.nextCheckpointIndex ≤ c.handoverIndex ∨ c.halted = true)
  closed : c.marks.countP Mark.ends = if c.epochClosed && !c.installedClosed then 1 else 0
  stays : c.installedClosed = true → c.epochClosed = true
  rooted : c.installed = none → EpochStart.Based c.start →
    ∀ h, stateRootHeight c.builtHeight ≤ h → h ≤ c.builtHeight → c.executed.contains h = true

/-- A step that decides no checkpoint and builds none. -/
structure Carried (c c' : Core) : Prop where
  fixed : c'.fixed = c.fixed
  signed : c'.signed = c.signed
  decided : c'.decided = c.decided
  prevCheckpoint : c'.prevCheckpoint = c.prevCheckpoint
  tip : c'.tip = c.tip
  nextHeight : c.nextHeight ≤ c'.nextHeight
  lastTimestampMs : c.lastTimestampMs ≤ c'.lastTimestampMs
  epochClosed : c'.epochClosed = c.epochClosed
  handoverIndex : c'.handoverIndex = c.handoverIndex
  halted : c.halted = true → c'.halted = true
  origin : c'.origin = c.origin
  sealedStates : c'.sealedStates = c.sealedStates
  executed : ∀ h, c.executed.contains h = true → c'.executed.contains h = true

namespace Carried

variable {c c' : Core} (h : Carried c c')
include h

theorem cfg : c'.cfg = c.cfg := congrArg (fun x => x.1) h.fixed

theorem start : c'.start = c.start := congrArg (fun x => x.2.2.2) h.fixed

theorem installed : c'.installed = c.installed := congrArg Prod.snd h.origin

theorem marks : c'.marks = c.marks := by simp only [Core.marks, h.signed, h.decided]

theorem baseTip : c'.baseTip = c.baseTip := by simp only [Core.baseTip, h.installed, h.start]

theorem builtHeight : c'.builtHeight = c.builtHeight := by
  simp only [Core.builtHeight, h.signed, h.baseTip]

theorem installedClosed : c'.installedClosed = c.installedClosed := by
  simp only [Core.installedClosed, h.installed]

theorem opens : c'.Opens = c.Opens := by simp only [Core.Opens, h.installed, h.start]

theorem chained (old : c.Chained) : c'.Chained where
  linked := by
    rw [h.cfg, h.baseTip, h.marks, h.tip]
    exact old.linked
  prevs := by
    have base : c'.basePrev = c.basePrev := by simp only [Core.basePrev, h.installed, h.start]
    rw [base, h.signed, h.prevCheckpoint]
    exact old.prevs
  height := by
    have same : c'.lastCheckpointHeight = c.lastCheckpointHeight := congrArg Tip.height h.tip
    have := old.height
    have := h.nextHeight
    omega
  time := by
    have same : c'.lastCheckpointTs = c.lastCheckpointTs := congrArg Tip.timestampMs h.tip
    rw [same]
    exact old.time.trans h.lastTimestampMs
  state := by
    rw [h.signed]
    exact old.state
  waits := by
    have same : c'.resuming.isSome = c.resuming.isSome := congrArg Prod.fst h.origin
    rw [same, h.signed, h.decided]
    exact old.waits
  seals := by
    rw [h.sealedStates]
    exact old.seals
  bounded := by
    have same : c'.nextCheckpointIndex = c.nextCheckpointIndex := congrArg Tip.index h.tip
    rw [h.opens, h.marks, h.handoverIndex, same]
    exact fun opens => ⟨(old.bounded opens).1, (old.bounded opens).2.imp_right h.halted⟩
  closed := by
    rw [h.marks, h.epochClosed, h.installedClosed]
    exact old.closed
  stays := by
    rw [h.installedClosed, h.epochClosed]
    exact old.stays
  rooted := by
    rw [h.installed, h.start, h.builtHeight]
    exact fun fresh based x lo hi => h.executed x (old.rooted fresh based x lo hi)

end Carried

theorem Carried.trans {a b c : Core} (h : Carried a b) (k : Carried b c) : Carried a c where
  fixed := k.fixed.trans h.fixed
  signed := k.signed.trans h.signed
  decided := k.decided.trans h.decided
  prevCheckpoint := k.prevCheckpoint.trans h.prevCheckpoint
  tip := k.tip.trans h.tip
  nextHeight := h.nextHeight.trans k.nextHeight
  lastTimestampMs := h.lastTimestampMs.trans k.lastTimestampMs
  epochClosed := k.epochClosed.trans h.epochClosed
  handoverIndex := k.handoverIndex.trans h.handoverIndex
  halted := fun x => k.halted (h.halted x)
  origin := k.origin.trans h.origin
  sealedStates := k.sealedStates.trans h.sealedStates
  executed := fun x hx => k.executed x (h.executed x hx)

theorem signed_events (c : Core) {es : List Event} (none : es.filterMap Event.signed = []) :
    { c with events := c.events ++ es }.signed = c.signed := by
  simp only [signed, filterMap_append, none, append_nil]

theorem filterMap_signed_unordered (ps : List BatchPayload) :
    (ps.map Event.unordered).filterMap Event.signed = [] := by
  simp [filterMap_map, comp_def, Event.signed]

theorem carried_settle (c : Core) (anchor : VertexRef) : Carried c (c.settle anchor) where
  fixed := by
    unfold settle
    rw [fixed_of_still (still_settleBatches ..), fixed_of_still (still_orderHistory ..)]
  signed := by
    simp only [signed, settle, settleBatches, returnSkipped, filterMap_append]
    simp [filterMap_map, comp_def, Event.signed, orderHistory]
  decided := rfl
  prevCheckpoint := rfl
  tip := rfl
  nextHeight := le_refl _
  lastTimestampMs := le_refl _
  epochClosed := rfl
  handoverIndex := rfl
  halted := fun h => h
  origin := rfl
  sealedStates := rfl
  executed := fun _ h => h

theorem carried_makeSegments (c : Core) (anchor : VertexRef) :
    Carried c (c.makeSegments anchor) := by
  refine (carried_settle c anchor).trans ?_
  unfold makeSegments
  constructor
  case nextHeight => exact Nat.le_add_right _ _
  case lastTimestampMs => exact lastTimestampMs_le_segmentTimestamp _ anchor
  case halted => exact fun h => h
  case executed => exact fun _ h => h
  all_goals rfl

theorem carried_collectGarbage (c : Core) (r : ℕ) : Carried c (c.collectGarbage r) := by
  unfold collectGarbage
  split_ifs
  all_goals
    constructor
    case nextHeight => exact le_refl _
    case lastTimestampMs => exact le_refl _
    case halted => exact fun h => h
    case executed => exact fun _ h => h
    all_goals rfl

theorem segmentTimestamp_eq (c : Core) (anchor : VertexRef) :
    (c.makeSegments anchor).lastTimestampMs = (c.settle anchor).segmentTimestamp anchor := rfl

def withHandover (c : Core) (closed : Bool) (handover : ℕ) (handovers : List (ℕ × Bool))
    (waiting : List Waiting) : Core :=
  { c with
    epochClosed := closed
    handoverIndex := handover
    handovers := handovers
    waiting := waiting }

theorem chained_decide {c : Core} (live : c.resuming = none) (h : c.Chained) {t : ℕ}
    (now : c.lastTimestampMs = t) (anchor : VertexRef) {ends closed : Bool} {handover : ℕ}
    (handovers : List (ℕ × Bool)) (waiting : List Waiting)
    (due : ends = true ∨ satAdd c.lastCheckpointTs c.cfg.checkpointIntervalMs ≤ t)
    (closes : ends = true → c.epochClosed = false ∧ closed = true)
    (keeps : ends = false → closed = c.epochClosed)
    (room : c.Opens → c.nextCheckpointIndex ≤ handover) :
    ((c.withHandover closed handover handovers waiting).decideCheckpoint anchor (c.nextHeight - 1) t
      ends).Chained := by
  let m : Mark := ⟨c.nextCheckpointIndex, c.lastCheckpointHeight + 1, c.nextHeight - 1, t, ends⟩
  have follows : m.Follows c.cfg.checkpointIntervalMs c.tip :=
    ⟨rfl, rfl, h.height, h.time.trans_eq now, due⟩
  have marks : ((c.withHandover closed handover handovers waiting).decideCheckpoint anchor
      (c.nextHeight - 1) t ends).marks = c.marks ++ [m] := by
    simp only [Core.marks, decideCheckpoint, map_append, ← append_assoc]
    rfl
  refine
    { linked := ?_, prevs := h.prevs, height := le_refl _, time := now.ge, state := h.state
      waits := ?_, seals := h.seals, bounded := ?_, closed := ?_, stays := ?_, rooted := h.rooted }
  · rw [marks]
    exact h.linked.snoc follows
  · have none : ((c.withHandover closed handover handovers waiting).decideCheckpoint anchor
        (c.nextHeight - 1) t ends).resuming = .none := live
    rw [none]
    exact fun resuming => absurd resuming Bool.false_ne_true
  · intro opens
    have next := room opens
    rw [marks]
    refine ⟨?_, ?_⟩
    · intro x hx
      cases mem_append.1 hx with
      | inl old => exact ((h.linked.mem old).2.2.2.le).trans next
      | inr new =>
        cases mem_singleton.1 new
        exact next
    · cases Nat.lt_or_eq_of_le next with
      | inl before => exact .inl before
      | inr last =>
        refine .inr ?_
        simp only [decideCheckpoint, withHandover, last, decide_true, Bool.or_true]
  · have shut : ((c.withHandover closed handover handovers waiting).decideCheckpoint anchor
        (c.nextHeight - 1) t ends).epochClosed = closed := rfl
    have since : ((c.withHandover closed handover handovers waiting).decideCheckpoint anchor
        (c.nextHeight - 1) t ends).installedClosed = c.installedClosed := rfl
    rw [marks, countP_append, h.closed, countP_singleton, shut, since]
    cases ends with
    | true =>
      obtain ⟨was, is⟩ := closes rfl
      have before : c.installedClosed = false := by
        cases hc : c.installedClosed with
        | false => rfl
        | true =>
          rw [h.stays hc] at was
          cases was
      simp [m, was, is, before]
    | false =>
      simp [m, keeps rfl]
  · intro was
    have shut := h.stays was
    cases ends with
    | true => exact (closes rfl).2
    | false => exact (keeps rfl).trans shut

theorem chained_takeCheckpoint {c : Core} (live : c.resuming = none) (running : c.halted = false)
    (h : c.Chained) (anchor : VertexRef) {t : ℕ} (now : c.lastTimestampMs = t) :
    (c.takeCheckpoint anchor t).Chained := by
  unfold takeCheckpoint
  dsimp only
  split_ifs with closing ordinary
  · exact chained_decide live h now anchor _ _ (.inl rfl) (fun _ => ⟨closing.1, rfl⟩)
      (fun no => absurd no Bool.false_ne_true.symm) (fun _ => Nat.le_add_right _ _)
  · refine chained_decide live h now anchor c.handovers c.waiting (.inr ordinary.1)
      (fun no => absurd no Bool.false_ne_true) (fun _ => rfl) ?_
    intro opens
    cases (h.bounded opens).2 with
    | inl room => exact room
    | inr halted =>
      rw [running] at halted
      cases halted
  · exact h

theorem chained_sealLast {c : Core} (h : c.Chained) : c.sealLast.Chained := by
  unfold sealLast
  cases hd : c.decided.getLast? with
  | none => exact h
  | some pc =>
    dsimp only
    split_ifs
    · exact h
    · have split : c.decided = c.decided.dropLast ++ [pc] :=
        (dropLast_append_getLast? pc hd).symm
      have marks : (c.decided.dropLast ++ [{ pc with
          orderingRoot := some (c.orderingState pc.index).digest }]).map PendingCheckpoint.mark =
          c.decided.map PendingCheckpoint.mark := by
        conv_rhs => rw [split]
        rw [map_append, map_append]
        rfl
      refine
        { linked := ?_, prevs := h.prevs, height := h.height, time := h.time, state := h.state
          waits := ?_, seals := ?_, bounded := ?_, closed := ?_, stays := h.stays
          rooted := h.rooted }
      · have := h.linked
        unfold Core.marks at this ⊢
        rw [← marks] at this
        exact this
      · intro resuming
        have := (h.waits resuming).2
        rw [this] at hd
        cases hd
      · intro s hs
        cases mem_append.1 hs with
        | inl old => exact h.seals s old
        | inr new =>
          cases mem_singleton.1 new
          exact ⟨h.height, h.time⟩
      · have := h.bounded
        unfold Core.marks at this ⊢
        rw [← marks] at this
        exact this
      · have := h.closed
        unfold Core.marks at this ⊢
        rw [← marks] at this
        exact this

theorem chained_commitOpen {c : Core} (live : c.resuming = none) (running : c.halted = false)
    (h : c.Chained) (anchor : VertexRef) : (c.commitOpen anchor).Chained := by
  have segments := (carried_makeSegments c anchor).chained h
  have live' : (c.makeSegments anchor).resuming = none := live
  have running' : (c.makeSegments anchor).halted = false := running
  have taken := chained_takeCheckpoint live' running' segments anchor (segmentTimestamp_eq c anchor)
  exact chained_sealLast ((carried_collectGarbage _ anchor.round).chained taken)

theorem buildable_iff {c : Core} {pc : PendingCheckpoint} (ready : c.buildable pc = true) :
    (∀ h ∈ PendingCheckpoint.heights pc, c.executed.contains h = true) ∧
      (pc.endsEpoch = true → c.nextCommitteeRoot.isSome = true) := by
  simp only [buildable, Bool.and_eq_true, all_eq_true, Bool.or_eq_true,
    Bool.not_eq_true'] at ready
  refine ⟨ready.1.1.2, ?_⟩
  intro ends
  cases ready.2 with
  | inl no => rw [ends] at no; cases no
  | inr root => exact root

theorem mark_checkpointBody {c : Core} {pc : PendingCheckpoint} (ready : c.buildable pc = true) :
    (c.checkpointBody pc).mark = PendingCheckpoint.mark pc := by
  have root : (if pc.endsEpoch then c.nextCommitteeRoot else none).isSome = pc.endsEpoch := by
    cases ends : pc.endsEpoch with
    | false => rfl
    | true => exact (buildable_iff ready).2 ends
  simp only [Checkpoint.mark, checkpointBody, PendingCheckpoint.mark, root]

theorem mem_heights {pc : PendingCheckpoint} {h : ℕ} :
    h ∈ PendingCheckpoint.heights pc ↔ pc.firstHeight ≤ h ∧ h ≤ pc.lastHeight := by
  unfold PendingCheckpoint.heights
  rw [mem_range'_1]
  omega

theorem Chained.next {c : Core} (h : c.Chained) {pc : PendingCheckpoint}
    {rest : List PendingCheckpoint} (first : c.decided = pc :: rest) :
    pc.firstHeight = c.builtHeight + 1 ∧ c.builtHeight ≤ pc.lastHeight := by
  have linked := h.linked
  unfold marks at linked
  rw [first] at linked
  obtain ⟨v, before, follows, -⟩ := Mark.linked_append.1 linked
  have here : v.height = c.builtHeight := by
    rw [before.height, map_map]
    rfl
  exact ⟨follows.first.trans (by rw [here]), here ▸ follows.last⟩

theorem chained_buildOne {c : Core} (h : c.Chained) {pc : PendingCheckpoint}
    {rest : List PendingCheckpoint} (first : c.decided = pc :: rest) (ready : c.buildable pc = true) :
    (c.buildOne pc rest).Chained := by
  have signed : (c.buildOne pc rest).signed = c.signed ++ [c.checkpointBody pc] := by
    simp only [Core.signed, buildOne, filterMap_append]
    rfl
  have marks : (c.buildOne pc rest).marks = c.marks := by
    have left : (c.buildOne pc rest).decided = rest := rfl
    unfold Core.marks
    rw [signed, left, first, map_append, map_singleton, mark_checkpointBody ready,
      append_assoc]
    rfl
  have built : (c.buildOne pc rest).builtHeight = pc.lastHeight := by
    simp only [builtHeight, signed, map_append, map_singleton, getLastD_concat]
    rfl
  refine
    { linked := ?_, prevs := ?_, height := h.height, time := h.time, state := ?_, waits := ?_
      seals := h.seals, bounded := ?_, closed := ?_, stays := h.stays, rooted := ?_ }
  · rw [marks]
    exact h.linked
  · rw [signed]
    exact h.prevs.snoc rfl
  · rw [signed]
    intro cp hcp
    cases mem_append.1 hcp with
    | inl old => exact h.state cp old
    | inr new =>
      cases mem_singleton.1 new
      rfl
  · intro resuming
    have := (h.waits resuming).2
    rw [first] at this
    cases this
  · rw [marks]
    exact h.bounded
  · rw [marks]
    exact h.closed
  · intro fresh based x lo hi
    obtain ⟨next, grows⟩ := h.next first
    rw [built] at lo hi
    have here : c.executed.contains x = true := by
      by_cases old : x ≤ c.builtHeight
      · refine h.rooted fresh based x ?_ old
        unfold stateRootHeight at lo ⊢
        omega
      · exact (buildable_iff ready).1 x (mem_heights.2 ⟨by omega, hi⟩)
    obtain ⟨y, hy⟩ := SortedMap.contains_eq_true.1 here
    refine SortedMap.contains_eq_true.2 ⟨y, SortedMap.get?_filter_eq_some.2 ⟨hy, ?_⟩⟩
    exact decide_eq_true lo

theorem chained_turn {c : Core} (live : c.resuming = none) (running : c.halted = false)
    (h : c.Chained) : (c.askOpen.applyDecisions c.decideSlots).1.Chained := by
  refine (turn_keeps (P := fun c => c.resuming = none ∧ c.Chained) ?_ ?_ ?_ ?_ running
    ⟨live, h⟩).2
  · rintro c r ⟨live, h⟩
    refine ⟨live, Carried.chained (c := c) ?_ h⟩
    constructor <;> first | rfl | exact le_refl _ | exact fun h => h | exact fun _ h => h
  · rintro c slot ⟨live, h⟩
    refine ⟨live, Carried.chained (c := c) ?_ h⟩
    constructor <;> first | rfl | exact le_refl _ | exact fun h => h | exact fun _ h => h
  · rintro c slot anchor running ⟨live, h⟩
    have taken : (c.takeSlot slot (some anchor)).Chained := by
      refine Carried.chained (c := c) ?_ h
      constructor <;> first | rfl | exact le_refl _ | exact fun h => h | exact fun _ h => h
    exact ⟨(resuming_of_still (still_commitOpen _ anchor)).trans live,
      chained_commitOpen (c := c.takeSlot slot (some anchor)) live running taken anchor⟩
  · rintro c pc rest first ready ⟨live, h⟩
    exact ⟨live, chained_buildOne h first ready⟩

/-- What a move can do to the chain of checkpoints. -/
inductive ChainMove (e : Env) (c c' : Core) : Prop where
  | same : Carried c c' → ChainMove e c c'
  | build {pc : PendingCheckpoint} {rest : List PendingCheckpoint} : c.decided = pc :: rest →
      c.buildable pc = true → c' = c.buildOne pc rest → ChainMove e c c'
  | turn : c.resuming = none → c.halted = false →
      c' = (c.askOpen.applyDecisions c.decideSlots).1 → ChainMove e c c'
  | install (cert : Certificate) (state : OrderingState) (ownRound : Option ℕ) (nowMs : ℕ) :
      ¬ e.recovering → c.resuming.isSome = true → c' = c.install cert state ownRound nowMs →
      ChainMove e c c'

theorem signed_completeEpoch (c : Core) (cert : Certificate) :
    (c.completeEpoch cert).signed = c.signed := by
  have none : (c.stranded.map Event.unordered ++ [Event.epochComplete cert]).filterMap
      Event.signed = [] := by
    rw [filterMap_append, filterMap_signed_unordered]
    rfl
  have := signed_events c none
  simpa only [signed, completeEpoch, append_assoc] using this

theorem signed_onCertified (c : Core) (cert : Certificate) :
    (c.onCertified cert).signed = c.signed := by
  unfold onCertified
  dsimp only
  split_ifs
  any_goals rfl
  any_goals exact signed_completeEpoch _ cert
  any_goals exact signed_events _ rfl

theorem signed_submitPart (c : Core) (part : BatchPart) :
    (c.submitPart part).signed = c.signed := by
  unfold submitPart
  dsimp only
  split_ifs
  · exact signed_events c rfl
  · rfl

theorem signed_releaseFirst {c c' : Core} {w : Waiting} {rest : List Waiting}
    (h : c.releaseFirst w rest = some c') : c'.signed = c.signed := by
  cases w with
  | epochEnds last =>
    cases h
    exact signed_events c rfl
  | segment seg =>
    simp only [releaseFirst] at h
    split_ifs at h <;> cases h <;> exact signed_events c rfl

/-- What certificates, batches and releases leave alone. -/
def building (c : Core) : List PendingCheckpoint × Digest × Bool ×
    SortedMap ℕ (Digest × Digest × List Digest) :=
  (c.decided, c.prevCheckpoint, c.halted, c.executed)

theorem Carried.of_same {c c' : Core} (fixed : c'.fixed = c.fixed) (same : SameOrder c c')
    (signed : c'.signed = c.signed) (building : c'.building = c.building) : Carried c c' where
  fixed := fixed
  signed := signed
  decided := congrArg (fun x => x.1) building
  prevCheckpoint := congrArg (fun x => x.2.1) building
  tip := by
    simp only [Core.tip, same.nextCheckpointIndex, same.lastCheckpointHeight, same.lastCheckpointTs]
  nextHeight := same.nextHeight.ge
  lastTimestampMs := same.lastTimestampMs.ge
  epochClosed := same.epochClosed
  handoverIndex := same.handoverIndex
  halted := by
    rw [show c'.halted = c.halted from congrArg (fun x => x.2.2.1) building]
    exact fun h => h
  origin := by simp only [Core.origin, same.resuming, same.installed]
  sealedStates := same.sealedStates
  executed := by
    rw [show c'.executed = c.executed from congrArg (fun x => x.2.2.2) building]
    exact fun _ h => h

theorem building_submitPart (c : Core) (part : BatchPart) :
    (c.submitPart part).building = c.building := by
  unfold submitPart
  dsimp only
  split_ifs <;> rfl

theorem building_releaseFirst {c c' : Core} {w : Waiting} {rest : List Waiting}
    (h : c.releaseFirst w rest = some c') : c'.building = c.building := by
  cases w with
  | epochEnds last =>
    cases h
    rfl
  | segment seg =>
    simp only [releaseFirst] at h
    split_ifs at h <;> cases h <;> rfl

theorem building_onCertified (c : Core) (cert : Certificate) :
    (c.onCertified cert).building = c.building := by
  unfold onCertified
  dsimp only
  split_ifs <;> rfl

theorem Move.chain {e : Env} {c c' : Core} (move : Move e c c') : ChainMove e c c' := by
  have fixed := move.fixed
  cases move with
  | build first ready => exact .build first ready rfl
  | turn live running => exact .turn live running rfl
  | install cert state ownRound nowMs live waiting _ =>
    obtain ⟨r, hr, -⟩ := waiting
    exact .install cert state ownRound nowMs live (by rw [hr]; rfl) rfl
  | submit part =>
    exact .same (.of_same fixed (sameOrder_submitPart c part).1 (signed_submitPart c part)
      (building_submitPart c part))
  | release first h =>
    exact .same (.of_same fixed (sameOrder_releaseFirst h).1 (signed_releaseFirst h)
      (building_releaseFirst h))
  | certified cert =>
    exact .same (.of_same fixed (sameOrder_onCertified c cert).1 (signed_onCertified c cert)
      (building_onCertified c cert))
  | adopt cert _ _ _ =>
    exact .same (.of_same fixed (sameOrder_adopt c cert _).1 (signed_onCertified _ cert)
      (building_onCertified _ cert))
  | adoptHeld _ _ _ =>
    refine .same (.of_same fixed ?_ (signed_completeEpoch _ _) rfl)
    constructor <;> rfl
  | evidence es =>
    have none : (es.map Event.equivocation).filterMap Event.signed = [] := by
      simp [filterMap_map, comp_def, Event.signed]
    refine .same (.of_same fixed ?_ (signed_events c none) rfl)
    constructor <;> rfl
  | disagree index =>
    have none : [Event.verifierDisagreement index].filterMap Event.signed = [] := rfl
    refine .same ?_
    constructor
    case signed => exact signed_events c none
    case nextHeight => exact le_refl _
    case lastTimestampMs => exact le_refl _
    case halted => exact fun _ => rfl
    case executed => exact fun _ h => h
    all_goals rfl
  | executed h x =>
    refine .same ?_
    constructor
    case nextHeight => exact le_refl _
    case lastTimestampMs => exact le_refl _
    case halted => exact fun h => h
    case executed =>
      intro k hk
      dsimp only
      rw [SortedMap.contains_insert, hk]
      exact Bool.or_true _
    all_goals rfl
  | asked t hr =>
    refine .same (.of_same fixed ?_ rfl rfl)
    constructor <;> first | rfl | (rw [hr]; rfl)
  | _ =>
    refine .same ?_
    constructor <;> first | rfl | exact le_refl _ | exact fun h => h | exact fun _ h => h

theorem chained_install {c : Core} (none : c.signed = []) (cert : Certificate)
    {state : OrderingState} (height : state.lastCheckpointHeight ≤ state.nextHeight - 1)
    (time : state.lastCheckpointTs ≤ state.lastTimestampMs)
    (seals : ∀ s ∈ c.sealedStates,
      s.lastCheckpointHeight ≤ s.nextHeight - 1 ∧ s.lastCheckpointTs ≤ s.lastTimestampMs)
    (ownRound : Option ℕ) (nowMs : ℕ) : (c.install cert state ownRound nowMs).Chained := by
  have signed : (c.install cert state ownRound nowMs).signed = [] := none
  have decided : (c.install cert state ownRound nowMs).decided = [] := rfl
  have marks : (c.install cert state ownRound nowMs).marks = [] := by
    unfold Core.marks
    rw [signed, decided]
    rfl
  refine
    { linked := ?_, prevs := ?_, height := height, time := time, state := ?_
      waits := fun _ => ⟨signed, decided⟩, seals := seals, bounded := ?_, closed := ?_
      stays := fun h => h, rooted := fun fresh => nomatch fresh }
  · rw [marks]
    rfl
  · rw [signed]
    rfl
  · rw [signed]
    exact forall_mem_nil _
  · intro opens
    rw [marks]
    exact ⟨forall_mem_nil _, .inl opens⟩
  · have shut : (c.install cert state ownRound nowMs).epochClosed = state.epochClosed := rfl
    have since : (c.install cert state ownRound nowMs).installedClosed = state.epochClosed := rfl
    rw [marks, shut, since, Bool.and_not_self]
    rfl

theorem chained_fresh {c : Core} (signed : c.signed = []) (decided : c.decided = [])
    (tip : c.tip = c.baseTip) (prev : c.basePrev = c.prevCheckpoint)
    (height : c.lastCheckpointHeight ≤ c.nextHeight - 1)
    (time : c.lastCheckpointTs ≤ c.lastTimestampMs) (unsealed : c.sealedStates = [])
    (fresh : c.installed = none) (running : c.epochClosed = false)
    (handover : c.handoverIndex = u64Max)
    (executed : c.executed =
      .ofList (c.start.baseBlocks.map (fun b => (b.1, (b.2.1, b.2.2, []))))) : c.Chained := by
  have marks : c.marks = [] := by
    unfold Core.marks
    rw [signed, decided]
    rfl
  have base : c.baseTip = ⟨c.start.firstCheckpoint, c.start.firstHeight - 1, c.start.timestampMs⟩ := by
    simp only [Core.baseTip, fresh, Option.elim]
  have before : c.installedClosed = false := by
    simp only [Core.installedClosed, fresh, Option.any]
  refine
    { linked := ?_, prevs := ?_, height := height, time := time, state := ?_
      waits := fun _ => ⟨signed, decided⟩, seals := ?_, bounded := ?_, closed := ?_, stays := ?_
      rooted := ?_ }
  · rw [marks]
    exact tip.symm
  · rw [signed]
    exact prev
  · rw [signed]
    exact forall_mem_nil _
  · rw [unsealed]
    exact forall_mem_nil _
  · intro opens
    have first : c.nextCheckpointIndex = c.start.firstCheckpoint :=
      (congrArg Tip.index tip).trans (congrArg Tip.index base)
    simp only [Opens, fresh, Option.elim] at opens
    rw [marks, first, handover]
    exact ⟨forall_mem_nil _, .inl opens⟩
  · rw [marks, running]
    rfl
  · rw [before]
    exact fun h => absurd h Bool.false_ne_true
  · intro _ based h lo hi
    have built : c.builtHeight = c.start.firstHeight - 1 := by
      simp only [builtHeight, signed, base, map_nil, getLastD_nil]
    rw [built] at lo hi
    obtain ⟨b, hb, rfl⟩ := based h lo hi
    rw [executed]
    refine SortedMap.contains_ofList ?_
    rw [map_map]
    exact mem_map.2 ⟨b, hb, rfl⟩

def Lawful (s : OrderingState) : Prop :=
  s.lastCheckpointHeight ≤ s.nextHeight - 1 ∧ s.lastCheckpointTs ≤ s.lastTimestampMs

theorem chained_move {e : Env} {c c' : Core} (move : Move e c c')
    (lawful : ¬ e.recovering → ∀ cert s, Record.resumed cert s ∈ c'.journal → Lawful s)
    (h : c.Chained) : c'.Chained := by
  cases move.chain with
  | same same => exact same.chained h
  | build first ready eq => exact eq ▸ chained_buildOne h first ready
  | turn live running eq => exact eq ▸ chained_turn live running h
  | install cert state ownRound nowMs live resuming eq =>
    subst eq
    have known := lawful live cert state (mem_append_right _ mem_cons_self)
    exact chained_install (h.waits resuming).1 cert known.1 known.2 h.seals ownRound nowMs

theorem Run.chained {c : Core} (run : Run Lawful c) : c.Chained := by
  refine run.keeps ?_ ?_ ?_ ?_ (fun e c c' move lawful => chained_move move lawful)
  · intro cfg committee me start
    exact chained_fresh rfl rfl rfl rfl (le_refl _) (le_refl _) rfl rfl rfl rfl rfl
  · intro cfg committee me start n
    exact chained_fresh rfl rfl rfl rfl (le_refl _) (le_refl _) rfl rfl rfl rfl rfl
  · intro cfg committee me start n payloads payloadRound cert state ownRound nowMs lawful
    exact chained_install rfl cert lawful.1 lawful.2 (forall_mem_nil _) ownRound nowMs
  · intro cfg committee me cert sessions ownRound n m k
    exact chained_fresh rfl rfl rfl rfl (le_refl _) (le_refl _) rfl rfl rfl rfl rfl

theorem Grounded.chained {c : Core} (h : Grounded c) : c.Chained :=
  (h.run (S := Lawful) (fun _ run => run.chained.seals)).chained

end Core

/-- A checkpoint that goes on from the tip: well formed, and after the interval as `u64`
addition has it unless it ends the epoch. -/
structure Checkpoint.Extends (interval : ℕ) (t : Tip) (prev : Digest) (cp : Checkpoint) : Prop where
  index : cp.index = t.index
  prev : cp.prev = prev
  firstHeight : cp.firstHeight = t.height + 1
  wellFormed : cp.wellFormed = true
  time : t.timestampMs ≤ cp.timestampMs
  due : cp.nextCommitteeRoot.isSome = true ∨ satAdd t.timestampMs interval ≤ cp.timestampMs

def SignedChain (interval : ℕ) : Tip → Digest → List Checkpoint → Prop
  | _, _, [] => True
  | t, prev, cp :: l =>
    cp.Extends interval t prev ∧ SignedChain interval cp.mark.tip cp.digest l

theorem signedChain_of {interval : ℕ} {l : List Checkpoint} {t u : Tip} {d e : Digest}
    (linked : Mark.Linked interval t (l.map Checkpoint.mark) u) (prevs : Prevs d l e)
    (well : ∀ cp ∈ l, cp.wellFormed = true) : SignedChain interval t d l := by
  induction l generalizing t d with
  | nil => trivial
  | cons cp l ih =>
    obtain ⟨follows, rest⟩ := linked
    refine ⟨⟨follows.index, prevs.1, follows.first, well cp mem_cons_self, follows.time,
      follows.due⟩, ?_⟩
    exact ih rest prevs.2 (fun x hx => well x (mem_cons_of_mem cp hx))

namespace Core

def closings (c : Core) : List Checkpoint :=
  c.signed.filter (fun cp => cp.nextCommitteeRoot.isSome)

theorem Chained.wellFormed {c : Core} (h : c.Chained) (fits : c.nextHeight ≤ u64Max)
    {cp : Checkpoint} (hcp : cp ∈ c.signed) : cp.wellFormed = true := by
  have mem : cp.mark ∈ c.marks := mem_append_left _ (mem_map.2 ⟨cp, hcp, rfl⟩)
  obtain ⟨range, last, -, -⟩ := h.linked.mem mem
  have top : c.tip.height ≤ c.nextHeight - 1 := h.height
  have first : cp.firstHeight ≤ satAdd cp.lastHeight 1 := by
    have hi : cp.lastHeight ≤ c.nextHeight - 1 := last.trans top
    have lo : cp.firstHeight ≤ cp.lastHeight + 1 := range
    have one : 1 ≤ u64Max := by
      unfold u64Max
      decide
    unfold satAdd
    refine le_min lo ?_
    omega
  unfold Checkpoint.wellFormed
  rw [Bool.and_eq_true]
  exact ⟨decide_eq_true first, decide_eq_true (h.state cp hcp)⟩

theorem Chained.closings_eq {c : Core} (h : c.Chained) :
    c.closings.length + (c.decided.filter (fun pc => pc.endsEpoch)).length =
      if c.epochClosed && !c.installedClosed then 1 else 0 := by
  rw [← h.closed]
  unfold marks closings
  rw [countP_append, countP_map, countP_map, countP_eq_length_filter,
    countP_eq_length_filter]
  rfl

theorem Chained.decided_nil {c : Core} (h : c.Chained) (opens : c.Opens)
    (last : ∃ cp ∈ c.signed, cp.index = c.handoverIndex) : c.decided = [] := by
  obtain ⟨cp, hcp, index⟩ := last
  cases hd : c.decided with
  | nil => rfl
  | cons pc rest =>
    have linked := h.linked
    unfold marks at linked
    obtain ⟨v, before, after⟩ := Mark.linked_append.1 linked
    have low := (before.mem (mem_map.2 ⟨cp, hcp, rfl⟩)).2.2.2
    have mem : PendingCheckpoint.mark pc ∈ c.decided.map PendingCheckpoint.mark :=
      mem_map.2 ⟨pc, by rw [hd]; exact mem_cons_self, rfl⟩
    have high := (after.mem mem).2.2.1
    have bound := (h.bounded opens).1 _ (mem_append_right _ mem)
    have here : cp.mark.index = c.handoverIndex := index
    omega

theorem Chained.state_held {c : Core} (h : c.Chained) (fresh : c.installed = none)
    (based : EpochStart.Based c.start) {pc : PendingCheckpoint} (hpc : pc ∈ c.decided)
    (run : ∀ x, c.builtHeight < x → x ≤ pc.lastHeight → c.executed.contains x = true) :
    c.executed.contains (checkpointStateHeight pc.firstHeight pc.lastHeight) = true := by
  have linked := h.linked
  unfold marks at linked
  obtain ⟨v, before, after⟩ := Mark.linked_append.1 linked
  have here : v.height = c.builtHeight := by
    rw [before.height, map_map]
    rfl
  have low : c.builtHeight ≤ pc.lastHeight :=
    here ▸ after.low (mem_map.2 ⟨pc, hpc, rfl⟩)
  have near : stateRootHeight c.builtHeight ≤ checkpointStateHeight pc.firstHeight pc.lastHeight ∧
      checkpointStateHeight pc.firstHeight pc.lastHeight ≤ pc.lastHeight := by
    unfold checkpointStateHeight stateRootHeight
    split_ifs <;> omega
  by_cases old : checkpointStateHeight pc.firstHeight pc.lastHeight ≤ c.builtHeight
  · exact h.rooted fresh based _ near.1 old
  · exact run _ (not_le.1 old) near.2

end Core

end Tenzro

namespace Tenzro

attribute [local instance] soloHashing

theorem soloCore_opens : soloCore.Opens := by
  have fresh : soloCore.installed = none := by decide +kernel
  have first : soloCore.start.firstCheckpoint ≤ u64Max := by decide +kernel
  simp only [Core.Opens, fresh, Option.elim]
  exact first

def soloClosing : Checkpoint where
  chainId := 1
  genesisHash := 0
  epoch := 0
  index := 1
  prev := 5
  firstHeight := 1
  lastHeight := 1
  blocksRoot := 220
  stateHeight := 0
  stateRoot := 8
  statementRoot := 7
  nextCommitteeRoot := some 9
  anchorRound := 0
  timestampMs := u64Max
  orderingRoot := 1

def soloHandover : Checkpoint where
  chainId := 1
  genesisHash := 0
  epoch := 0
  index := 2
  prev := 1001
  firstHeight := 2
  lastHeight := 1
  blocksRoot := 7
  stateHeight := 1
  stateRoot := 4
  statementRoot := 7
  nextCommitteeRoot := none
  anchorRound := 1
  timestampMs := u64Max
  orderingRoot := 2

end Tenzro
