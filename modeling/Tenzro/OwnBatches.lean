import Tenzro.CoreRuns

set_option autoImplicit false
set_option linter.dupNamespace false
set_option linter.unusedSectionVars false

/-!
# Where a validator's own batches are

A batch `submit_part` accepted waits to be introduced, is introduced, is released
in a segment, or is handed back. It stays in exactly one of these places as long as
no commit passes a waiting batch's sequence without releasing it.
-/
namespace Tenzro
open List Function
variable [Hashing]

inductive OwnPlace where
  | unintroduced
  | introduced
  | released
  | returned
deriving DecidableEq

namespace Core

def Names (me : ValidatorIndex) (p : BatchPayload) (b : OrderedBatch) : Prop :=
  b.author = me ∧ b.batch.digest = p.digest

instance (me : ValidatorIndex) (p : BatchPayload) (b : OrderedBatch) : Decidable (Names me p b) :=
  inferInstanceAs (Decidable (_ ∧ _))

def At (c : Core) (p : BatchPayload) : OwnPlace → Prop
  | .unintroduced => p.reference ∈ c.ownUnintroduced
  | .introduced => c.ownIntroduced.contains p.digest = true
  | .released => ∃ s ∈ c.segments, ∃ b ∈ s.batches, Names c.me p b
  | .returned => Event.unordered p ∈ c.events

def accepted (c : Core) : List BatchPayload := batchesOf c.journal

/-- A commit treats an accepted batch well: it passes a waiting batch exactly if it releases it, and
what it releases was accepted, not handed back and goes into a segment. -/
structure CommitNote.Fair (me : ValidatorIndex) (p : BatchPayload) (n : CommitNote) : Prop where
  waiting : p.reference ∈ n.unintroduced →
    (p.sequence < n.through ↔ ∃ b ∈ n.released, Names me p b)
  released : (∃ b ∈ n.released, Names me p b) → p ∉ n.returned ∧ p.sequence < n.nextSequence ∧
    n.released.any (fun b => 0 < b.batch.transactions) = true

def Fair (c : Core) : Prop := ∀ n ∈ c.commits, ∀ p ∈ c.accepted, CommitNote.Fair c.me p n

def Past (c : Core) (q : BatchPayload) : Prop := q.author ≠ c.me ∨ q.sequence < c.nextBatchSequence

def Oversized (q : BatchPayload) : Prop :=
  maxBatchBytes < q.body.length ∨ maxTransactionsPerBlock < q.transactions

def returned (c : Core) : List BatchPayload := c.events.filterMap Event.returned

/-- What holds of the own batches apart from where each accepted one is. -/
structure Tidy (c : Core) : Prop where
  unintroduced : ∀ b ∈ c.ownUnintroduced, ∃ q : BatchPayload, b = q.reference ∧ c.Past q
  introduced : ∀ d, c.ownIntroduced.contains d = true → ∃ q : BatchPayload, q.digest = d ∧ c.Past q
  returned : ∀ q ∈ c.returned, c.Past q ∨ c.halted = true ∨ Oversized q
  payloads : ∀ d q, c.payloads.get? d = some q → q.digest = d
  notes : ∀ n ∈ c.commits, n.nextSequence ≤ c.nextBatchSequence
  segments : ∀ s ∈ c.segments, ∀ b ∈ s.batches, ∃ n ∈ c.commits, b ∈ n.released
  accepted : ∀ p ∈ c.accepted, p.author = c.me ∧ p.sequence < c.nextBatchSequence

/-- Each accepted batch is in one place, and one still tracked has its payload. -/
structure Housed (c : Core) : Prop where
  one : ∀ p ∈ c.accepted, ∃! place, c.At p place
  held : ∀ p ∈ c.accepted, (c.At p .unintroduced ∨ c.At p .introduced) →
    c.payloads.get? p.digest = some p

/-- The own batches while every commit is fair. -/
structure Owned (c : Core) : Prop where
  tidy : c.Tidy
  housed : c.Fair → c.Housed

theorem mem_returned {c : Core} {p : BatchPayload} :
    p ∈ c.returned ↔ Event.unordered p ∈ c.events := by
  unfold returned
  rw [mem_filterMap]
  constructor
  · rintro ⟨e, he, hp⟩
    cases e <;> cases hp
    exact he
  · exact fun h => ⟨_, h, rfl⟩

def owning (c : Core) : ValidatorIndex × List BatchPayload × List BatchRef × SortedMap Digest ℕ ×
    List WaitingSegment × List BatchPayload × ℕ × List CommitNote :=
  (c.me, c.accepted, c.ownUnintroduced, c.ownIntroduced, c.segments, c.returned,
    c.nextBatchSequence, c.commits)

/-- A step that moves no own batch. -/
structure Keeps (c c' : Core) : Prop where
  owning : c'.owning = c.owning
  halted : c.halted = true → c'.halted = true
  payloads : ∀ d q, c'.payloads.get? d = some q → c.payloads.get? d = some q ∨ q.digest = d
  held : ∀ q : BatchPayload, c.payloads.get? q.digest = some q → c'.payloads.get? q.digest = some q

theorem owning_eq_iff {c c' : Core} : c'.owning = c.owning ↔ c'.me = c.me ∧
    c'.accepted = c.accepted ∧ c'.ownUnintroduced = c.ownUnintroduced ∧
    c'.ownIntroduced = c.ownIntroduced ∧ c'.segments = c.segments ∧ c'.returned = c.returned ∧
    c'.nextBatchSequence = c.nextBatchSequence ∧ c'.commits = c.commits := by
  simp only [owning, Prod.mk.injEq]

theorem at_of_owning {c c' : Core} (same : c'.owning = c.owning) (p : BatchPayload)
    (place : OwnPlace) : c'.At p place ↔ c.At p place := by
  obtain ⟨me, -, waiting, introduced, segments, returned, -⟩ := owning_eq_iff.1 same
  cases place with
  | unintroduced => simp only [At, waiting]
  | introduced => simp only [At, introduced]
  | released => simp only [At, segments, me]
  | returned => simp only [At, ← mem_returned, returned]

theorem Owned.of_owning {c c' : Core} (old : c.Owned) (same : c'.owning = c.owning)
    (halted : c.halted = true → c'.halted = true)
    (payloads : ∀ d q, c'.payloads.get? d = some q → c.payloads.get? d = some q ∨ q.digest = d)
    (held : c.Fair → ∀ p ∈ c.accepted, c.At p .unintroduced ∨ c.At p .introduced →
      c'.payloads.get? p.digest = some p) : c'.Owned := by
  obtain ⟨me, accepted, waiting, introduced, segments, returned, next, commits⟩ :=
    owning_eq_iff.1 same
  have past (q : BatchPayload) : c'.Past q ↔ c.Past q := by simp only [Past, me, next]
  refine ⟨?_, ?_⟩
  · refine ⟨?_, ?_, ?_, ?_, ?_, ?_, ?_⟩
    · simp only [waiting, past]
      exact old.tidy.unintroduced
    · simp only [introduced, past]
      exact old.tidy.introduced
    · simp only [returned, past]
      exact fun q hq => (old.tidy.returned q hq).imp_right (Or.imp_left halted)
    · exact fun d q hq => (payloads d q hq).elim (old.tidy.payloads d q) id
    · simp only [commits, next]
      exact old.tidy.notes
    · simp only [commits, segments]
      exact old.tidy.segments
    · simp only [accepted, me, next]
      exact old.tidy.accepted
  · intro fair
    have before : c.Fair := by
      unfold Fair at fair ⊢
      rw [commits, accepted, me] at fair
      exact fair
    refine ⟨?_, ?_⟩
    · simp only [accepted, at_of_owning same]
      exact (old.housed before).one
    · simp only [accepted, at_of_owning same]
      exact held before

theorem Keeps.owned {c c' : Core} (h : Keeps c c') (old : c.Owned) : c'.Owned := by
  refine old.of_owning h.owning h.halted h.payloads ?_
  intro fair p hp tracked
  exact h.held p ((old.housed fair).held p hp tracked)

theorem Keeps.of_owning {c c' : Core} (same : c'.owning = c.owning)
    (halted : c.halted = true → c'.halted = true) (payloads : c'.payloads = c.payloads) :
    Keeps c c' := by
  refine ⟨same, halted, ?_, ?_⟩
  · rw [payloads]
    exact fun d q hq => .inl hq
  · rw [payloads]
    exact fun q hq => hq

theorem existsUnique_moved {P P' : OwnPlace → Prop} {f : OwnPlace → OwnPlace}
    (forth : ∀ x, P x → P' (f x)) (back : ∀ y, P' y → ∃ x, P x ∧ f x = y) (one : ∃! x, P x) :
    ∃! y, P' y := by
  obtain ⟨x, hx, only⟩ := one
  refine ⟨f x, forth x hx, ?_⟩
  intro y hy
  obtain ⟨z, hz, rfl⟩ := back y hy
  rw [only z hz]

/-- A proposal takes up what waits. -/
def OwnPlace.taken : OwnPlace → OwnPlace
  | .unintroduced => .introduced
  | x => x

/-- The end of the epoch hands back what is not ordered. -/
def OwnPlace.stranded : OwnPlace → OwnPlace
  | .unintroduced | .introduced => .returned
  | x => x

theorem contains_insertAll (round : ℕ) (l : List BatchRef) (m : SortedMap Digest ℕ) (d : Digest) :
    (l.foldl (fun m b => m.insert b.digest round) m).contains d = true ↔
      m.contains d = true ∨ ∃ b ∈ l, b.digest = d := by
  induction l generalizing m with
  | nil => simp
  | cons a l ih =>
    rw [foldl_cons, ih, SortedMap.contains_insert]
    simp only [Bool.or_eq_true, decide_eq_true_eq, mem_cons, exists_eq_or_imp]
    constructor
    · rintro ((here | old) | later)
      · exact .inr (.inl here.symm)
      · exact .inl old
      · exact .inr (.inr later)
    · rintro (old | here | later)
      · exact .inl (.inr old)
      · exact .inl (.inl here.symm)
      · exact .inr later

theorem keyed_insert {m : SortedMap Digest BatchPayload} {p : BatchPayload}
    (h : ∀ d q, m.get? d = some q → q.digest = d) (d : Digest) (q : BatchPayload)
    (hq : (m.insert p.digest p).get? d = some q) : q.digest = d := by
  rw [SortedMap.get?_insert] at hq
  split_ifs at hq with same
  · cases hq
    exact same.symm
  · exact h d q hq

def nextPayload (c : Core) (part : BatchPart) : BatchPayload :=
  BatchPayload.sealParts c.committee.epoch c.me c.nextBatchSequence [part]

theorem oversized_iff (c : Core) (part : BatchPart) : Oversized (c.nextPayload part) ↔
    maxBatchBytes < (c.nextPayload part).body.length ∨ maxTransactionsPerBlock < part.transactions := by
  have count : (c.nextPayload part).transactions = min part.transactions u32Max := by
    simp [nextPayload, BatchPayload.sealParts]
  have small : maxTransactionsPerBlock < u32Max := by
    unfold maxTransactionsPerBlock u32Max
    decide
  unfold Oversized
  rw [count]
  refine or_congr_right ?_
  rw [lt_min_iff]
  exact and_iff_left small

theorem owned_refuse {c : Core} (h : c.Owned) (part : BatchPart)
    (why : c.halted = true ∨ Oversized (c.nextPayload part)) :
    (c.emit (.unordered (c.nextPayload part))).Owned := by
  have back : (c.emit (.unordered (c.nextPayload part))).returned =
      c.returned ++ [c.nextPayload part] := by
    simp only [returned, emit, filterMap_append]
    rfl
  refine ⟨⟨h.tidy.unintroduced, h.tidy.introduced, ?_, h.tidy.payloads, h.tidy.notes,
    h.tidy.segments, h.tidy.accepted⟩, ?_⟩
  · intro q hq
    rw [back] at hq
    cases mem_append.1 hq with
    | inl old => exact h.tidy.returned q old
    | inr new =>
      cases mem_singleton.1 new
      exact .inr why
  · intro fair
    have housed := h.housed fair
    refine ⟨?_, housed.held⟩
    intro p hp
    have other : p ≠ c.nextPayload part := by
      rintro rfl
      exact absurd (h.tidy.accepted _ hp).2 (lt_irrefl _)
    refine existsUnique_moved (f := id) ?_ ?_ (housed.one p hp)
    · intro x hx
      cases x with
      | returned => exact mem_append_left _ hx
      | _ => exact hx
    · intro y hy
      refine ⟨y, ?_, rfl⟩
      cases y with
      | returned =>
        cases mem_append.1 hy with
        | inl old => exact old
        | inr new =>
          cases mem_singleton.1 new
          exact absurd rfl other
      | _ => exact hy

def acceptPart (c : Core) (part : BatchPart) : Core :=
  { c with
    nextBatchSequence := c.nextBatchSequence + 1
    payloadRound := c.payloadRound.insert (c.nextPayload part).digest (c.round.getD 0)
    payloads := c.payloads.insert (c.nextPayload part).digest (c.nextPayload part)
    journal := c.journal ++ [Record.batch (c.nextPayload part)]
    ownUnintroduced := c.ownUnintroduced ++ [(c.nextPayload part).reference]
    outbox := c.outbox ++ [(Target.all, Message.batch (c.nextPayload part))] }

theorem accepted_acceptPart (c : Core) (part : BatchPart) :
    (c.acceptPart part).accepted = c.accepted ++ [c.nextPayload part] := by
  simp only [accepted, acceptPart, batchesOf, filterMap_append]
  rfl

theorem past_acceptPart {c : Core} {q : BatchPayload} (part : BatchPart) (h : c.Past q) :
    (c.acceptPart part).Past q :=
  h.imp_right Nat.lt_succ_of_lt

theorem tidy_acceptPart {c : Core} (h : c.Tidy) (part : BatchPart) : (c.acceptPart part).Tidy := by
  refine ⟨?_, ?_, ?_, ?_, ?_, h.segments, ?_⟩
  · intro b hb
    cases mem_append.1 hb with
    | inl old =>
      obtain ⟨q, hq, past⟩ := h.unintroduced b old
      exact ⟨q, hq, past_acceptPart part past⟩
    | inr new =>
      cases mem_singleton.1 new
      exact ⟨c.nextPayload part, rfl, .inr (Nat.lt_succ_self _)⟩
  · intro d hd
    obtain ⟨q, hq, past⟩ := h.introduced d hd
    exact ⟨q, hq, past_acceptPart part past⟩
  · exact fun q hq => (h.returned q hq).imp_left (past_acceptPart part)
  · exact keyed_insert h.payloads
  · exact fun n hn => Nat.le_succ_of_le (h.notes n hn)
  · intro p hp
    rw [accepted_acceptPart] at hp
    cases mem_append.1 hp with
    | inl old => exact ⟨(h.accepted p old).1, Nat.lt_succ_of_lt (h.accepted p old).2⟩
    | inr new =>
      cases mem_singleton.1 new
      exact ⟨rfl, Nat.lt_succ_self _⟩

theorem contains_eraseAll {α : Type} (f : α → Digest) (l : List α) (m : SortedMap Digest ℕ)
    (d : Digest) : (l.foldl (fun m x => m.erase (f x)) m).contains d = true ↔
      m.contains d = true ∧ ∀ x ∈ l, f x ≠ d := by
  induction l generalizing m with
  | nil => simp
  | cons a l ih =>
    rw [foldl_cons, ih]
    simp only [SortedMap.contains, SortedMap.get?_erase, forall_mem_cons]
    by_cases same : d = f a
    · simp [same]
    · simp [same, Ne.symm same]

theorem contains_eraseOwn (me : ValidatorIndex) (l : List OrderedBatch) (m : SortedMap Digest ℕ)
    (d : Digest) :
    (l.foldl (fun m (b : OrderedBatch) => if b.author = me then m.erase b.batch.digest else m)
      m).contains d = true ↔
      m.contains d = true ∧ ¬ ∃ b ∈ l, b.author = me ∧ b.batch.digest = d := by
  induction l generalizing m with
  | nil => simp
  | cons a l ih =>
    rw [foldl_cons, ih]
    simp only [mem_cons, exists_eq_or_imp, not_or]
    by_cases mine : a.author = me
    · simp only [mine, if_true, true_and, SortedMap.contains, SortedMap.get?_erase]
      by_cases same : d = a.batch.digest
      · simp [same]
      · simp [same, Ne.symm same]
    · simp [mine]

theorem flatten_blockChunks (max : ℕ) (l : List OrderedBatch) (n : ℕ) (chunk : List OrderedBatch) :
    (blockChunks max l n chunk).flatten = chunk ++ l := by
  induction l generalizing n chunk with
  | nil => simp [blockChunks]
  | cons b l ih =>
    unfold blockChunks
    split_ifs
    · rw [flatten_cons, ih]
      simp
    · rw [ih]
      simp

theorem mem_skippedOwn {c : Core} {d : Digest} {q : BatchPayload} : (d, q) ∈ c.skippedOwn ↔
    c.ownIntroduced.contains d = true ∧ c.payloads.get? d = some q ∧
      q.sequence < c.availability.releasedThrough c.me := by
  unfold skippedOwn
  simp only [mem_insertionSort, mem_filterMap, SortedMap.mem_keys, Option.map_eq_some_iff,
    Option.filter_eq_some_iff, decide_eq_true_eq, Prod.mk.injEq]
  constructor
  · rintro ⟨d', intro', q', ⟨held, low⟩, rfl, rfl⟩
    exact ⟨SortedMap.contains_eq_true.2 intro', held, low⟩
  · rintro ⟨intro', held, low⟩
    exact ⟨d, SortedMap.contains_eq_true.1 intro', q, ⟨held, low⟩, rfl, rfl⟩

/-- The first own sequence a commit leaves unreleased. -/
def ownThrough (c : Core) (anchor : VertexRef) : ℕ :=
  (c.availabilityOf anchor).release.1.releasedThrough c.me

def noteOf (c : Core) (anchor : VertexRef) : CommitNote :=
  ⟨c.ownUnintroduced, c.returned, c.nextBatchSequence, c.ownThrough anchor, c.releasedBy anchor⟩

def OwnPlace.committed (released passed : Bool) : OwnPlace → OwnPlace
  | .unintroduced => if passed then .released else .unintroduced
  | .introduced => if released then .released else if passed then .returned else .introduced
  | x => x

section Commit
variable (c : Core) (anchor : VertexRef)

theorem commits_makeSegments : (c.makeSegments anchor).commits = c.commits ++ [c.noteOf anchor] := rfl

theorem unintroduced_makeSegments (b : BatchRef) : b ∈ (c.makeSegments anchor).ownUnintroduced ↔
    b ∈ c.ownUnintroduced ∧ c.ownThrough anchor ≤ b.sequence := by
  have kept : (c.makeSegments anchor).ownUnintroduced =
    c.ownUnintroduced.filter (fun b => c.ownThrough anchor ≤ b.sequence) := rfl
  rw [kept, mem_filter, decide_eq_true_eq]

def unskipped : Core :=
  { c.orderHistory anchor with
    ownIntroduced := (c.releasedBy anchor).foldl (fun m (b : OrderedBatch) =>
      if b.author = c.me then m.erase b.batch.digest else m) c.ownIntroduced }

theorem skipped_makeSegments :
    (c.makeSegments anchor).ownIntroduced = (c.unskipped anchor).skippedOwn.foldl
        (fun m e => m.erase e.1) (c.unskipped anchor).ownIntroduced ∧
      (c.makeSegments anchor).returned =
        c.returned ++ (c.unskipped anchor).skippedOwn.map Prod.snd := by
  refine ⟨rfl, ?_⟩
  have events : (c.makeSegments anchor).events = c.events ++
    (c.unskipped anchor).skippedOwn.map (fun e => .unordered e.2) := rfl
  unfold returned
  rw [events, filterMap_append, filterMap_map]
  simp [comp_def, Event.returned]

theorem mem_skipped {d : Digest} {q : BatchPayload} : (d, q) ∈ (c.unskipped anchor).skippedOwn ↔
    (c.ownIntroduced.contains d = true ∧
      ¬ ∃ b ∈ c.releasedBy anchor, b.author = c.me ∧ b.batch.digest = d) ∧
    c.payloads.get? d = some q ∧ q.sequence < c.ownThrough anchor := by
  rw [mem_skippedOwn]
  have tracked : (c.unskipped anchor).ownIntroduced.contains d = true ↔ _ :=
    contains_eraseOwn c.me (c.releasedBy anchor) c.ownIntroduced d
  rw [tracked]
  rfl

theorem introduced_makeSegments (d : Digest) :
    (c.makeSegments anchor).ownIntroduced.contains d = true ↔
      (c.ownIntroduced.contains d = true ∧
        ¬ ∃ b ∈ c.releasedBy anchor, b.author = c.me ∧ b.batch.digest = d) ∧
      ∀ q, c.payloads.get? d = some q → c.ownThrough anchor ≤ q.sequence := by
  have tracked : (c.unskipped anchor).ownIntroduced.contains d = true ↔ _ :=
    contains_eraseOwn c.me (c.releasedBy anchor) c.ownIntroduced d
  rw [(skipped_makeSegments c anchor).1, contains_eraseAll, tracked]
  constructor
  · rintro ⟨here, apart⟩
    refine ⟨here, ?_⟩
    intro q hq
    by_contra low
    exact apart (d, q) ((mem_skipped c anchor).2 ⟨here, hq, not_le.1 low⟩) rfl
  · rintro ⟨here, high⟩
    refine ⟨here, ?_⟩
    rintro ⟨d', q⟩ hx rfl
    obtain ⟨-, held, low⟩ := (mem_skipped c anchor).1 hx
    exact absurd (high q held) (not_le.2 low)

theorem segments_makeSegments {b : OrderedBatch} :
    (∃ s ∈ (c.makeSegments anchor).segments, b ∈ s.batches) ↔
      (∃ s ∈ c.segments, b ∈ s.batches) ∨ (b ∈ c.releasedBy anchor ∧
        (c.releasedBy anchor).any (fun b => 0 < b.batch.transactions) = true) := by
  unfold makeSegments makeBlocks
  dsimp only
  generalize c.releasedBy anchor = released
  have old : (c.settle anchor).segments = c.segments := rfl
  rw [old]
  simp only [mem_append, or_and_right, exists_or]
  refine or_congr_right ?_
  split_ifs with holds
  · have chunks : b ∈ released ↔ b ∈ (blockChunks maxTransactionsPerBlock released 0 []).flatten := by
      rw [flatten_blockChunks, nil_append]
    rw [chunks, mem_flatten, and_iff_left holds]
    constructor
    · rintro ⟨s, hs, hb⟩
      obtain ⟨⟨chunk, k⟩, hx, rfl⟩ := mem_map.1 hs
      exact ⟨chunk, fst_mem_of_mem_zipIdx hx, hb⟩
    · rintro ⟨chunk, hc, hb⟩
      obtain ⟨k, hk, rfl⟩ := getElem_of_mem hc
      refine ⟨_, mem_map.2 ⟨((blockChunks maxTransactionsPerBlock released 0 [])[k], k), ?_, rfl⟩, hb⟩
      rw [mem_zipIdx_iff_getElem?]
      exact getElem?_eq_getElem hk
  · simp [holds]

end Commit

theorem owning_collectGarbage (c : Core) (r : ℕ) : (c.collectGarbage r).owning = c.owning := by
  unfold collectGarbage
  split_ifs <;> rfl

section Steps
variable (inj : Injective BatchHash.batchDigest)
include inj

theorem eq_of_digest {p q : BatchPayload} (h : q.digest = p.digest) : q = p := inj h

theorem Tidy.waiting_iff {c : Core} (tidy : c.Tidy) (p : BatchPayload) :
    (∃ b ∈ c.ownUnintroduced, b.digest = p.digest) ↔ p.reference ∈ c.ownUnintroduced := by
  constructor
  · rintro ⟨b, hb, hd⟩
    obtain ⟨q, rfl, -⟩ := tidy.unintroduced b hb
    rw [← eq_of_digest inj hd]
    exact hb
  · exact fun h => ⟨p.reference, h, rfl⟩

theorem owned_introduce {c : Core} (h : c.Owned) (round : ℕ) :
    Owned { c with
      ownUnintroduced := []
      ownIntroduced := c.ownUnintroduced.foldl (fun m b => m.insert b.digest round)
        c.ownIntroduced } := by
  refine ⟨⟨forall_mem_nil _, ?_, h.tidy.returned, h.tidy.payloads, h.tidy.notes,
    h.tidy.segments, h.tidy.accepted⟩, ?_⟩
  · intro d hd
    cases (contains_insertAll ..).1 hd with
    | inl old => exact h.tidy.introduced d old
    | inr new =>
      obtain ⟨b, hb, rfl⟩ := new
      obtain ⟨q, rfl, past⟩ := h.tidy.unintroduced b hb
      exact ⟨q, rfl, past⟩
  · intro fair
    have housed := h.housed fair
    have moved : ∀ p : BatchPayload,
        (c.ownUnintroduced.foldl (fun m b => m.insert b.digest round)
          c.ownIntroduced).contains p.digest = true ↔
          c.At p .introduced ∨ c.At p .unintroduced := by
      intro p
      rw [contains_insertAll, h.tidy.waiting_iff inj]
      rfl
    refine ⟨?_, ?_⟩
    · intro p hp
      refine existsUnique_moved (f := OwnPlace.taken) ?_ ?_ (housed.one p hp)
      · intro x hx
        cases x with
        | unintroduced => exact (moved p).2 (.inr hx)
        | introduced => exact (moved p).2 (.inl hx)
        | released => exact hx
        | returned => exact hx
      · intro y hy
        cases y with
        | unintroduced => cases hy
        | introduced =>
          cases (moved p).1 hy with
          | inl old => exact ⟨.introduced, old, rfl⟩
          | inr new => exact ⟨.unintroduced, new, rfl⟩
        | released => exact ⟨.released, hy, rfl⟩
        | returned => exact ⟨.returned, hy, rfl⟩
    · intro p hp tracked
      refine housed.held p hp ?_
      cases tracked with
      | inl no => cases no
      | inr intro' => exact ((moved p).1 intro').symm

theorem mem_stranded {c : Core} (tidy : c.Tidy) {p : BatchPayload}
    (held : (c.At p .unintroduced ∨ c.At p .introduced) → c.payloads.get? p.digest = some p) :
    p ∈ c.stranded ↔ c.At p .unintroduced ∨ c.At p .introduced := by
  unfold stranded
  rw [mem_filterMap]
  simp only [mem_insertionSort, mem_append, mem_map, SortedMap.mem_keys]
  constructor
  · rintro ⟨d, where', hd⟩
    have same := tidy.payloads d p hd
    subst same
    cases where' with
    | inl intro' => exact .inr (SortedMap.contains_eq_true.2 intro')
    | inr waits => exact .inl ((tidy.waiting_iff inj p).1 waits)
  · intro tracked
    refine ⟨p.digest, ?_, held tracked⟩
    cases tracked with
    | inl waits => exact .inr ⟨p.reference, waits, rfl⟩
    | inr intro' => exact .inl (SortedMap.contains_eq_true.1 intro')

theorem past_of_stranded {c : Core} (tidy : c.Tidy) {q : BatchPayload} (h : q ∈ c.stranded) :
    c.Past q := by
  unfold stranded at h
  rw [mem_filterMap] at h
  simp only [mem_insertionSort, mem_append, mem_map, SortedMap.mem_keys] at h
  obtain ⟨d, where', hd⟩ := h
  have same := tidy.payloads d q hd
  cases where' with
  | inl intro' =>
    obtain ⟨p, hp, past⟩ := tidy.introduced d (SortedMap.contains_eq_true.2 intro')
    rw [← eq_of_digest inj (hp.trans same.symm)]
    exact past
  | inr waits =>
    obtain ⟨b, hb, hbd⟩ := waits
    obtain ⟨p, rfl, past⟩ := tidy.unintroduced b hb
    have : p.digest = q.digest := hbd.trans same.symm
    rw [← eq_of_digest inj this]
    exact past

theorem owned_completeEpoch {c : Core} (h : c.Owned) (cert : Certificate) :
    (c.completeEpoch cert).Owned := by
  have back : (c.completeEpoch cert).returned = c.returned ++ c.stranded := by
    simp only [returned, completeEpoch, filterMap_append, filterMap_map]
    simp [comp_def, Event.returned]
  refine ⟨⟨forall_mem_nil _, ?_, ?_, h.tidy.payloads, h.tidy.notes, h.tidy.segments,
    h.tidy.accepted⟩, ?_⟩
  · intro d hd
    cases hd
  · intro q hq
    rw [back] at hq
    cases mem_append.1 hq with
    | inl old => exact h.tidy.returned q old
    | inr new => exact .inl (past_of_stranded inj h.tidy new)
  · intro fair
    have housed := h.housed fair
    refine ⟨?_, ?_⟩
    · intro p hp
      have stranded := mem_stranded inj h.tidy (housed.held p hp)
      have returned : (c.completeEpoch cert).At p .returned ↔ p ∈ c.returned ∨ p ∈ c.stranded := by
        unfold At
        rw [← mem_returned, back, mem_append]
      refine existsUnique_moved (f := OwnPlace.stranded) ?_ ?_ (housed.one p hp)
      · intro x hx
        cases x with
        | unintroduced => exact returned.2 (.inr (stranded.2 (.inl hx)))
        | introduced => exact returned.2 (.inr (stranded.2 (.inr hx)))
        | released => exact hx
        | returned => exact returned.2 (.inl (mem_returned.2 hx))
      · intro y hy
        cases y with
        | unintroduced => cases hy
        | introduced => cases hy
        | released => exact ⟨.released, hy, rfl⟩
        | returned =>
          cases returned.1 hy with
          | inl old => exact ⟨.returned, mem_returned.1 old, rfl⟩
          | inr new =>
            cases stranded.1 new with
            | inl waits => exact ⟨.unintroduced, waits, rfl⟩
            | inr intro' => exact ⟨.introduced, intro', rfl⟩
    · intro p hp tracked
      cases tracked with
      | inl no => cases no
      | inr no => cases no

theorem get?_insert_digest {m : SortedMap Digest BatchPayload} {p q : BatchPayload}
    (h : m.get? p.digest = some p) : (m.insert q.digest q).get? p.digest = some p := by
  rw [SortedMap.get?_insert]
  split_ifs with same
  · rw [eq_of_digest inj same]
  · exact h

theorem at_nextPayload {c : Core} (h : c.Tidy) {part : BatchPart} (running : c.halted = false)
    (fits : ¬ Oversized (c.nextPayload part)) (fair : (c.acceptPart part).Fair) (y : OwnPlace) :
    (c.acceptPart part).At (c.nextPayload part) y ↔ y = .unintroduced := by
  have new : ¬ c.Past (c.nextPayload part) := by
    rintro (other | low)
    · exact other rfl
    · exact absurd low (lt_irrefl _)
  constructor
  · intro hy
    cases y with
    | unintroduced => rfl
    | introduced =>
      obtain ⟨q, hq, past⟩ := h.introduced _ hy
      rw [eq_of_digest inj hq] at past
      exact absurd past new
    | released =>
      obtain ⟨s, hs, b, hb, names⟩ := hy
      obtain ⟨n, hn, released⟩ := h.segments s hs b hb
      have mine : c.nextPayload part ∈ (c.acceptPart part).accepted := by
        rw [accepted_acceptPart]
        exact mem_append_right _ mem_cons_self
      have known := ((fair n hn _ mine).released ⟨b, released, names⟩).2.1
      exact absurd (known.trans_le (h.notes n hn)) (lt_irrefl _)
    | returned =>
      rcases h.returned _ (mem_returned.2 hy) with past | halted | big
      · exact absurd past new
      · rw [running] at halted
        cases halted
      · exact absurd big fits
  · rintro rfl
    exact mem_append_right _ mem_cons_self

theorem owned_acceptPart {c : Core} (h : c.Owned) {part : BatchPart} (running : c.halted = false)
    (fits : ¬ Oversized (c.nextPayload part)) : (c.acceptPart part).Owned := by
  refine ⟨tidy_acceptPart h.tidy part, ?_⟩
  intro fair
  have before : c.Fair := by
    intro n hn p hp
    refine fair n hn p ?_
    rw [accepted_acceptPart]
    exact mem_append_left _ hp
  have housed := h.housed before
  have waits : ∀ p ∈ c.accepted, p.reference ∈ c.ownUnintroduced ++ [(c.nextPayload part).reference] →
      p.reference ∈ c.ownUnintroduced := by
    intro p hp mem
    cases mem_append.1 mem with
    | inl old => exact old
    | inr new =>
      have same := congrArg BatchRef.digest (mem_singleton.1 new)
      have this : p = c.nextPayload part := eq_of_digest inj same
      have low := (h.tidy.accepted p hp).2
      rw [this] at low
      exact absurd low (lt_irrefl _)
  refine ⟨?_, ?_⟩
  · intro p hp
    rw [accepted_acceptPart] at hp
    cases mem_append.1 hp with
    | inl old =>
      refine existsUnique_moved (f := id) ?_ ?_ (housed.one p old)
      · intro x hx
        cases x with
        | unintroduced => exact mem_append_left _ hx
        | _ => exact hx
      · intro y hy
        refine ⟨y, ?_, rfl⟩
        cases y with
        | unintroduced => exact waits p old hy
        | _ => exact hy
    | inr new =>
      cases mem_singleton.1 new
      refine ⟨.unintroduced, (at_nextPayload inj h.tidy running fits fair _).2 rfl, ?_⟩
      exact fun y hy => (at_nextPayload inj h.tidy running fits fair y).1 hy
  · intro p hp tracked
    rw [accepted_acceptPart] at hp
    cases mem_append.1 hp with
    | inl old =>
      refine get?_insert_digest inj (housed.held p old ?_)
      exact tracked.imp_left (waits p old)
    | inr new =>
      cases mem_singleton.1 new
      exact SortedMap.get?_insert_self ..

theorem owned_submitPart {c : Core} (h : c.Owned) (part : BatchPart) : (c.submitPart part).Owned := by
  have cases' : c.submitPart part = if c.halted = true ∨
      maxBatchBytes < (c.nextPayload part).body.length ∨ maxTransactionsPerBlock < part.transactions
    then c.emit (.unordered (c.nextPayload part)) else c.acceptPart part := rfl
  rw [cases']
  split_ifs with refused
  · exact owned_refuse h part (refused.imp_right (oversized_iff c part).2)
  · push Not at refused
    refine owned_acceptPart inj h (Bool.eq_false_iff.2 refused.1) ?_
    rw [oversized_iff]
    push Not
    exact refused.2

theorem past_makeSegments {c : Core} (tidy : c.Tidy) {anchor : VertexRef} {d : Digest}
    {q : BatchPayload} (h : (d, q) ∈ (c.unskipped anchor).skippedOwn) : c.Past q := by
  obtain ⟨⟨tracked, -⟩, held, -⟩ := (mem_skipped c anchor).1 h
  obtain ⟨p, hp, past⟩ := tidy.introduced d tracked
  rw [← eq_of_digest inj (hp.trans (tidy.payloads d q held).symm)]
  exact past

theorem tidy_makeSegments {c : Core} (h : c.Tidy) (anchor : VertexRef) :
    (c.makeSegments anchor).Tidy := by
  refine ⟨?_, ?_, ?_, h.payloads, ?_, ?_, h.accepted⟩
  · intro b hb
    exact h.unintroduced b ((unintroduced_makeSegments c anchor b).1 hb).1
  · intro d hd
    exact h.introduced d ((introduced_makeSegments c anchor d).1 hd).1.1
  · intro q hq
    rw [(skipped_makeSegments c anchor).2] at hq
    cases mem_append.1 hq with
    | inl old => exact h.returned q old
    | inr new =>
      obtain ⟨⟨d, q⟩, hx, rfl⟩ := mem_map.1 new
      exact .inl (past_makeSegments inj h hx)
  · intro n hn
    rw [commits_makeSegments] at hn
    cases mem_append.1 hn with
    | inl old => exact h.notes n old
    | inr new =>
      cases mem_singleton.1 new
      exact le_refl _
  · intro s hs b hb
    rw [commits_makeSegments]
    cases (segments_makeSegments c anchor).1 ⟨s, hs, hb⟩ with
    | inl old =>
      obtain ⟨s, hs, hb⟩ := old
      obtain ⟨n, hn, mem⟩ := h.segments s hs b hb
      exact ⟨n, mem_append_left _ hn, mem⟩
    | inr new => exact ⟨c.noteOf anchor, mem_append_right _ mem_cons_self, new.1⟩

theorem housed_makeSegments {c : Core} (tidy : c.Tidy) (housed : c.Housed) (anchor : VertexRef)
    (fair : ∀ p ∈ c.accepted, CommitNote.Fair c.me p (c.noteOf anchor)) :
    (c.makeSegments anchor).Housed := by
  have same : (c.makeSegments anchor).accepted = c.accepted := rfl
  have waits : ∀ p : BatchPayload, (c.makeSegments anchor).At p .unintroduced ↔
      c.At p .unintroduced ∧ c.ownThrough anchor ≤ p.sequence :=
    fun p => unintroduced_makeSegments c anchor p.reference
  have tracked : ∀ p : BatchPayload, (c.makeSegments anchor).At p .introduced ↔ _ :=
    fun p => introduced_makeSegments c anchor p.digest
  refine ⟨?_, ?_⟩
  · intro p hp
    rw [same] at hp
    obtain ⟨waiting, released⟩ := fair p hp
    have held := housed.held p hp
    let out : Prop := ∃ b ∈ c.releasedBy anchor, Names c.me p b
    have shown : (c.makeSegments anchor).At p .released ↔ c.At p .released ∨ out := by
      constructor
      · rintro ⟨s, hs, b, hb, names⟩
        cases (segments_makeSegments c anchor).1 ⟨s, hs, hb⟩ with
        | inl old =>
          obtain ⟨s, hs, hb⟩ := old
          exact .inl ⟨s, hs, b, hb, names⟩
        | inr new => exact .inr ⟨b, new.1, names⟩
      · rintro (⟨s, hs, b, hb, names⟩ | ⟨b, hb, names⟩)
        · obtain ⟨s, hs, hb⟩ := (segments_makeSegments c anchor).2 (.inl ⟨s, hs, hb⟩)
          exact ⟨s, hs, b, hb, names⟩
        · have holds := (released ⟨b, hb, names⟩).2.2
          obtain ⟨s, hs, hb⟩ := (segments_makeSegments c anchor).2 (.inr ⟨hb, holds⟩)
          exact ⟨s, hs, b, hb, names⟩
    have back : (c.makeSegments anchor).At p .returned ↔ c.At p .returned ∨
        (c.At p .introduced ∧ ¬ out) ∧ p.sequence < c.ownThrough anchor := by
      unfold At
      rw [← mem_returned, (skipped_makeSegments c anchor).2, mem_append, mem_returned]
      refine or_congr_right ?_
      constructor
      · intro hx
        obtain ⟨⟨d, q⟩, mem, rfl⟩ := mem_map.1 hx
        obtain ⟨here, got, low⟩ := (mem_skipped c anchor).1 mem
        have digest := tidy.payloads d q got
        dsimp only at digest ⊢
        subst digest
        exact ⟨here, low⟩
      · rintro ⟨here, low⟩
        refine mem_map.2 ⟨(p.digest, p), (mem_skipped c anchor).2 ⟨here, ?_, low⟩, rfl⟩
        exact held (.inr here.1)
    obtain ⟨gone, hgone⟩ : ∃ r : Bool, r = true ↔ out :=
      ⟨@decide out (Classical.dec _), @decide_eq_true_iff _ (Classical.dec _)⟩
    obtain ⟨passed, hpassed⟩ : ∃ t : Bool, t = true ↔ p.sequence < c.ownThrough anchor :=
      ⟨decide (p.sequence < c.ownThrough anchor), decide_eq_true_iff⟩
    refine existsUnique_moved (f := OwnPlace.committed gone passed) ?_ ?_ (housed.one p hp)
    · intro x hx
      cases x with
      | unintroduced =>
        cases passed with
        | true => exact shown.2 (.inr ((waiting hx).1 (hpassed.1 rfl)))
        | false => exact (waits p).2 ⟨hx, not_lt.1 (fun low => nomatch hpassed.2 low)⟩
      | introduced =>
        cases gone with
        | true => exact shown.2 (.inr (hgone.1 rfl))
        | false =>
          have kept : ¬ out := fun out => nomatch hgone.2 out
          cases passed with
          | true => exact back.2 (.inr ⟨⟨hx, kept⟩, hpassed.1 rfl⟩)
          | false =>
            refine (tracked p).2 ⟨⟨hx, kept⟩, ?_⟩
            intro q hq
            rw [held (.inr hx)] at hq
            cases hq
            exact not_lt.1 (fun low => nomatch hpassed.2 low)
      | released => exact shown.2 (.inl hx)
      | returned => exact back.2 (.inl hx)
    · intro y hy
      cases y with
      | unintroduced =>
        obtain ⟨here, high⟩ := (waits p).1 hy
        have stays : passed = false := Bool.eq_false_iff.2 (fun h => absurd (hpassed.1 h) (not_lt.2 high))
        exact ⟨.unintroduced, here, by rw [stays]; rfl⟩
      | introduced =>
        obtain ⟨⟨here, kept⟩, high⟩ := (tracked p).1 hy
        have low := high p (held (.inr here))
        have stays : passed = false := Bool.eq_false_iff.2 (fun h => absurd (hpassed.1 h) (not_lt.2 low))
        have kept' : gone = false := Bool.eq_false_iff.2 (fun h => kept (hgone.1 h))
        exact ⟨.introduced, here, by rw [stays, kept']; rfl⟩
      | released =>
        cases shown.1 hy with
        | inl old => exact ⟨.released, old, rfl⟩
        | inr new =>
          obtain ⟨x, hx, -⟩ := housed.one p hp
          refine ⟨x, hx, ?_⟩
          rw [hgone.2 new]
          cases x with
          | unintroduced =>
            rw [hpassed.2 ((waiting hx).2 new)]
            rfl
          | introduced => rfl
          | released => rfl
          | returned => exact absurd (mem_returned.2 hx) (released new).1
      | returned =>
        cases back.1 hy with
        | inl old => exact ⟨.returned, old, rfl⟩
        | inr new =>
          obtain ⟨⟨here, kept⟩, low⟩ := new
          have kept' : gone = false := Bool.eq_false_iff.2 (fun h => kept (hgone.1 h))
          exact ⟨.introduced, here, by rw [kept', hpassed.2 low]; rfl⟩
  · intro p hp where'
    refine housed.held p hp ?_
    cases where' with
    | inl waiting => exact .inl ((waits p).1 waiting).1
    | inr intro' => exact .inr ((tracked p).1 intro').1.1

theorem through_makeSegments {c : Core} (h : c.Owned) (anchor : VertexRef) (fair : c.Fair)
    {p : BatchPayload} (hp : p ∈ c.accepted)
    (tracked : (c.makeSegments anchor).At p .unintroduced ∨ (c.makeSegments anchor).At p .introduced) :
    c.ownThrough anchor ≤ p.sequence := by
  cases tracked with
  | inl waits => exact ((unintroduced_makeSegments c anchor p.reference).1 waits).2
  | inr intro' =>
    obtain ⟨⟨here, -⟩, high⟩ := (introduced_makeSegments c anchor p.digest).1 intro'
    exact high p ((h.housed fair).held p hp (.inr here))

theorem owned_makeSegments {c : Core} (h : c.Owned) (anchor : VertexRef) :
    (c.makeSegments anchor).Owned := by
  refine ⟨tidy_makeSegments inj h.tidy anchor, ?_⟩
  intro fair
  have before : c.Fair := fun n hn => fair n (mem_append_left _ hn)
  refine housed_makeSegments inj h.tidy (h.housed before) anchor ?_
  exact fair (c.noteOf anchor) (mem_append_right _ mem_cons_self)

theorem owned_collectGarbage {c : Core} (h : c.Owned)
    (through : c.Fair → ∀ p ∈ c.accepted, c.At p .unintroduced ∨ c.At p .introduced →
      c.availability.releasedThrough c.me ≤ p.sequence) (r : ℕ) : (c.collectGarbage r).Owned := by
  have halted : (c.collectGarbage r).halted = c.halted := by
    unfold collectGarbage
    split_ifs <;> rfl
  have payloads : (c.collectGarbage r).payloads = c.payloads ∨
      (c.collectGarbage r).payloads = c.payloads.filter (c.keepsPayload (r - c.cfg.gcDepth)) := by
    unfold collectGarbage
    split_ifs
    · exact .inl rfl
    · exact .inr rfl
  refine h.of_owning (owning_collectGarbage c r) (by rw [halted]; exact id) ?_ ?_
  · intro d q hq
    cases payloads with
    | inl same => exact .inl (same ▸ hq)
    | inr cut =>
      rw [cut] at hq
      exact .inl (SortedMap.get?_filter_eq_some.1 hq).1
  · intro fair p hp tracked
    have held := (h.housed fair).held p hp tracked
    cases payloads with
    | inl same => rw [same, held]
    | inr cut =>
      rw [cut]
      refine SortedMap.get?_filter_eq_some.2 ⟨held, ?_⟩
      have high := through fair p hp tracked
      rw [← (h.tidy.accepted p hp).1] at high
      unfold keepsPayload
      refine Bool.or_eq_true_iff.2 (.inr ?_)
      rw [Bool.and_eq_true]
      refine ⟨decide_eq_true high, ?_⟩
      rw [Bool.or_eq_true]
      exact .inl (decide_eq_true (h.tidy.accepted p hp).1)

end Steps

end Core

end Tenzro
