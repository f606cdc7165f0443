import Tenzro.Committee

set_option autoImplicit false
set_option linter.dupNamespace false

/-!
# What one validator's counts say

`takeSignal` counts one signal and says which kinds are sent because of it;
`onSignal` hands each of those back to the validator itself, as the source
does. Every counted signal and every taken proposal keeps `Instance.Counts`.
-/
namespace Tenzro
open Function Option SortedMap

inductive SignalKind where
  | echo
  | vote
  | ack
  | ready
deriving DecidableEq, Repr

structure Signal where
  kind : SignalKind
  round : ℕ
  source : ValidatorIndex
  digest : Digest
deriving DecidableEq, Repr

inductive RbcAction where
  | broadcast (s : Signal)
  | deliver (round : ℕ) (source : ValidatorIndex) (digest : Digest)
deriving DecidableEq, Repr

structure Tally where
  byKind : SignalKind → SeatSet
  nonAuthor : SignalKind → ℕ

def Tally.empty : Tally := ⟨fun _ => .empty, fun _ => 0⟩

structure Instance where
  proposed : Option Digest
  counted : SignalKind → SeatSet
  tallies : SortedMap Digest Tally
  sent : SignalKind → Option Digest
  delivered : Option Digest

namespace Instance

def empty : Instance := ⟨none, fun _ => .empty, .empty, fun _ => none, none⟩

def tally (inst : Instance) (d : Digest) : Tally := inst.tallies.getD d .empty

def count (inst : Instance) (c : Committee) (frm : ValidatorIndex) (s : Signal) : Instance :=
  let t := inst.tally s.digest
  { inst with
    counted := update inst.counted s.kind ((inst.counted s.kind).insert frm (c.seats frm)).1
    tallies := inst.tallies.insert s.digest
      { byKind := update t.byKind s.kind ((t.byKind s.kind).insert frm (c.seats frm)).1
        nonAuthor := update t.nonAuthor s.kind
          (t.nonAuthor s.kind + c.nonBroadcasterWeight frm s.source) } }

def wants (inst : Instance) (c : Committee) (d : Digest) : SignalKind → Bool
  | .echo => false
  | .vote => c.rbcVoteThreshold ≤ (inst.tally d).nonAuthor .echo
  | .ack => c.rbcAckThreshold ≤ (inst.tally d).nonAuthor .echo ||
      c.rbcAckThreshold ≤ (inst.tally d).nonAuthor .vote
  | .ready => c.rbcAckThreshold ≤ (inst.tally d).nonAuthor .ack ||
      c.validity ≤ ((inst.tally d).byKind .ready).weight

/-- The kinds the counts for `d` call for and this validator has not sent. -/
def due (inst : Instance) (c : Committee) (d : Digest) : List SignalKind :=
  [.vote, .ack, .ready].filter (fun k => inst.wants c d k && (inst.sent k).isNone)

def delivers (inst : Instance) (c : Committee) (d : Digest) : Bool :=
  inst.delivered.isNone &&
    (c.rbcFastThreshold ≤ (inst.tally d).nonAuthor .echo ||
      c.readyDelivery ≤ ((inst.tally d).byKind .ready).weight)

def answer (inst : Instance) (c : Committee) (d : Digest) : Instance :=
  { inst with
    sent := fun k => if k ∈ inst.due c d then some d else inst.sent k
    delivered := if inst.delivers c d then some d else inst.delivered }

end Instance

structure ReliableBroadcast where
  me : ValidatorIndex
  instances : SortedMap (ℕ ×ₗ ValidatorIndex) Instance
  floor : ℕ

namespace ReliableBroadcast

def new (me : ValidatorIndex) : ReliableBroadcast := ⟨me, .empty, 0⟩

def inst (b : ReliableBroadcast) (round : ℕ) (source : ValidatorIndex) : Instance :=
  b.instances.getD (toLex (round, source)) .empty

def setInst (b : ReliableBroadcast) (round : ℕ) (source : ValidatorIndex) (i : Instance) :
    ReliableBroadcast :=
  { b with instances := b.instances.insert (toLex (round, source)) i }

def proposed (b : ReliableBroadcast) (round : ℕ) (source : ValidatorIndex) : Option Digest :=
  (b.inst round source).proposed

def delivered (b : ReliableBroadcast) (round : ℕ) (source : ValidatorIndex) : Option Digest :=
  (b.inst round source).delivered

def takeSignal (b : ReliableBroadcast) (c : Committee) (frm : ValidatorIndex) (s : Signal) :
    ReliableBroadcast × List RbcAction × List SignalKind :=
  if s.round < b.floor ∨ c.member s.source = none ∨ c.member frm = none then (b, [], [])
  else
    let old := b.inst s.round s.source
    if (old.counted s.kind).contains frm then
      (b.setInst s.round s.source old, [], [])
    else
      let counted := old.count c frm s
      let due := counted.due c s.digest
      (b.setInst s.round s.source (counted.answer c s.digest),
        due.map (fun k => .broadcast { s with kind := k }) ++
          (if counted.delivers c s.digest then [.deliver s.round s.source s.digest] else []),
        due)

/-- Every nested call is for a kind not sent before, so four levels reach the end. -/
def onSignalFuel : ℕ → ReliableBroadcast → Committee → ValidatorIndex → Signal →
    ReliableBroadcast × List RbcAction
  | 0, b, _, _, _ => (b, [])
  | n + 1, b, c, frm, s =>
    let (b', out, loopback) := b.takeSignal c frm s
    loopback.foldl
      (fun acc k =>
        let r := onSignalFuel n acc.1 c b.me { s with kind := k }
        (r.1, acc.2 ++ r.2))
      (b', out)

def onSignal (b : ReliableBroadcast) (c : Committee) (frm : ValidatorIndex) (s : Signal) :
    ReliableBroadcast × List RbcAction :=
  onSignalFuel 4 b c frm s

/-- `on_propose` up to the loopback of its echo. -/
def takeProposal (b : ReliableBroadcast) (c : Committee) (frm : ValidatorIndex) (round : ℕ)
    (source : ValidatorIndex) (d : Digest) : ReliableBroadcast × List RbcAction × Bool :=
  if frm ≠ source ∨ round < b.floor then (b, [], false)
  else
    let old := b.inst round source
    if old.proposed.isSome then (b.setInst round source old, [], false)
    else if c.size = 1 then
      (b.setInst round source { old with proposed := some d, delivered := some d },
        [.deliver round source d], false)
    else
      (b.setInst round source
          { old with proposed := some d, sent := update old.sent .echo (some d) },
        [.broadcast ⟨.echo, round, source, d⟩], true)

def onPropose (b : ReliableBroadcast) (c : Committee) (frm : ValidatorIndex) (round : ℕ)
    (source : ValidatorIndex) (d : Digest) : ReliableBroadcast × List RbcAction :=
  let (b', out, echoed) := b.takeProposal c frm round source d
  if echoed then
    let r := b'.onSignal c b.me ⟨.echo, round, source, d⟩
    (r.1, out ++ r.2)
  else (b', out)

def restoreSent (b : ReliableBroadcast) (c : Committee) (s : Signal) : ReliableBroadcast :=
  if s.round < b.floor ∨ c.member s.source = none then b
  else
    let old := b.inst s.round s.source
    let marked : Instance :=
      { old with
        sent := update old.sent s.kind (some s.digest)
        proposed := if s.kind = .echo ∧ old.proposed = none then some s.digest else old.proposed }
    b.setInst s.round s.source
      (if (old.counted s.kind).contains b.me then marked else marked.count c b.me s)

def restoreDelivered (b : ReliableBroadcast) (round : ℕ) (source : ValidatorIndex)
    (d : Digest) : ReliableBroadcast :=
  if round < b.floor then b
  else
    let old := b.inst round source
    b.setInst round source { old with delivered := some (old.delivered.getD d) }

def sentSignals (b : ReliableBroadcast) (fromRound : ℕ) : List Signal :=
  (b.instances.entries.filter (fun e => fromRound ≤ (ofLex e.1).1)).flatMap (fun e =>
    [SignalKind.echo, .vote, .ack, .ready].filterMap (fun k =>
      (e.2.sent k).map (fun d => ⟨k, (ofLex e.1).1, (ofLex e.1).2, d⟩)))

/-- For each author, the lowest round of an instance heard of and not delivered. -/
def undeliveredFrom (b : ReliableBroadcast) : SortedMap ValidatorIndex ℕ :=
  b.instances.entries.foldl (fun out e =>
    let (round, source) := ofLex e.1
    if b.floor ≤ round ∧ e.2.delivered = none then
      out.insert source (min (out.getD source round) round)
    else out) .empty

def pruneBelow (b : ReliableBroadcast) (round : ℕ) : ReliableBroadcast :=
  if round ≤ b.floor then b
  else { b with floor := round, instances := b.instances.filter (fun k _ => round ≤ (ofLex k).1) }

end ReliableBroadcast

open WeightedQuorum

namespace SeatSet

def members (s : SeatSet) : Finset ValidatorIndex := s.toList.toFinset

theorem mem_members {s : SeatSet} {i : ValidatorIndex} : i ∈ s.members ↔ s.contains i = true := by
  rw [members, List.mem_toFinset]
  exact mem_keys.trans contains_eq_true.symm

theorem members_insert (s : SeatSet) (i : ValidatorIndex) (n : ℕ) :
    (s.insert i n).1.members = Insert.insert i s.members := by
  ext j
  rw [Finset.mem_insert, mem_members, mem_members]
  unfold insert
  split_ifs with h
  · constructor
    · exact Or.inr
    · rintro (rfl | hj)
      · exact h
      · exact hj
  · simp [contains, contains_insert]

theorem weight_insert_of_notMem {s : SeatSet} {i : ValidatorIndex} (h : i ∉ s.members) (n : ℕ) :
    (s.insert i n).1.weight = s.weight + n := by
  rw [mem_members] at h
  simp [insert, h]

end SeatSet

namespace Instance

def backers (inst : Instance) (k : SignalKind) (d : Digest) : Finset ValidatorIndex :=
  ((inst.tally d).byKind k).members

def seen (inst : Instance) (k : SignalKind) : Finset ValidatorIndex := (inst.counted k).members

structure Counts (c : Committee) (a : ValidatorIndex) (inst : Instance) : Prop where
  full : ∀ k d, ((inst.tally d).byKind k).weight = weight c.seats (inst.backers k d)
  other : ∀ k d, (inst.tally d).nonAuthor k = weight (c.nonBroadcasterWeight · a) (inst.backers k d)
  backers_seen : ∀ k d, inst.backers k d ⊆ inst.seen k
  seen_backs : ∀ k, ∀ i ∈ inst.seen k, ∃ d, i ∈ inst.backers k d
  seen_member : ∀ k, inst.seen k ⊆ c.indices
  answered : ∀ k d, inst.tallies.contains d = true → inst.wants c d k = true → inst.sent k ≠ none
  complete : ∀ d, inst.tallies.contains d = true →
    c.readyDelivery ≤ ((inst.tally d).byKind .ready).weight → inst.delivered ≠ none
  echoed : inst.proposed = none → inst.sent .echo = none

theorem counts_empty (c : Committee) (a : ValidatorIndex) : empty.Counts c a where
  full _ _ := rfl
  other _ _ := rfl
  backers_seen _ _ := Finset.empty_subset _
  seen_backs _ i h := absurd h (Finset.notMem_empty i)
  seen_member _ := Finset.empty_subset _
  answered _ _ h := absurd h Bool.false_ne_true
  complete _ h := absurd h Bool.false_ne_true
  echoed _ := rfl

section count

variable (inst : Instance) (c : Committee) (frm : ValidatorIndex) (s : Signal)

theorem tally_count (d : Digest) :
    (inst.count c frm s).tally d =
      if d = s.digest then
        { byKind := update (inst.tally s.digest).byKind s.kind
            (((inst.tally s.digest).byKind s.kind).insert frm (c.seats frm)).1
          nonAuthor := update (inst.tally s.digest).nonAuthor s.kind
            ((inst.tally s.digest).nonAuthor s.kind + c.nonBroadcasterWeight frm s.source) }
      else inst.tally d :=
  getD_insert _ _ _ _ _

theorem backers_count (k : SignalKind) (d : Digest) :
    (inst.count c frm s).backers k d =
      if k = s.kind ∧ d = s.digest then insert frm (inst.backers k d) else inst.backers k d := by
  unfold backers
  rw [tally_count]
  by_cases hd : d = s.digest
  · subst hd
    by_cases hk : k = s.kind
    · subst hk
      simp [SeatSet.members_insert]
    · simp [hk]
  · simp [hd]

theorem seen_count (k : SignalKind) :
    (inst.count c frm s).seen k = if k = s.kind then insert frm (inst.seen k) else inst.seen k := by
  by_cases hk : k = s.kind
  · subst hk
    simp [seen, count, SeatSet.members_insert]
  · simp [seen, count, hk]

theorem contains_count (d : Digest) :
    (inst.count c frm s).tallies.contains d = (decide (d = s.digest) || inst.tallies.contains d) :=
  contains_insert _ _ _ _

end count

@[simp] theorem wants_answer (inst : Instance) (c : Committee) (d e : Digest) (k : SignalKind) :
    (inst.answer c d).wants c e k = inst.wants c e k := by
  cases k <;> rfl

theorem mem_due {inst : Instance} {c : Committee} {d : Digest} {k : SignalKind} :
    k ∈ inst.due c d ↔ inst.wants c d k = true ∧ inst.sent k = none := by
  cases k <;> simp [due, wants]

theorem sent_answer_ne_none {inst : Instance} {c : Committee} {d : Digest} {k : SignalKind}
    (h : inst.wants c d k = true ∨ inst.sent k ≠ none) : (inst.answer c d).sent k ≠ none := by
  change (if k ∈ inst.due c d then some d else inst.sent k) ≠ none
  split_ifs with hk
  · exact some_ne_none d
  · rcases h with h | h
    · exact fun hn => hk (mem_due.2 ⟨h, hn⟩)
    · exact h

theorem wants_of_ne {inst : Instance} {c : Committee} {frm : ValidatorIndex} {s : Signal}
    {d : Digest} {k : SignalKind} (h : d ≠ s.digest) :
    (inst.count c frm s).wants c d k = inst.wants c d k := by
  cases k <;> simp [wants, tally_count, h]

theorem Counts.take {c : Committee} {a frm : ValidatorIndex} {s : Signal} {inst : Instance}
    (h : inst.Counts c a) (hs : s.source = a) (hfrm : frm ∈ c.indices)
    (new : frm ∉ inst.seen s.kind) :
    ((inst.count c frm s).answer c s.digest).Counts c a := by
  have fresh : ∀ d, frm ∉ inst.backers s.kind d := fun d hd => new (h.backers_seen _ d hd)
  constructor
  case full =>
    intro k d
    change (((inst.count c frm s).tally d).byKind k).weight =
      weight c.seats ((inst.count c frm s).backers k d)
    rw [backers_count, tally_count]
    by_cases hd : d = s.digest
    · subst hd
      by_cases hk : k = s.kind
      · subst hk
        have := h.full s.kind s.digest
        simp only [if_true, and_self, update_self]
        rw [SeatSet.weight_insert_of_notMem (fresh _), weight_insert (fresh _)]
        omega
      · simpa [hk] using h.full k s.digest
    · simpa [hd] using h.full k d
  case other =>
    intro k d
    change ((inst.count c frm s).tally d).nonAuthor k =
      weight (c.nonBroadcasterWeight · a) ((inst.count c frm s).backers k d)
    rw [backers_count, tally_count]
    by_cases hd : d = s.digest
    · subst hd
      by_cases hk : k = s.kind
      · subst hk
        have := h.other s.kind s.digest
        simp only [if_true, and_self, update_self]
        rw [weight_insert (fresh _), hs]
        omega
      · simpa [hk] using h.other k s.digest
    · simpa [hd] using h.other k d
  case backers_seen =>
    intro k d
    change (inst.count c frm s).backers k d ⊆ (inst.count c frm s).seen k
    rw [backers_count, seen_count]
    by_cases hk : k = s.kind
    · subst hk
      simp only [true_and, if_true]
      split_ifs
      · exact Finset.insert_subset_insert frm (h.backers_seen _ d)
      · exact (h.backers_seen _ d).trans (Finset.subset_insert _ _)
    · simpa [hk] using h.backers_seen k d
  case seen_backs =>
    intro k i hi
    change i ∈ (inst.count c frm s).seen k at hi
    change ∃ d, i ∈ (inst.count c frm s).backers k d
    rw [seen_count] at hi
    have keep : i ∈ inst.seen k → ∃ d, i ∈ (inst.count c frm s).backers k d := by
      intro old
      obtain ⟨d, hd⟩ := h.seen_backs k i old
      refine ⟨d, ?_⟩
      rw [backers_count]
      split_ifs
      · exact Finset.mem_insert_of_mem hd
      · exact hd
    by_cases hk : k = s.kind
    · subst hk
      rw [if_pos rfl, Finset.mem_insert] at hi
      rcases hi with rfl | hi
      · refine ⟨s.digest, ?_⟩
        rw [backers_count, if_pos ⟨rfl, rfl⟩]
        exact Finset.mem_insert_self _ _
      · exact keep hi
    · rw [if_neg hk] at hi
      exact keep hi
  case seen_member =>
    intro k
    change (inst.count c frm s).seen k ⊆ c.indices
    rw [seen_count]
    split_ifs
    · exact Finset.insert_subset hfrm (h.seen_member k)
    · exact h.seen_member k
  case answered =>
    intro k d hd want
    rw [wants_answer] at want
    by_cases same : d = s.digest
    · subst same
      exact sent_answer_ne_none (.inl want)
    · rw [wants_of_ne same] at want
      have hold : inst.tallies.contains d = true := by
        have hd' : (inst.count c frm s).tallies.contains d = true := hd
        rw [contains_count] at hd'
        simpa [same] using hd'
      exact sent_answer_ne_none (.inr (h.answered k d hold want))
  case complete =>
    intro d hd heavy
    change (if (inst.count c frm s).delivers c s.digest then some s.digest
      else inst.delivered) ≠ none
    change c.readyDelivery ≤ (((inst.count c frm s).tally d).byKind .ready).weight at heavy
    split_ifs with hdel
    · exact some_ne_none _
    · by_cases same : d = s.digest
      · subst same
        intro hnone
        apply hdel
        have pending : (inst.count c frm s).delivered = none := hnone
        simp [delivers, pending, heavy]
      · rw [tally_count, if_neg same] at heavy
        have hold : inst.tallies.contains d = true := by
          have hd' : (inst.count c frm s).tallies.contains d = true := hd
          rw [contains_count] at hd'
          simpa [same] using hd'
        exact h.complete d hold heavy
  case echoed =>
    intro hp
    have silent : SignalKind.echo ∉ (inst.count c frm s).due c s.digest := by
      simp [mem_due, wants]
    change (if SignalKind.echo ∈ _ then _ else _) = none
    rw [if_neg silent]
    exact h.echoed hp

theorem Counts.propose {c : Committee} {a : ValidatorIndex} {inst : Instance}
    (h : inst.Counts c a) (d : Digest) :
    ({ inst with proposed := some d, sent := update inst.sent .echo (some d) }
      : Instance).Counts c a := by
  refine ⟨h.full, h.other, h.backers_seen, h.seen_backs, h.seen_member, ?_, h.complete, ?_⟩
  · intro k e he want
    have old := h.answered k e he want
    by_cases hk : k = SignalKind.echo
    · subst hk
      simp
    · simpa [hk] using old
  · intro hp
    exact absurd hp (some_ne_none d)

theorem Counts.deliver {c : Committee} {a : ValidatorIndex} {inst : Instance}
    (h : inst.Counts c a) (d : Digest) :
    ({ inst with proposed := some d, delivered := some d } : Instance).Counts c a := by
  refine ⟨h.full, h.other, h.backers_seen, h.seen_backs, h.seen_member, h.answered, ?_, ?_⟩
  · intro _ _ _
    exact some_ne_none d
  · intro hp
    exact absurd hp (some_ne_none d)

end Instance

end Tenzro
