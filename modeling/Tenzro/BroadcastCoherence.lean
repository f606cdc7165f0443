import Tenzro.BroadcastNetwork

set_option autoImplicit false
set_option linter.dupNamespace false

/-!
# What the logs of a broadcast run agree on

`Coherent` is the invariant of a run: what each honest member has sent is in
the log once, what it has counted was really said, and each VOTE, ACK, READY
and delivery rests on the weight that called for it.
-/
namespace Tenzro
open WeightedQuorum List

namespace Network

variable (c : Committee) (byz : Finset ValidatorIndex)

def Support (N : Network) (w : ValidatorIndex → ℕ) (k : SignalKind) (r : ℕ)
    (a : ValidatorIndex) (d : Digest) (t : ℕ) : Prop :=
  ∃ E ⊆ c.indices, t ≤ weight w E ∧ ∀ i ∈ E, i ∈ byz ∨ N.said i k r a d

variable {c byz}

theorem Support.mono {N N' : Network} {w : ValidatorIndex → ℕ} {k : SignalKind} {r : ℕ}
    {a : ValidatorIndex} {d : Digest} {t : ℕ} (h : N.Support c byz w k r a d t)
    (log : N.broadcasts ⊆ N'.broadcasts) : N'.Support c byz w k r a d t := by
  obtain ⟨E, hE, heavy, hs⟩ := h
  exact ⟨E, hE, heavy, fun i hi => (hs i hi).imp_right (fun h => log h)⟩

theorem Support.honest {N : Network} {w : ValidatorIndex → ℕ} {k : SignalKind} {r : ℕ}
    {a : ValidatorIndex} {d : Digest} {t : ℕ} (h : N.Support c byz w k r a d t)
    (heavy : weight w byz < t) : ∃ i ∈ c.indices, i ∉ byz ∧ N.said i k r a d := by
  obtain ⟨E, hE, ht, hs⟩ := h
  obtain ⟨i, hi, hb⟩ := exists_correct (lt_of_lt_of_le heavy ht)
  exact ⟨i, hE hi, hb, (hs i hi).resolve_left hb⟩

variable (c byz)

structure Coherent (N : Network) : Prop where
  me : ∀ j, (N.parties j).me = j
  counts : ∀ j r a, ((N.parties j).inst r a).Counts c a
  speaker : ∀ j s, (j, s) ∈ N.broadcasts → j ∈ c.indices ∧ j ∉ byz
  unique : ∀ j k r a d e, N.said j k r a d → N.said j k r a e → d = e
  sent_said : ∀ j k r a d, ((N.parties j).inst r a).sent k = some d → N.said j k r a d
  said_sent : ∀ j k r a d, N.said j k r a d →
    r < (N.parties j).floor ∨ ((N.parties j).inst r a).sent k = some d
  backed : ∀ j k r a d, ∀ i ∈ ((N.parties j).inst r a).backers k d, i ∈ byz ∨ N.said i k r a d
  proposer : ∀ a r d, (a, r, d) ∈ N.proposals → a ∈ c.indices ∧ a ∉ byz
  one_proposal : ∀ a r d e, (a, r, d) ∈ N.proposals → (a, r, e) ∈ N.proposals → d = e
  proposed_echo : ∀ j r a d, ((N.parties j).inst r a).proposed = some d → c.size ≠ 1 →
    ((N.parties j).inst r a).sent .echo = some d
  echo : ∀ j r a d, N.said j .echo r a d → a ∈ byz ∨ (a, r, d) ∈ N.proposals
  vote : ∀ j r a d, N.said j .vote r a d →
    N.Support c byz (c.nonBroadcasterWeight · a) .echo r a d c.rbcVoteThreshold
  ack : ∀ j r a d, N.said j .ack r a d →
    N.Support c byz (c.nonBroadcasterWeight · a) .echo r a d c.rbcAckThreshold ∨
    N.Support c byz (c.nonBroadcasterWeight · a) .vote r a d c.rbcAckThreshold
  ready : ∀ j r a d, N.said j .ready r a d →
    N.Support c byz (c.nonBroadcasterWeight · a) .ack r a d c.rbcAckThreshold
  lone : c.size = 1 → N.broadcasts = []
  deliverer : ∀ j r a d, (j, r, a, d) ∈ N.deliveries → j ∈ c.indices ∧ j ∉ byz ∧ a ∈ c.indices
  delivered_logged : ∀ j r a d, ((N.parties j).inst r a).delivered = some d →
    (j, r, a, d) ∈ N.deliveries
  cause : ∀ j r a d, (j, r, a, d) ∈ N.deliveries → c.size ≠ 1 →
    ∃ i k, i ∈ c.indices ∧ (i ∈ byz ∨ N.said i k r a d)
  deliver : ∀ j r a d, (j, r, a, d) ∈ N.deliveries →
    (c.size = 1 ∧ (a ∈ byz ∨ (a, r, d) ∈ N.proposals)) ∨
    (c.size ≠ 1 ∧
      (N.Support c byz (c.nonBroadcasterWeight · a) .echo r a d c.rbcFastThreshold ∨
        N.Support c byz c.seats .ready r a d c.readyDelivery))

theorem coherent_init : Coherent c byz init where
  me _ := rfl
  counts _ _ _ := Instance.counts_empty c _
  speaker _ _ h := absurd h not_mem_nil
  unique _ _ _ _ _ _ h := absurd h not_mem_nil
  sent_said _ _ _ _ _ h := absurd h.symm (Option.some_ne_none _)
  said_sent _ _ _ _ _ h := absurd h not_mem_nil
  backed _ _ _ _ _ i h := absurd h (Finset.notMem_empty i)
  proposer _ _ _ h := absurd h not_mem_nil
  one_proposal _ _ _ _ h := absurd h not_mem_nil
  proposed_echo _ _ _ _ h := absurd h.symm (Option.some_ne_none _)
  echo _ _ _ _ h := absurd h not_mem_nil
  vote _ _ _ _ h := absurd h not_mem_nil
  ack _ _ _ _ h := absurd h not_mem_nil
  ready _ _ _ _ h := absurd h not_mem_nil
  lone _ := rfl
  deliverer _ _ _ _ h := absurd h not_mem_nil
  delivered_logged _ _ _ _ h := absurd h.symm (Option.some_ne_none _)
  cause _ _ _ _ h := absurd h not_mem_nil
  deliver _ _ _ _ h := absurd h not_mem_nil

variable {c byz}

theorem Coherent.of_same {N N' : Network} (h : Coherent c byz N)
    (me : ∀ j, (N'.parties j).me = (N.parties j).me)
    (floor : ∀ j, (N.parties j).floor ≤ (N'.parties j).floor)
    (inst : ∀ j r a, (N'.parties j).inst r a = (N.parties j).inst r a ∨
      ((N'.parties j).inst r a = .empty ∧ r < (N'.parties j).floor))
    (proposals : N'.proposals = N.proposals) (broadcasts : N'.broadcasts = N.broadcasts)
    (deliveries : N'.deliveries = N.deliveries) : Coherent c byz N' := by
  obtain ⟨parties', proposals', broadcasts', deliveries', heard', received'⟩ := N'
  obtain rfl : proposals' = N.proposals := proposals
  obtain rfl : broadcasts' = N.broadcasts := broadcasts
  obtain rfl : deliveries' = N.deliveries := deliveries
  constructor
  case me => exact fun j => (me j).trans (h.me j)
  case counts =>
    intro j r a
    rcases inst j r a with same | ⟨gone, -⟩
    · rw [same]
      exact h.counts j r a
    · rw [gone]
      exact Instance.counts_empty c a
  case sent_said =>
    intro j k r a d hs
    rcases inst j r a with same | ⟨gone, -⟩
    · rw [same] at hs
      exact h.sent_said j k r a d hs
    · rw [gone] at hs
      cases hs
  case said_sent =>
    intro j k r a d hs
    rcases h.said_sent j k r a d hs with low | sent
    · exact .inl (lt_of_lt_of_le low (floor j))
    · rcases inst j r a with same | ⟨-, low⟩
      · rw [same]
        exact .inr sent
      · exact .inl low
  case backed =>
    intro j k r a d i hi
    rcases inst j r a with same | ⟨gone, -⟩
    · rw [same] at hi
      exact h.backed j k r a d i hi
    · rw [gone] at hi
      exact absurd hi (Finset.notMem_empty i)
  case proposed_echo =>
    intro j r a d hp
    rcases inst j r a with same | ⟨gone, -⟩
    · rw [same] at hp ⊢
      exact h.proposed_echo j r a d hp
    · rw [gone] at hp
      cases hp
  case delivered_logged =>
    intro j r a d hd
    rcases inst j r a with same | ⟨gone, -⟩
    · rw [same] at hd
      exact h.delivered_logged j r a d hd
    · rw [gone] at hd
      cases hd
  case speaker => exact h.speaker
  case unique => exact h.unique
  case proposer => exact h.proposer
  case one_proposal => exact h.one_proposal
  case echo => exact h.echo
  case vote => exact h.vote
  case ack => exact h.ack
  case ready => exact h.ready
  case lone => exact h.lone
  case deliverer => exact h.deliverer
  case cause => exact h.cause
  case deliver => exact h.deliver

theorem Coherent.idle {N : Network} (h : Coherent c byz N) {j : ValidatorIndex}
    {b : ReliableBroadcast} (me : b.me = (N.parties j).me) (floor : (N.parties j).floor ≤ b.floor)
    (inst : ∀ r a, b.inst r a = (N.parties j).inst r a ∨ (b.inst r a = .empty ∧ r < b.floor)) :
    Coherent c byz (N.act j b []) := by
  refine h.of_same ?_ ?_ ?_ rfl (append_nil _) (append_nil _)
  · intro i
    by_cases hi : i = j
    · subst hi
      rw [act_parties_self, me]
    · rw [act_parties_of_ne _ _ _ hi]
  · intro i
    by_cases hi : i = j
    · subst hi
      rw [act_parties_self]
      exact floor
    · rw [act_parties_of_ne _ _ _ hi]
  · intro i r a
    by_cases hi : i = j
    · subst hi
      rw [act_parties_self]
      exact inst r a
    · rw [act_parties_of_ne _ _ _ hi]
      exact .inl rfl

theorem Coherent.announce {N : Network} (h : Coherent c byz N) {j : ValidatorIndex} {r : ℕ}
    {d : Digest} (hj : j ∈ c.indices) (honest : j ∉ byz)
    (once : ∀ e, (j, r, e) ∈ N.proposals → e = d)
    (heard : List (ValidatorIndex × ValidatorIndex × ℕ × ValidatorIndex × Digest)) :
    Coherent c byz { N with proposals := (j, r, d) :: N.proposals, heard := heard } where
  me := h.me
  counts := h.counts
  speaker := h.speaker
  unique := h.unique
  sent_said := h.sent_said
  said_sent := h.said_sent
  backed := h.backed
  proposer := by
    intro a r' e he
    rcases mem_cons.1 he with heq | he
    · cases heq
      exact ⟨hj, honest⟩
    · exact h.proposer a r' e he
  one_proposal := by
    intro a r' e e' he he'
    rcases mem_cons.1 he with heq | he
    · cases heq
      rcases mem_cons.1 he' with heq | he'
      · cases heq
        rfl
      · exact (once e' he').symm
    · rcases mem_cons.1 he' with heq | he'
      · cases heq
        exact once e he
      · exact h.one_proposal a r' e e' he he'
  proposed_echo := h.proposed_echo
  echo j' r' a e hs := (h.echo j' r' a e hs).imp_right (mem_cons_of_mem _)
  vote := h.vote
  ack := h.ack
  ready := h.ready
  lone := h.lone
  deliverer := h.deliverer
  delivered_logged := h.delivered_logged
  cause := h.cause
  deliver j' r' a e hd :=
    (h.deliver j' r' a e hd).imp_left (fun hs => ⟨hs.1, hs.2.imp_right (mem_cons_of_mem _)⟩)

theorem broadcasts_subset_act (N : Network) (j : ValidatorIndex) (b : ReliableBroadcast)
    (out : List RbcAction) : N.broadcasts ⊆ (N.act j b out).broadcasts :=
  fun _ h => mem_append_left _ h

section answer

variable {N : Network} {j : ValidatorIndex} {r : ℕ} {a : ValidatorIndex} {inst : Instance}
  {out : List RbcAction}

variable (c byz N j r a) in
/-- What rests on what when validator `j` leaves its instance as `inst` and asks for `out`. -/
structure Answer (inst : Instance) (out : List RbcAction) : Prop where
  counts : inst.Counts c a
  signals : ∀ s, .broadcast s ∈ out → s.round = r ∧ s.source = a
  handed : ∀ r' a' d, .deliver r' a' d ∈ out → r' = r ∧ a' = a
  silent : ∀ k d, .broadcast ⟨k, r, a, d⟩ ∈ out → ((N.parties j).inst r a).sent k = none
  sent : ∀ k d, inst.sent k = some d ↔
    .broadcast ⟨k, r, a, d⟩ ∈ out ∨ ((N.parties j).inst r a).sent k = some d
  backed : ∀ k d, ∀ i ∈ inst.backers k d, i ∈ byz ∨ N.said i k r a d
  proposed_echo : ∀ d, inst.proposed = some d → c.size ≠ 1 → inst.sent .echo = some d
  echo : ∀ d, .broadcast ⟨.echo, r, a, d⟩ ∈ out → a ∈ byz ∨ (a, r, d) ∈ N.proposals
  vote : ∀ d, .broadcast ⟨.vote, r, a, d⟩ ∈ out →
    N.Support c byz (c.nonBroadcasterWeight · a) .echo r a d c.rbcVoteThreshold
  ack : ∀ d, .broadcast ⟨.ack, r, a, d⟩ ∈ out →
    N.Support c byz (c.nonBroadcasterWeight · a) .echo r a d c.rbcAckThreshold ∨
    N.Support c byz (c.nonBroadcasterWeight · a) .vote r a d c.rbcAckThreshold
  ready : ∀ d, .broadcast ⟨.ready, r, a, d⟩ ∈ out →
    N.Support c byz (c.nonBroadcasterWeight · a) .ack r a d c.rbcAckThreshold
  lone : c.size = 1 → ∀ s, .broadcast s ∉ out
  source : ∀ d, .deliver r a d ∈ out → a ∈ c.indices
  delivered : ∀ d, inst.delivered = some d →
    .deliver r a d ∈ out ∨ ((N.parties j).inst r a).delivered = some d
  cause : ∀ d, .deliver r a d ∈ out → c.size ≠ 1 →
    ∃ i k, i ∈ c.indices ∧ (i ∈ byz ∨ N.said i k r a d)
  deliver : ∀ d, .deliver r a d ∈ out →
    (c.size = 1 ∧ (a ∈ byz ∨ (a, r, d) ∈ N.proposals)) ∨
    (c.size ≠ 1 ∧
      (N.Support c byz (c.nonBroadcasterWeight · a) .echo r a d c.rbcFastThreshold ∨
        N.Support c byz c.seats .ready r a d c.readyDelivery))

theorem Answer.coherent (A : Answer c byz N j r a inst out) (h : Coherent c byz N)
    (hj : j ∈ c.indices) (honest : j ∉ byz) (live : (N.parties j).floor ≤ r) :
    Coherent c byz (N.act j ((N.parties j).setInst r a inst) out) := by
  generalize hN' : N.act j ((N.parties j).setInst r a inst) out = N'
  have grow : N.broadcasts ⊆ N'.broadcasts := hN' ▸ broadcasts_subset_act ..
  have sup : ∀ {w k r a d t}, N.Support c byz w k r a d t → N'.Support c byz w k r a d t :=
    fun hs => hs.mono grow
  have said' : ∀ {i k r' a' e}, N'.said i k r' a' e ↔ N.said i k r' a' e ∨
      (i = j ∧ r' = r ∧ a' = a ∧ .broadcast ⟨k, r, a, e⟩ ∈ out) := by
    intro i k r' a' e
    unfold said
    rw [← hN', Network.act, mem_append, mem_sends]
    refine or_congr_right (and_congr_right fun _ => ⟨fun new => ?_, ?_⟩)
    · obtain ⟨rfl, rfl⟩ := A.signals _ new
      exact ⟨rfl, rfl, new⟩
    · rintro ⟨rfl, rfl, new⟩
      exact new
  have logged : ∀ {i r' a' e}, (i, r', a', e) ∈ N'.deliveries ↔ (i, r', a', e) ∈ N.deliveries ∨
      (i = j ∧ r' = r ∧ a' = a ∧ .deliver r a e ∈ out) := by
    intro i r' a' e
    rw [← hN', Network.act, mem_append, mem_delivers]
    refine or_congr_right (and_congr_right fun _ => ⟨fun new => ?_, ?_⟩)
    · obtain ⟨rfl, rfl⟩ := A.handed _ _ _ new
      exact ⟨rfl, rfl, new⟩
    · rintro ⟨rfl, rfl, new⟩
      exact new
  have party : ∀ i, (N'.parties i).me = (N.parties i).me ∧
      (N'.parties i).floor = (N.parties i).floor ∧ ∀ r' a', (N'.parties i).inst r' a' =
        if i = j ∧ r' = r ∧ a' = a then inst else (N.parties i).inst r' a' := by
    intro i
    rw [← hN']
    by_cases hi : i = j
    · subst hi
      rw [act_parties_self]
      exact ⟨rfl, rfl, fun r' a' => by rw [ReliableBroadcast.inst_setInst]; simp⟩
    · rw [act_parties_of_ne _ _ _ hi]
      exact ⟨rfl, rfl, fun r' a' => by simp [hi]⟩
  have inst' := fun i => (party i).2.2
  -- What is said now was not sent before, so the log holds no such signal of `j`.
  have unsaid : ∀ {k d}, .broadcast ⟨k, r, a, d⟩ ∈ out → ∀ e, ¬ N.said j k r a e := by
    intro k d new e hs
    rcases h.said_sent j k r a e hs with low | sent
    · omega
    · rw [A.silent k d new] at sent
      cases sent
  have same : N'.proposals = N.proposals := by rw [← hN']; rfl
  constructor
  case me => exact fun i => (party i).1.trans (h.me i)
  case counts =>
    intro i r' a'
    rw [inst']
    split_ifs with here
    · rw [here.2.2]
      exact A.counts
    · exact h.counts i r' a'
  case speaker =>
    rintro i ⟨k, r', a', e⟩ hs
    rcases said'.1 hs with old | ⟨rfl, -⟩
    · exact h.speaker i _ old
    · exact ⟨hj, honest⟩
  case unique =>
    intro i k r' a' e e' he he'
    rcases said'.1 he with old | ⟨rfl, rfl, rfl, new⟩
    · rcases said'.1 he' with old' | ⟨rfl, rfl, rfl, new⟩
      · exact h.unique i k r' a' e e' old old'
      · exact absurd old (unsaid new e)
    · rcases said'.1 he' with old' | ⟨-, -, -, new'⟩
      · exact absurd old' (unsaid new e')
      · exact Option.some.inj (((A.sent k e).2 (.inl new)).symm.trans ((A.sent k e').2 (.inl new')))
  case sent_said =>
    intro i k r' a' e hs
    rw [inst'] at hs
    split_ifs at hs with here
    · obtain ⟨rfl, rfl, rfl⟩ := here
      rcases (A.sent k e).1 hs with new | old
      · exact said'.2 (.inr ⟨rfl, rfl, rfl, new⟩)
      · exact said'.2 (.inl (h.sent_said _ k _ _ e old))
    · exact said'.2 (.inl (h.sent_said i k r' a' e hs))
  case said_sent =>
    intro i k r' a' e hs
    rw [(party i).2.1, inst']
    rcases said'.1 hs with old | ⟨rfl, rfl, rfl, new⟩
    · refine (h.said_sent i k r' a' e old).imp_right fun sent => ?_
      split_ifs with here
      · obtain ⟨rfl, rfl, rfl⟩ := here
        exact (A.sent k e).2 (.inr sent)
      · exact sent
    · rw [if_pos ⟨rfl, rfl, rfl⟩]
      exact .inr ((A.sent k e).2 (.inl new))
  case backed =>
    intro i k r' a' e x hx
    rw [inst'] at hx
    refine Or.imp_right (fun hs => said'.2 (.inl hs)) ?_
    split_ifs at hx with here
    · obtain ⟨rfl, rfl, rfl⟩ := here
      exact A.backed k e x hx
    · exact h.backed i k r' a' e x hx
  case proposer => exact same ▸ h.proposer
  case one_proposal => exact same ▸ h.one_proposal
  case proposed_echo =>
    intro i r' a' e hp many
    rw [inst'] at hp ⊢
    split_ifs at hp ⊢ with here
    · exact A.proposed_echo e hp many
    · exact h.proposed_echo i r' a' e hp many
  case echo =>
    intro i r' a' e hs
    rw [same]
    rcases said'.1 hs with old | ⟨-, rfl, rfl, new⟩
    · exact h.echo i r' a' e old
    · exact A.echo e new
  case vote =>
    intro i r' a' e hs
    rcases said'.1 hs with old | ⟨-, rfl, rfl, new⟩
    · exact sup (h.vote i r' a' e old)
    · exact sup (A.vote e new)
  case ack =>
    intro i r' a' e hs
    rcases said'.1 hs with old | ⟨-, rfl, rfl, new⟩
    · exact (h.ack i r' a' e old).imp sup sup
    · exact (A.ack e new).imp sup sup
  case ready =>
    intro i r' a' e hs
    rcases said'.1 hs with old | ⟨-, rfl, rfl, new⟩
    · exact sup (h.ready i r' a' e old)
    · exact sup (A.ready e new)
  case lone =>
    intro one
    refine eq_nil_iff_forall_not_mem.2 ?_
    rintro ⟨i, k, r', a', e⟩ hs
    rcases said'.1 hs with old | ⟨-, -, -, new⟩
    · unfold said at old
      rw [h.lone one] at old
      cases old
    · exact A.lone one _ new
  case deliverer =>
    intro i r' a' e he
    rcases logged.1 he with old | ⟨rfl, -, rfl, new⟩
    · exact h.deliverer i r' a' e old
    · exact ⟨hj, honest, A.source e new⟩
  case delivered_logged =>
    intro i r' a' e he
    rw [inst'] at he
    split_ifs at he with here
    · obtain ⟨rfl, rfl, rfl⟩ := here
      rcases A.delivered e he with new | old
      · exact logged.2 (.inr ⟨rfl, rfl, rfl, new⟩)
      · exact logged.2 (.inl (h.delivered_logged _ _ _ e old))
    · exact logged.2 (.inl (h.delivered_logged i r' a' e he))
  case cause =>
    intro i r' a' e he many
    have told : ∃ i k, i ∈ c.indices ∧ (i ∈ byz ∨ N.said i k r' a' e) := by
      rcases logged.1 he with old | ⟨-, rfl, rfl, new⟩
      · exact h.cause i r' a' e old many
      · exact A.cause e new many
    obtain ⟨x, k, hx, hs⟩ := told
    exact ⟨x, k, hx, hs.imp_right fun hs => grow hs⟩
  case deliver =>
    intro i r' a' e he
    rw [same]
    rcases logged.1 he with old | ⟨-, rfl, rfl, new⟩
    · exact (h.deliver i r' a' e old).imp_right (And.imp_right (Or.imp sup sup))
    · exact (A.deliver e new).imp_right (And.imp_right (Or.imp sup sup))

end answer

section signal

variable {N : Network} {j frm : ValidatorIndex} {s : Signal}

def countedInst (c : Committee) (N : Network) (j frm : ValidatorIndex) (s : Signal) : Instance :=
  ((N.parties j).inst s.round s.source).count c frm s

def afterSignal (c : Committee) (N : Network) (j frm : ValidatorIndex) (s : Signal) : Network :=
  N.act j
    ((N.parties j).setInst s.round s.source ((countedInst c N j frm s).answer c s.digest))
    (((countedInst c N j frm s).due c s.digest).map (fun k => .broadcast { s with kind := k }) ++
      (if (countedInst c N j frm s).delivers c s.digest
        then [.deliver s.round s.source s.digest] else []))

theorem Coherent.backed_counted (h : Coherent c byz N)
    (hfrm : frm ∈ byz ∨ (frm, s) ∈ N.broadcasts) (k : SignalKind) (d : Digest)
    {i : ValidatorIndex} (hi : i ∈ (countedInst c N j frm s).backers k d) :
    i ∈ byz ∨ N.said i k s.round s.source d := by
  unfold countedInst at hi
  rw [Instance.backers_count] at hi
  split_ifs at hi with new
  · rcases Finset.mem_insert.1 hi with rfl | hi
    · rw [new.1, new.2]
      exact hfrm
    · exact h.backed j k s.round s.source d i hi
  · exact h.backed j k s.round s.source d i hi

theorem Coherent.counts_answered (h : Coherent c byz N) (member : frm ∈ c.indices)
    (new : frm ∉ ((N.parties j).inst s.round s.source).seen s.kind) :
    ((countedInst c N j frm s).answer c s.digest).Counts c s.source :=
  (h.counts j s.round s.source).take rfl member new

variable (h : Coherent c byz N) (hfrm : frm ∈ byz ∨ (frm, s) ∈ N.broadcasts)
  (member : frm ∈ c.indices) (new : frm ∉ ((N.parties j).inst s.round s.source).seen s.kind)
include h hfrm member new

theorem Coherent.support_other (k : SignalKind) {t : ℕ}
    (heavy : t ≤ ((countedInst c N j frm s).tally s.digest).nonAuthor k) :
    N.Support c byz (c.nonBroadcasterWeight · s.source) k s.round s.source s.digest t := by
  have hc := h.counts_answered member new
  refine ⟨(countedInst c N j frm s).backers k s.digest, ?_, ?_, ?_⟩
  · exact (hc.backers_seen k s.digest).trans (hc.seen_member k)
  · exact heavy.trans_eq (hc.other k s.digest)
  · exact fun i hi => h.backed_counted hfrm k s.digest hi

theorem Coherent.support_full (k : SignalKind) {t : ℕ}
    (heavy : t ≤ (((countedInst c N j frm s).tally s.digest).byKind k).weight) :
    N.Support c byz c.seats k s.round s.source s.digest t := by
  have hc := h.counts_answered member new
  refine ⟨(countedInst c N j frm s).backers k s.digest, ?_, ?_, ?_⟩
  · exact (hc.backers_seen k s.digest).trans (hc.seen_member k)
  · exact heavy.trans_eq (hc.full k s.digest)
  · exact fun i hi => h.backed_counted hfrm k s.digest hi

variable (hj : j ∈ c.indices) (honest : j ∉ byz) (source : s.source ∈ c.indices)
  (live : (N.parties j).floor ≤ s.round) (light : weight c.seats byz ≤ c.maxFaulty)
include hj honest source live light

theorem Coherent.afterSignal : Coherent c byz (afterSignal c N j frm s) := by
  -- A lone honest member hears no signal: there is none on record and nobody else to send one.
  have many : c.size ≠ 1 := by
    intro one
    have zero : ∀ i ∈ c.indices, i = 0 := by
      intro i hi
      rw [Committee.indices, one, Finset.mem_range] at hi
      exact Nat.lt_one_iff.1 hi
    have correct : frm ∉ byz := by
      rw [zero frm member, ← zero j hj]
      exact honest
    have none := hfrm.resolve_left correct
    rw [h.lone one] at none
    cases none
  have other := fun {k t} => h.support_other hfrm member new k (t := t)
  have full := fun {k t} => h.support_full hfrm member new k (t := t)
  have broadcast (s' : Signal) : RbcAction.broadcast s' ∈
      ((countedInst c N j frm s).due c s.digest).map (fun k => .broadcast { s with kind := k }) ++
        (if (countedInst c N j frm s).delivers c s.digest
          then [.deliver s.round s.source s.digest] else []) ↔
      s'.kind ∈ (countedInst c N j frm s).due c s.digest ∧ s' = { s with kind := s'.kind } := by
    rw [mem_append, mem_map]
    constructor
    · rintro (⟨k, hk, same⟩ | new)
      · cases same
        exact ⟨hk, rfl⟩
      · split_ifs at new <;> simp at new
    · rintro ⟨hk, same⟩
      exact .inl ⟨_, hk, congrArg _ same.symm⟩
  have handed (r : ℕ) (a : ValidatorIndex) (d : Digest) : RbcAction.deliver r a d ∈
      ((countedInst c N j frm s).due c s.digest).map (fun k => .broadcast { s with kind := k }) ++
        (if (countedInst c N j frm s).delivers c s.digest
          then [.deliver s.round s.source s.digest] else []) ↔
      (countedInst c N j frm s).delivers c s.digest = true ∧
        r = s.round ∧ a = s.source ∧ d = s.digest := by
    rw [mem_append]
    split_ifs with delivers <;> simp [delivers]
  refine Answer.coherent ?_ h hj honest live
  constructor
  case counts => exact h.counts_answered member new
  case signals =>
    intro s' said
    rw [((broadcast s').1 said).2]
    exact ⟨rfl, rfl⟩
  case handed => exact fun r a d new => ⟨((handed r a d).1 new).2.1, ((handed r a d).1 new).2.2.1⟩
  case silent => exact fun k d said => (Instance.mem_due.1 ((broadcast _).1 said).1).2
  case sent =>
    intro k d
    rw [broadcast]
    change (if k ∈ _ then some s.digest else ((N.parties j).inst s.round s.source).sent k) = _ ↔ _
    split_ifs with hk
    · have none : ((N.parties j).inst s.round s.source).sent k = none := (Instance.mem_due.1 hk).2
      simp [hk, none, eq_comm]
    · simp [hk]
  case backed => exact fun k d i hi => h.backed_counted hfrm k d hi
  case proposed_echo =>
    intro d hp many
    change (if SignalKind.echo ∈ _ then _ else _) = _
    rw [if_neg (by simp [Instance.mem_due, Instance.wants])]
    exact h.proposed_echo _ _ _ d hp many
  case echo => exact fun d said => by simp [broadcast, Instance.mem_due, Instance.wants] at said
  case vote =>
    intro d said
    obtain ⟨due, same⟩ := (broadcast _).1 said
    cases same
    exact other (of_decide_eq_true (Instance.mem_due.1 due).1)
  case ack =>
    intro d said
    obtain ⟨due, same⟩ := (broadcast _).1 said
    cases same
    have want := (Instance.mem_due.1 due).1
    simp only [Instance.wants, Bool.or_eq_true, decide_eq_true_eq] at want
    exact want.imp other other
  case ready =>
    intro d said
    obtain ⟨due, same⟩ := (broadcast _).1 said
    cases same
    have want := (Instance.mem_due.1 due).1
    simp only [Instance.wants, Bool.or_eq_true, decide_eq_true_eq] at want
    rcases want with acks | readies
    · exact other acks
    · -- One of the READYs is an honest member's, which rests on ACKs already.
      obtain ⟨x, -, -, hx⟩ := (full readies).honest
        (show weight c.seats byz < c.validity by unfold Committee.validity; omega)
      exact h.ready x _ _ _ hx
  case lone => exact fun one => absurd one many
  case source => exact fun _ _ => source
  case delivered =>
    intro d hd
    rw [handed]
    change (if _ then _ else _) = _ at hd
    split_ifs at hd with delivers
    · exact .inl ⟨delivers, rfl, rfl, (Option.some.inj hd).symm⟩
    · exact .inr hd
  case cause =>
    intro d new _
    obtain ⟨-, -, -, rfl⟩ := (handed _ _ _).1 new
    exact ⟨frm, s.kind, member, hfrm⟩
  case deliver =>
    intro d new
    obtain ⟨delivers, -, -, rfl⟩ := (handed _ _ _).1 new
    simp only [Instance.delivers, Bool.and_eq_true, Bool.or_eq_true, decide_eq_true_eq] at delivers
    exact .inr ⟨many, delivers.2.imp other full⟩

end signal

section proposal

variable {N : Network} {j : ValidatorIndex} {r : ℕ} {a : ValidatorIndex} {d : Digest}

/-- The instance once the author's first proposal is taken. -/
def proposedInst (old : Instance) (d : Digest) : Instance :=
  { old with proposed := some d, sent := Function.update old.sent .echo (some d) }

theorem Coherent.afterProposal (h : Coherent c byz N) (hj : j ∈ c.indices) (honest : j ∉ byz)
    (hd : a ∈ byz ∨ (a, r, d) ∈ N.proposals) (live : (N.parties j).floor ≤ r)
    (first : ((N.parties j).inst r a).proposed = none) (many : c.size ≠ 1) :
    Coherent c byz (N.act j
      ((N.parties j).setInst r a (proposedInst ((N.parties j).inst r a) d))
      [.broadcast ⟨.echo, r, a, d⟩]) := by
  have silent : ((N.parties j).inst r a).sent .echo = none := (h.counts j r a).echoed first
  refine Answer.coherent ?_ h hj honest live
  constructor
  case counts => exact (h.counts j r a).propose d
  case silent =>
    intro k e said
    cases mem_singleton.1 said
    exact silent
  case sent =>
    intro k e
    by_cases hk : k = .echo
    · subst hk
      simp [proposedInst, silent, eq_comm]
    · simp [proposedInst, hk]
  case backed => exact fun k e => h.backed j k r a e
  case proposed_echo => exact fun e hp _ => by simpa [proposedInst] using hp
  case echo =>
    intro e said
    cases mem_singleton.1 said
    exact hd
  case lone => exact fun one => absurd one many
  case delivered => exact fun e he => .inr he
  all_goals simp

theorem Coherent.afterLone (h : Coherent c byz N) (hj : j ∈ c.indices) (honest : j ∉ byz)
    (ha : a ∈ c.indices) (hd : a ∈ byz ∨ (a, r, d) ∈ N.proposals) (live : (N.parties j).floor ≤ r)
    (one : c.size = 1) :
    Coherent c byz (N.act j
      ((N.parties j).setInst r a
        { (N.parties j).inst r a with proposed := some d, delivered := some d })
      [.deliver r a d]) := by
  refine Answer.coherent ?_ h hj honest live
  constructor
  case counts => exact (h.counts j r a).deliver d
  case backed => exact fun k e => h.backed j k r a e
  case proposed_echo => exact fun e _ many => absurd one many
  case source => exact fun _ _ => ha
  case cause => exact fun e _ many => absurd one many
  case deliver =>
    intro e new
    cases mem_singleton.1 new
    exact .inl ⟨one, hd⟩
  all_goals simp [eq_comm]

end proposal

section run

variable {N N' : Network} (hbyz : byz ⊆ c.indices) (light : weight c.seats byz ≤ c.maxFaulty)
include hbyz light

theorem Coherent.act (h : Coherent c byz N) (step : Act c byz N N') : Coherent c byz N' := by
  cases step with
  | announce hj honest once => exact h.announce hj honest once _
  | note => exact h.of_same (fun _ => rfl) (fun _ => le_refl _) (fun _ _ _ => .inl rfl) rfl rfl rfl
  | @prune j r =>
    refine h.idle (ReliableBroadcast.me_pruneBelow _ r)
      (ReliableBroadcast.floor_le_pruneBelow _ r) (fun r' a => ?_)
    by_cases hr : ((N.parties j).pruneBelow r).floor ≤ r'
    · exact .inl (ReliableBroadcast.inst_pruneBelow_of_le hr)
    · exact (ReliableBroadcast.inst_pruneBelow _ r r' a).imp_right (fun e => ⟨e, not_le.1 hr⟩)
  | @proposal j frm r a d hj honest hfrm =>
    rcases (N.parties j).takeProposal_cases c frm r a d with same | lone | echo
    · obtain ⟨inst, me, floor, out, -⟩ := same
      rw [out]
      exact h.idle me floor.ge (fun r a => .inl (by rw [inst]))
    · obtain ⟨rfl, live, -, one, eq⟩ := lone
      rw [eq]
      refine h.afterLone hj honest ?_ hfrm live one
      exact hfrm.elim (fun hb => hbyz hb) (fun hp => (h.proposer _ _ _ hp).1)
    · obtain ⟨rfl, live, first, many, eq⟩ := echo
      rw [eq]
      exact h.afterProposal hj honest hfrm live first many
  | @signal j frm s hj honest hfrm =>
    rcases (N.parties j).takeSignal_cases c frm s with same | counted
    · obtain ⟨inst, me, floor, out, -⟩ := same
      rw [out]
      exact h.idle me floor.ge (fun r a => .inl (by rw [inst]))
    · obtain ⟨live, source, member, new, eq⟩ := counted
      rw [eq]
      exact h.afterSignal hfrm member new hj honest source live light

theorem Coherent.acts (h : Coherent c byz N) (steps : Acts c byz N N') : Coherent c byz N' := by
  induction steps with
  | refl => exact h
  | tail _ step ih => exact ih.act hbyz light step

theorem Coherent.step (h : Coherent c byz N) (step : Step c byz N N') : Coherent c byz N' := by
  cases step with
  | @propose j r d hj honest once =>
    have told := h.announce hj honest once ((j, j, r, j, d) :: N.heard)
    exact told.acts hbyz light (ReliableBroadcast.onPropose_acts (told.me j) hj honest
      (.inr mem_cons_self)).1
  | @hear j frm r a d hj honest hfrm =>
    have noted : Coherent c byz { N with heard := (j, frm, r, a, d) :: N.heard } :=
      h.act hbyz light .note
    exact noted.acts hbyz light (ReliableBroadcast.onPropose_acts (noted.me j) hj honest hfrm).1
  | @receive j frm s hj honest hfrm =>
    have noted : Coherent c byz { N with received := (j, frm, s) :: N.received } :=
      h.act hbyz light .note
    exact noted.acts hbyz light
      (ReliableBroadcast.onSignalFuel_acts 4 (noted.me j) hj honest hfrm).1
  | prune => exact h.act hbyz light .prune

theorem coherent_run (run : Run c byz N) : Coherent c byz N := by
  induction run with
  | refl => exact coherent_init c byz
  | tail _ step ih => exact ih.step hbyz light step

end run

end Network

end Tenzro
