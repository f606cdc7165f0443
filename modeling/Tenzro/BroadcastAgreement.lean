import Tenzro.BroadcastCoherence

set_option autoImplicit false
set_option linter.dupNamespace false

/-!
# Agreement of reliable broadcast

The broadcaster's own seat counts for nothing, so with a Byzantine broadcaster
one Byzantine seat is out of every count.
-/
namespace Tenzro
open WeightedQuorum

namespace Committee

variable (c : Committee) {byz : Finset ValidatorIndex} {a : ValidatorIndex}

theorem size_pos : 0 < c.size := List.length_pos_iff.2 c.nonempty

theorem two_le_totalSeats (many : c.size ≠ 1) : 2 ≤ c.totalSeats := by
  have hpos := c.size_pos
  have h0 : 0 ∈ c.indices := Finset.mem_range.2 hpos
  have h1 : 1 ∈ c.indices := Finset.mem_range.2 (by omega)
  have pair : ({0, 1} : Finset ValidatorIndex) ⊆ c.indices :=
    Finset.insert_subset h0 (Finset.singleton_subset_iff.2 h1)
  have hle := weight_mono (w := c.seats) pair
  rw [c.weight_indices] at hle
  have hsum : weight c.seats {0, 1} = c.seats 0 + c.seats 1 := Finset.sum_pair (by decide)
  have := c.seats_pos h0
  have := c.seats_pos h1
  omega

theorem weight_other_le (A : Finset ValidatorIndex) :
    weight (c.nonBroadcasterWeight · a) A ≤ weight c.seats A :=
  weight_le_weight (fun i _ => c.nonBroadcasterWeight_le i a)

theorem maxFaulty_lt_vote : c.maxFaulty < c.rbcVoteThreshold := by
  have := c.totalSeats_pos
  unfold maxFaulty rbcVoteThreshold
  omega

theorem maxFaulty_lt_ack (many : c.size ≠ 1) : c.maxFaulty < c.rbcAckThreshold := by
  have := c.two_le_totalSeats many
  unfold rbcAckThreshold maxFaulty
  omega

theorem maxFaulty_lt_fast (faulty : 0 < c.maxFaulty) : c.maxFaulty < c.rbcFastThreshold := by
  unfold rbcFastThreshold
  unfold maxFaulty at *
  omega

theorem weight_other_indices (ha : a ∈ c.indices) :
    weight (c.nonBroadcasterWeight · a) c.indices + 1 = c.totalSeats := by
  rw [c.weight_nonBroadcaster ha ha, c.weight_indices]

theorem one_le_maxFaulty (hbyz : byz ⊆ c.indices) (light : weight c.seats byz ≤ c.maxFaulty)
    (ha : a ∈ byz) : 1 ≤ c.maxFaulty := by
  have hle : c.seats a ≤ weight c.seats byz := Finset.single_le_sum (fun _ _ => Nat.zero_le _) ha
  have := c.seats_pos (hbyz ha)
  omega

end Committee

namespace Network

variable {c : Committee} {byz : Finset ValidatorIndex} {N : Network}
  {r : ℕ} {a : ValidatorIndex} {d e : Digest}

theorem Coherent.common (h : Coherent c byz N) (hbyz : byz ⊆ c.indices)
    (light : weight c.seats byz ≤ c.maxFaulty) (ha : a ∈ byz) {k : SignalKind} {t u : ℕ}
    (hd : N.Support c byz (c.nonBroadcasterWeight · a) k r a d t)
    (he : N.Support c byz (c.nonBroadcasterWeight · a) k r a e u)
    (heavy : c.totalSeats + c.maxFaulty < t + u + 2) : d = e := by
  obtain ⟨D, hD, ht, hs⟩ := hd
  obtain ⟨E, hE, hu, hs'⟩ := he
  have whole := c.weight_other_indices (hbyz ha)
  have faulty := c.weight_nonBroadcaster ha (hbyz ha)
  obtain ⟨i, hi, hi', honest⟩ := exists_common (B := byz) hD hE
    (w := (c.nonBroadcasterWeight · a)) (by omega)
  exact h.unique i k r a d e ((hs i hi).resolve_left honest) ((hs' i hi').resolve_left honest)

theorem Support.honest_other {k : SignalKind} {t : ℕ}
    (hs : N.Support c byz (c.nonBroadcasterWeight · a) k r a d t)
    (light : weight c.seats byz ≤ c.maxFaulty) (heavy : c.maxFaulty < t) :
    ∃ i ∈ c.indices, i ∉ byz ∧ N.said i k r a d := by
  refine hs.honest ?_
  have := c.weight_other_le byz (a := a)
  omega

section origin

variable (h : Coherent c byz N) (light : weight c.seats byz ≤ c.maxFaulty) (many : c.size ≠ 1)
include h light many

theorem Coherent.ack_echo {j : ValidatorIndex} (hs : N.said j .ack r a d)
    (faulty : 1 ≤ c.maxFaulty) :
    N.Support c byz (c.nonBroadcasterWeight · a) .echo r a d c.rbcVoteThreshold := by
  rcases h.ack j r a d hs with echoes | votes
  · obtain ⟨E, hE, ht, hs⟩ := echoes
    refine ⟨E, hE, le_trans ?_ ht, hs⟩
    unfold Committee.rbcVoteThreshold Committee.rbcAckThreshold
    omega
  · obtain ⟨i, -, -, hi⟩ := votes.honest_other light (c.maxFaulty_lt_ack many)
    exact h.vote i r a d hi

theorem Coherent.origin {j : ValidatorIndex} {k : SignalKind} (hs : N.said j k r a d) :
    ∃ i ∈ c.indices, i ∉ byz ∧ N.said i .echo r a d := by
  have vote : ∀ i, N.said i .vote r a d → ∃ x ∈ c.indices, x ∉ byz ∧ N.said x .echo r a d :=
    fun i hi => (h.vote i r a d hi).honest_other light c.maxFaulty_lt_vote
  have ack : ∀ i, N.said i .ack r a d → ∃ x ∈ c.indices, x ∉ byz ∧ N.said x .echo r a d := by
    intro i hi
    rcases h.ack i r a d hi with echoes | votes
    · exact echoes.honest_other light (c.maxFaulty_lt_ack many)
    · obtain ⟨x, -, -, hx⟩ := votes.honest_other light (c.maxFaulty_lt_ack many)
      exact vote x hx
  cases k with
  | echo => exact ⟨j, (h.speaker j _ hs).1, (h.speaker j _ hs).2, hs⟩
  | vote => exact vote j hs
  | ack => exact ack j hs
  | ready =>
    obtain ⟨x, -, -, hx⟩ :=
      (h.ready j r a d hs).honest_other light (c.maxFaulty_lt_ack many)
    exact ack x hx

theorem Coherent.delivery_origin (hbyz : byz ⊆ c.indices) {j : ValidatorIndex}
    (hd : (j, r, a, d) ∈ N.deliveries) : ∃ i ∈ c.indices, i ∉ byz ∧ N.said i .echo r a d := by
  obtain ⟨i, k, -, hb | hs⟩ := h.cause j r a d hd many
  · have faulty : 1 ≤ c.maxFaulty := c.one_le_maxFaulty hbyz light hb
    rcases h.deliver j r a d hd with lone | ⟨-, fast | slow⟩
    · exact absurd lone.1 many
    · exact fast.honest_other light (c.maxFaulty_lt_fast faulty)
    · obtain ⟨x, -, -, hx⟩ := slow.honest
        (show weight c.seats byz < c.readyDelivery by unfold Committee.readyDelivery; omega)
      exact h.origin light many hx
  · exact h.origin light many hs

end origin

section agreement

variable (h : Coherent c byz N) (hbyz : byz ⊆ c.indices) (light : weight c.seats byz ≤ c.maxFaulty)
include h hbyz light

theorem Coherent.delivery_proposed {j : ValidatorIndex} (hd : (j, r, a, d) ∈ N.deliveries)
    (honest : a ∉ byz) : (a, r, d) ∈ N.proposals := by
  by_cases one : c.size = 1
  · rcases h.deliver j r a d hd with lone | far
    · exact lone.2.resolve_left honest
    · exact absurd one far.1
  · obtain ⟨i, -, -, hi⟩ := h.delivery_origin light one hbyz hd
    exact (h.echo i r a d hi).resolve_left honest

theorem Coherent.delivery_support {j : ValidatorIndex} (hd : (j, r, a, d) ∈ N.deliveries)
    (ha : a ∈ byz) :
    c.size ≠ 1 ∧ 1 ≤ c.maxFaulty ∧
      (N.Support c byz (c.nonBroadcasterWeight · a) .echo r a d c.rbcFastThreshold ∨
        N.Support c byz (c.nonBroadcasterWeight · a) .ack r a d c.rbcAckThreshold) := by
  have faulty := c.one_le_maxFaulty hbyz light ha
  rcases h.deliver j r a d hd with lone | ⟨many, fast | slow⟩
  · have member := h.deliverer j r a d hd
    have zero : ∀ i ∈ c.indices, i = 0 := by
      intro i hi
      rw [Committee.indices, lone.1, Finset.mem_range] at hi
      exact Nat.lt_one_iff.1 hi
    refine absurd ?_ member.2.1
    rw [zero j member.1, ← zero a (hbyz ha)]
    exact ha
  · exact ⟨many, faulty, .inl fast⟩
  · obtain ⟨x, -, -, hx⟩ := slow.honest
      (show weight c.seats byz < c.readyDelivery by unfold Committee.readyDelivery; omega)
    exact ⟨many, faulty, .inr (h.ready x r a d hx)⟩

/-- ECHOs enough to deliver at once leave no room for a VOTE's worth for another digest. -/
theorem Coherent.fast_vote (ha : a ∈ byz) (faulty : 1 ≤ c.maxFaulty)
    (fast : N.Support c byz (c.nonBroadcasterWeight · a) .echo r a d c.rbcFastThreshold)
    (vote : N.Support c byz (c.nonBroadcasterWeight · a) .echo r a e c.rbcVoteThreshold) :
    d = e := by
  refine h.common hbyz light ha fast vote ?_
  unfold Committee.rbcFastThreshold Committee.rbcVoteThreshold
  omega

theorem Coherent.fast_ack (ha : a ∈ byz) (many : c.size ≠ 1) (faulty : 1 ≤ c.maxFaulty)
    (fast : N.Support c byz (c.nonBroadcasterWeight · a) .echo r a d c.rbcFastThreshold)
    (acks : N.Support c byz (c.nonBroadcasterWeight · a) .ack r a e c.rbcAckThreshold) :
    d = e := by
  obtain ⟨x, -, -, hx⟩ := acks.honest_other light (c.maxFaulty_lt_ack many)
  exact h.fast_vote hbyz light ha faulty fast (h.ack_echo light many hx faulty)

theorem Coherent.ack_ack (ha : a ∈ byz)
    (hd : N.Support c byz (c.nonBroadcasterWeight · a) .ack r a d c.rbcAckThreshold)
    (he : N.Support c byz (c.nonBroadcasterWeight · a) .ack r a e c.rbcAckThreshold) :
    d = e := by
  refine h.common hbyz light ha hd he ?_
  unfold Committee.rbcAckThreshold
  omega

theorem Coherent.agreement {i j : ValidatorIndex} (hd : (i, r, a, d) ∈ N.deliveries)
    (he : (j, r, a, e) ∈ N.deliveries) : d = e := by
  by_cases ha : a ∈ byz
  · obtain ⟨many, faulty, fast | acks⟩ := h.delivery_support hbyz light hd ha
    · obtain ⟨-, -, fast' | acks'⟩ := h.delivery_support hbyz light he ha
      · refine h.common hbyz light ha fast fast' ?_
        unfold Committee.rbcFastThreshold
        omega
      · exact h.fast_ack hbyz light ha many faulty fast acks'
    · obtain ⟨-, -, fast' | acks'⟩ := h.delivery_support hbyz light he ha
      · exact (h.fast_ack hbyz light ha many faulty fast' acks).symm
      · exact h.ack_ack hbyz light ha acks acks'
  · exact h.one_proposal a r d e (h.delivery_proposed hbyz light hd ha)
      (h.delivery_proposed hbyz light he ha)

end agreement

/-- No two honest members deliver different digests in one instance, and with an
honest author they deliver what it proposed. -/
theorem broadcast_agreement (hbyz : byz ⊆ c.indices) (light : weight c.seats byz ≤ c.maxFaulty)
    (run : Run c byz N) {i j : ValidatorIndex} (hd : (i, r, a, d) ∈ N.deliveries)
    (he : (j, r, a, e) ∈ N.deliveries) : d = e ∧ (a ∉ byz → (a, r, d) ∈ N.proposals) := by
  have h := coherent_run hbyz light run
  exact ⟨h.agreement hbyz light hd he, h.delivery_proposed hbyz light hd⟩

def fourSeats : Committee where
  epoch := 0
  members := [⟨0, 0, 1, 1⟩, ⟨1, 1, 1, 1⟩, ⟨2, 2, 1, 1⟩, ⟨3, 3, 1, 1⟩]
  nonempty := by decide
  small := by decide
  distinctKeys := by decide
  distinctAddresses := by decide
  seated := by decide
  bounded := by decide

/-- Member 3 proposes 7 to two members and 8 to the third. -/
def twinEvents : List Event :=
  [.hear 0 3 0 3 7, .hear 1 3 0 3 7, .hear 2 3 0 3 8, .receive 0 1 ⟨.echo, 0, 3, 7⟩,
    .receive 1 0 ⟨.echo, 0, 3, 7⟩, .receive 1 2 ⟨.echo, 0, 3, 8⟩]

theorem broadcast_agreement_twins :
    (0, 0, 3, 7) ∈ ((replay fourSeats {3} init twinEvents).getD init).deliveries ∧
    (1, 0, 3, 7) ∈ ((replay fourSeats {3} init twinEvents).getD init).deliveries ∧
    (7 = 7 ∧ (3 ∉ ({3} : Finset ℕ) →
      (3, 0, 7) ∈ ((replay fourSeats {3} init twinEvents).getD init).proposals)) :=
  ⟨by decide, by decide,
    broadcast_agreement (c := fourSeats) (i := 0) (j := 1) (by decide) (by decide)
      (run_replay (by decide)) (by decide) (by decide)⟩

end Network

end Tenzro
