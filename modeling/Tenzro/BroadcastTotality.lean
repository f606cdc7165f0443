import Tenzro.BroadcastAgreement

set_option autoImplicit false
set_option linter.dupNamespace false

/-!
# Totality of reliable broadcast

Once every honest member has heard what every other one said in an instance, a
delivery anywhere means a delivery everywhere.
-/
namespace Tenzro
open WeightedQuorum List Option

namespace ReliableBroadcast

variable {c : Committee}

/-- What a call that prunes nothing keeps. -/
structure Grows (b b' : ReliableBroadcast) : Prop where
  me : b'.me = b.me
  floor : b'.floor = b.floor
  seen : ∀ r a k, (b.inst r a).seen k ⊆ (b'.inst r a).seen k
  sent : ∀ r a k, (b.inst r a).sent k ≠ none → (b'.inst r a).sent k ≠ none
  proposed : ∀ r a, (b.inst r a).proposed ≠ none → (b'.inst r a).proposed ≠ none

theorem Grows.refl (b : ReliableBroadcast) : Grows b b :=
  ⟨rfl, rfl, fun _ _ _ _ h => h, fun _ _ _ h => h, fun _ _ h => h⟩

theorem Grows.trans {b b' b'' : ReliableBroadcast} (h : Grows b b') (h' : Grows b' b'') :
    Grows b b'' where
  me := h'.me.trans h.me
  floor := h'.floor.trans h.floor
  seen r a k := (h.seen r a k).trans (h'.seen r a k)
  sent r a k hs := h'.sent r a k (h.sent r a k hs)
  proposed r a hp := h'.proposed r a (h.proposed r a hp)

theorem takeSignal_grows (b : ReliableBroadcast) (c : Committee) (frm : ValidatorIndex)
    (s : Signal) : Grows b (b.takeSignal c frm s).1 := by
  rcases takeSignal_cases b c frm s with same | counted
  · obtain ⟨inst, me, floor, -, -⟩ := same
    refine ⟨me, floor, ?_, ?_, ?_⟩
    · intro r a k
      rw [inst]
    · intro r a k
      rw [inst]
      exact id
    · intro r a
      rw [inst]
      exact id
  · rw [counted.2.2.2.2]
    refine ⟨rfl, rfl, ?_, ?_, ?_⟩
    · intro r a k
      rw [inst_setInst]
      split_ifs with here
      · rw [here.1, here.2]
        change _ ⊆ ((b.inst s.round s.source).count c frm s).seen k
        rw [Instance.seen_count]
        split_ifs
        · exact Finset.subset_insert _ _
        · exact fun _ h => h
      · exact fun _ h => h
    · intro r a k hs
      rw [inst_setInst]
      split_ifs with here
      · rw [here.1, here.2] at hs
        exact Instance.sent_answer_ne_none (.inr hs)
      · exact hs
    · intro r a hp
      rw [inst_setInst]
      split_ifs with here
      · rw [here.1, here.2] at hp
        exact hp
      · exact hp

def runLoopback (n : ℕ) (c : Committee) (me : ValidatorIndex) (s : Signal)
    (ks : List SignalKind) (b : ReliableBroadcast) (out : List RbcAction) :
    ReliableBroadcast × List RbcAction :=
  ks.foldl (fun acc k =>
    let r := onSignalFuel n acc.1 c me { s with kind := k }
    (r.1, acc.2 ++ r.2)) (b, out)

theorem runLoopback_cons (n : ℕ) (c : Committee) (me : ValidatorIndex) (s : Signal)
    (k : SignalKind) (ks : List SignalKind) (b : ReliableBroadcast) (out : List RbcAction) :
    runLoopback n c me s (k :: ks) b out =
      runLoopback n c me s ks (onSignalFuel n b c me { s with kind := k }).1
        (out ++ (onSignalFuel n b c me { s with kind := k }).2) := rfl

theorem onSignalFuel_succ (n : ℕ) (b : ReliableBroadcast) (c : Committee) (frm : ValidatorIndex)
    (s : Signal) :
    onSignalFuel (n + 1) b c frm s = runLoopback n c b.me s (b.takeSignal c frm s).2.2
      (b.takeSignal c frm s).1 (b.takeSignal c frm s).2.1 := rfl

theorem runLoopback_grows {n : ℕ} {c : Committee} {me : ValidatorIndex} {s : Signal}
    (call : ∀ b k, Grows b (onSignalFuel n b c me { s with kind := k }).1)
    (ks : List SignalKind) (b : ReliableBroadcast) (out : List RbcAction) :
    Grows b (runLoopback n c me s ks b out).1 := by
  induction ks generalizing b out with
  | nil => exact .refl b
  | cons k ks ih =>
    rw [runLoopback_cons]
    exact (call b k).trans (ih _ _)

theorem onSignalFuel_grows (n : ℕ) (b : ReliableBroadcast) (c : Committee)
    (frm : ValidatorIndex) (s : Signal) : Grows b (onSignalFuel n b c frm s).1 := by
  induction n generalizing b frm s with
  | zero => exact .refl b
  | succ n ih =>
    rw [onSignalFuel_succ]
    exact (takeSignal_grows b c frm s).trans (runLoopback_grows (fun b k => ih b _ _) _ _ _)

def Owes (b : ReliableBroadcast) (r : ℕ) (a : ValidatorIndex) (k : SignalKind) : Prop :=
  (b.inst r a).sent k ≠ none ∧ b.me ∉ (b.inst r a).seen k

/-- The kinds `on_signal` may still send in an instance. -/
def unsent (b : ReliableBroadcast) (r : ℕ) (a : ValidatorIndex) : Finset SignalKind :=
  ({.vote, .ack, .ready} : Finset SignalKind).filter (fun k => (b.inst r a).sent k = none)

theorem Grows.unsent {b b' : ReliableBroadcast} (h : Grows b b') (r : ℕ) (a : ValidatorIndex) :
    b'.unsent r a ⊆ b.unsent r a := by
  intro k hk
  obtain ⟨hmem, hnone⟩ := Finset.mem_filter.1 hk
  refine Finset.mem_filter.2 ⟨hmem, ?_⟩
  by_contra hs
  exact h.sent r a k hs hnone

theorem Grows.owes {b b' : ReliableBroadcast} (h : Grows b b') {r : ℕ} {a : ValidatorIndex}
    {k : SignalKind} (counted : b.me ∈ (b.inst r a).seen k) : ¬ b'.Owes r a k := by
  intro owed
  rw [Owes, h.me] at owed
  exact owed.2 (h.seen r a k counted)

theorem unsent_takeSignal {b : ReliableBroadcast} {frm : ValidatorIndex} {s : Signal}
    (h : (b.takeSignal c frm s).2.2 ≠ []) :
    ((b.takeSignal c frm s).1.unsent s.round s.source).card < (b.unsent s.round s.source).card := by
  rcases takeSignal_cases b c frm s with same | counted
  · rw [same.2.2.2.1] at h
    exact absurd rfl h
  · obtain ⟨k, hk⟩ := exists_mem_of_ne_nil _ h
    have grows := takeSignal_grows b c frm s
    rw [counted.2.2.2.2] at hk grows ⊢
    refine Finset.card_lt_card (Finset.ssubset_iff_subset_ne.2 ⟨grows.unsent _ _, ?_⟩)
    intro same
    obtain ⟨want, none⟩ := Instance.mem_due.1 hk
    have kind : k ∈ ({.vote, .ack, .ready} : Finset SignalKind) := by
      cases k with
      | echo => cases want
      | vote => decide
      | ack => decide
      | ready => decide
    have old : k ∈ b.unsent s.round s.source := Finset.mem_filter.2 ⟨kind, none⟩
    rw [← same] at old
    have still := (Finset.mem_filter.1 old).2
    rw [inst_setInst, if_pos ⟨rfl, rfl⟩] at still
    exact Instance.sent_answer_ne_none (.inl want) still

/-- One straight part owes nothing new beyond what it loops back, and it counts
its own sender. -/
theorem owes_takeSignal {b : ReliableBroadcast} {frm : ValidatorIndex} {s : Signal} {r : ℕ}
    {a : ValidatorIndex} {k : SignalKind} (owed : (b.takeSignal c frm s).1.Owes r a k) :
    b.Owes r a k ∨ (r = s.round ∧ a = s.source ∧ k ∈ (b.takeSignal c frm s).2.2) := by
  rcases takeSignal_cases b c frm s with same | counted
  · obtain ⟨inst, me, -, -, -⟩ := same
    rw [Owes, inst, me] at owed
    exact .inl owed
  · have grows := takeSignal_grows b c frm s
    have unseen : b.me ∉ (b.inst r a).seen k := fun hs => grows.owes hs owed
    have hsent := owed.1
    rw [counted.2.2.2.2] at hsent ⊢
    rw [inst_setInst] at hsent
    split_ifs at hsent with here
    · obtain ⟨rfl, rfl⟩ := here
      by_cases due : k ∈ ((b.inst s.round s.source).count c frm s).due c s.digest
      · exact .inr ⟨rfl, rfl, due⟩
      · change (if k ∈ _ then _ else _) ≠ none at hsent
        rw [if_neg due] at hsent
        exact .inl ⟨hsent, unseen⟩
    · exact .inl ⟨hsent, unseen⟩

theorem seen_takeSignal {b : ReliableBroadcast} {frm : ValidatorIndex} {s : Signal}
    (live : b.floor ≤ s.round) (source : s.source ∈ c.indices) (member : frm ∈ c.indices) :
    frm ∈ ((b.takeSignal c frm s).1.inst s.round s.source).seen s.kind := by
  rcases takeSignal_cases b c frm s with same | counted
  · obtain ⟨inst, -, -, -, low | out | out | seen⟩ := same
    · omega
    · exact absurd source out
    · exact absurd member out
    · rw [inst]
      exact seen
  · rw [counted.2.2.2.2, inst_setInst, if_pos ⟨rfl, rfl⟩]
    change frm ∈ ((b.inst s.round s.source).count c frm s).seen s.kind
    rw [Instance.seen_count, if_pos rfl]
    exact Finset.mem_insert_self _ _

theorem seen_onSignalFuel {n : ℕ} (b : ReliableBroadcast) (frm : ValidatorIndex) (s : Signal)
    (fuel : 0 < n) (live : b.floor ≤ s.round) (source : s.source ∈ c.indices)
    (member : frm ∈ c.indices) :
    frm ∈ ((onSignalFuel n b c frm s).1.inst s.round s.source).seen s.kind := by
  cases n with
  | zero => omega
  | succ n =>
    rw [onSignalFuel_succ]
    have grows := runLoopback_grows (fun b' k => onSignalFuel_grows n b' c b.me { s with kind := k })
      (b.takeSignal c frm s).2.2 (b.takeSignal c frm s).1 (b.takeSignal c frm s).2.1
    exact grows.seen _ _ _ (seen_takeSignal live source member)

theorem owes_onSignalFuel (n : ℕ) {b : ReliableBroadcast} {frm : ValidatorIndex} {s : Signal}
    (hme : b.me ∈ c.indices) (fuel : (b.unsent s.round s.source).card < n) {r : ℕ}
    {a : ValidatorIndex} {k : SignalKind} (owed : (onSignalFuel n b c frm s).1.Owes r a k) :
    b.Owes r a k := by
  induction n generalizing b frm s with
  | zero => omega
  | succ n ih =>
    rw [onSignalFuel_succ] at owed
    rcases takeSignal_cases b c frm s with same | counted
    · rw [same.2.2.2.1] at owed
      have here : (b.takeSignal c frm s).1.Owes r a k := owed
      rw [Owes, same.1, same.2.1] at here
      exact here
    · obtain ⟨live, source, -, -, -⟩ := counted
      -- Each call of the fold pays for its own kind and owes nothing new.
      have fold : ∀ (ks : List SignalKind) (b' : ReliableBroadcast) (out : List RbcAction),
          Grows b b' → (ks ≠ [] → (b'.unsent s.round s.source).card < n) →
          (runLoopback n c b.me s ks b' out).1.Owes r a k →
          b'.Owes r a k ∧ (r = s.round → a = s.source → k ∉ ks) := by
        intro ks
        induction ks with
        | nil => exact fun b' _ _ _ owed => ⟨owed, fun _ _ => not_mem_nil⟩
        | cons k' ks step =>
          intro b' out grows fuel' owed'
          rw [runLoopback_cons] at owed'
          have hn := fuel' (cons_ne_nil _ _)
          have next := onSignalFuel_grows n b' c b.me { s with kind := k' }
          have less := Finset.card_le_card (next.unsent s.round s.source)
          obtain ⟨left, out⟩ := step _ _ (grows.trans next) (fun _ => lt_of_le_of_lt less hn) owed'
          refine ⟨ih (s := { s with kind := k' }) (by rw [grows.me]; exact hme) hn left, ?_⟩
          intro hr ha hk
          subst hr ha
          rcases mem_cons.1 hk with heq | hk
          · subst heq
            have paid := seen_onSignalFuel b' b.me { s with kind := k } (show 0 < n by omega)
              (by rw [grows.floor]; exact live) source hme
            refine left.2 ?_
            rw [next.me, grows.me]
            exact paid
          · exact out rfl rfl hk
      obtain ⟨left, out⟩ := fold _ _ _ (takeSignal_grows b c frm s)
        (fun some => by have := unsent_takeSignal some; omega) owed
      rcases owes_takeSignal left with old | ⟨hr, ha, hk⟩
      · exact old
      · exact absurd hk (out hr ha)

theorem card_unsent_le (b : ReliableBroadcast) (r : ℕ) (a : ValidatorIndex) :
    (b.unsent r a).card ≤ 3 := Finset.card_filter_le _ _

theorem owes_onSignal (b : ReliableBroadcast) (frm : ValidatorIndex) (s : Signal)
    (hme : b.me ∈ c.indices) {r : ℕ} {a : ValidatorIndex} {k : SignalKind}
    (owed : (b.onSignal c frm s).1.Owes r a k) : b.Owes r a k :=
  owes_onSignalFuel 4 hme (Nat.lt_succ_of_le (card_unsent_le b _ _)) owed

theorem takeProposal_grows (b : ReliableBroadcast) (c : Committee) (frm : ValidatorIndex) (r : ℕ)
    (a : ValidatorIndex) (d : Digest) : Grows b (b.takeProposal c frm r a d).1 := by
  rcases takeProposal_cases b c frm r a d with same | lone | echo
  · obtain ⟨inst, me, floor, -, -⟩ := same
    refine ⟨me, floor, ?_, ?_, ?_⟩ <;> intros <;> simp_all
  · rw [lone.2.2.2.2]
    refine ⟨rfl, rfl, ?_, ?_, ?_⟩
    · intro r' a' k
      rw [inst_setInst]
      split_ifs with here
      · rw [here.1, here.2]
        exact fun _ h => h
      · exact fun _ h => h
    · intro r' a' k hs
      rw [inst_setInst]
      split_ifs with here
      · rw [here.1, here.2] at hs
        exact hs
      · exact hs
    · intro r' a' hp
      rw [inst_setInst]
      split_ifs with here
      · exact some_ne_none d
      · exact hp
  · rw [echo.2.2.2.2]
    refine ⟨rfl, rfl, ?_, ?_, ?_⟩
    · intro r' a' k
      rw [inst_setInst]
      split_ifs with here
      · rw [here.1, here.2]
        exact fun _ h => h
      · exact fun _ h => h
    · intro r' a' k hs
      rw [inst_setInst]
      split_ifs with here
      · rw [here.1, here.2] at hs
        by_cases hk : k = .echo
        · simp [hk]
        · simpa [hk] using hs
      · exact hs
    · intro r' a' hp
      rw [inst_setInst]
      split_ifs with here
      · exact some_ne_none d
      · exact hp

theorem onPropose_grows (b : ReliableBroadcast) (c : Committee) (frm : ValidatorIndex) (r : ℕ)
    (a : ValidatorIndex) (d : Digest) : Grows b (b.onPropose c frm r a d).1 := by
  have first := takeProposal_grows b c frm r a d
  rcases takeProposal_cases b c frm r a d with h | h | h
  · rw [onPropose_of_quiet (by rw [h.2.2.2.1])]
    exact first
  · rw [onPropose_of_quiet (by rw [h.2.2.2.2])]
    exact first
  · rw [onPropose_of_echo h.2.2.2.2]
    rw [h.2.2.2.2] at first
    exact first.trans (onSignalFuel_grows 4 _ c _ _)

theorem proposed_onPropose {b : ReliableBroadcast} {r : ℕ} {a : ValidatorIndex}
    (live : b.floor ≤ r) (d : Digest) : ((b.onPropose c a r a d).1.inst r a).proposed ≠ none := by
  rcases takeProposal_cases b c a r a d with h | h | h
  · rcases h.2.2.2.2 with out | low | seen
    · exact absurd rfl out
    · omega
    · exact (onPropose_grows b c a r a d).proposed r a seen
  · rw [onPropose_of_quiet (by rw [h.2.2.2.2]), h.2.2.2.2, inst_setInst, if_pos ⟨rfl, rfl⟩]
    exact some_ne_none d
  · rw [onPropose_of_echo h.2.2.2.2]
    refine (onSignalFuel_grows 4 _ c b.me _).proposed r a ?_
    rw [inst_setInst, if_pos ⟨rfl, rfl⟩]
    exact some_ne_none d

theorem owes_onPropose {b : ReliableBroadcast} {frm : ValidatorIndex} {r : ℕ} {a : ValidatorIndex}
    {d : Digest} (hme : b.me ∈ c.indices) (ha : frm = a → a ∈ c.indices) {r' : ℕ}
    {a' : ValidatorIndex} {k : SignalKind} (owed : (b.onPropose c frm r a d).1.Owes r' a' k) :
    b.Owes r' a' k := by
  rcases takeProposal_cases b c frm r a d with h | h | h
  · rw [onPropose_of_quiet (by rw [h.2.2.2.1])] at owed
    have here : (b.takeProposal c frm r a d).1.Owes r' a' k := owed
    rw [Owes, h.1, h.2.1] at here
    exact here
  · rw [onPropose_of_quiet (by rw [h.2.2.2.2]), h.2.2.2.2, Owes, inst_setInst] at owed
    split_ifs at owed with here
    · obtain ⟨rfl, rfl⟩ := here
      exact owed
    · exact owed
  · obtain ⟨hfrm, live, -, -, heq⟩ := h
    set b' := b.setInst r a
      { b.inst r a with
        proposed := some d
        sent := Function.update (b.inst r a).sent .echo (some d) } with hb'
    have counted := seen_onSignalFuel (n := 4) b' b.me ⟨.echo, r, a, d⟩ (by omega) live
      (ha hfrm) hme
    have next := onSignalFuel_grows 4 b' c b.me ⟨.echo, r, a, d⟩
    rw [onPropose_of_echo heq] at owed
    have old := owes_onSignal b' b.me ⟨.echo, r, a, d⟩ hme owed
    rw [hb'] at old
    rw [Owes, inst_setInst] at old
    split_ifs at old with here
    · obtain ⟨rfl, rfl⟩ := here
      by_cases hk : k = .echo
      · subst hk
        exfalso
        refine owed.2 ?_
        rw [onSignal, next.me]
        exact counted
      · refine ⟨?_, old.2⟩
        simpa [hk] using old.1
    · exact old

end ReliableBroadcast

namespace Network

variable (c : Committee) (byz : Finset ValidatorIndex)

/-- Between events nobody owes itself a count, and what was received was counted. -/
structure Settled (N : Network) : Prop where
  own : ∀ j r a k, ¬ (N.parties j).Owes r a k
  heard : ∀ j r a d, (j, a, r, a, d) ∈ N.heard →
    r < (N.parties j).floor ∨ ((N.parties j).inst r a).proposed ≠ none
  received : ∀ j frm s, (j, frm, s) ∈ N.received →
    s.round < (N.parties j).floor ∨ s.source ∉ c.indices ∨ frm ∉ c.indices ∨
      frm ∈ ((N.parties j).inst s.round s.source).seen s.kind

variable {c byz} {N N' : Network}

theorem Settled.act (h : Settled c N) {j : ValidatorIndex} {b : ReliableBroadcast}
    (out : List RbcAction) (floor : (N.parties j).floor ≤ b.floor)
    (paid : ∀ r a k, b.Owes r a k → (N.parties j).Owes r a k)
    (proposed : ∀ r a, b.floor ≤ r → ((N.parties j).inst r a).proposed ≠ none →
      (b.inst r a).proposed ≠ none)
    (seen : ∀ r a k, b.floor ≤ r → ((N.parties j).inst r a).seen k ⊆ (b.inst r a).seen k) :
    Settled c (N.act j b out) := by
  constructor
  case own =>
    intro i r a k
    by_cases hi : i = j
    · subst hi
      rw [act_parties_self]
      exact fun owed => h.own i r a k (paid r a k owed)
    · rw [act_parties_of_ne _ _ _ hi]
      exact h.own i r a k
  case heard =>
    intro i r a d hd
    have old := h.heard i r a d hd
    by_cases hi : i = j
    · subst hi
      rw [act_parties_self]
      by_cases live : b.floor ≤ r
      · exact old.imp (fun low => by omega) (proposed r a live)
      · exact .inl (not_le.1 live)
    · rw [act_parties_of_ne _ _ _ hi]
      exact old
  case received =>
    intro i frm s hs
    have old := h.received i frm s hs
    by_cases hi : i = j
    · subst hi
      rw [act_parties_self]
      by_cases live : b.floor ≤ s.round
      · exact old.imp (fun low => by omega)
          (Or.imp_right (Or.imp_right fun counted => seen _ _ _ live counted))
      · exact .inl (not_le.1 live)
    · rw [act_parties_of_ne _ _ _ hi]
      exact old

theorem Settled.grow (h : Settled c N) {j : ValidatorIndex} {b : ReliableBroadcast}
    (out : List RbcAction) (grows : (N.parties j).Grows b)
    (paid : ∀ r a k, b.Owes r a k → (N.parties j).Owes r a k) : Settled c (N.act j b out) :=
  h.act out grows.floor.ge paid (fun r a _ => grows.proposed r a) fun r a k _ => grows.seen r a k

theorem Settled.onPropose (h : Settled c N) {j frm a : ValidatorIndex} {r : ℕ} {d : Digest}
    (mine : (N.parties j).me ∈ c.indices) (author : frm = a → a ∈ c.indices) :
    Settled c (({ N with heard := (j, frm, r, a, d) :: N.heard }).act j
      ((N.parties j).onPropose c frm r a d).1 ((N.parties j).onPropose c frm r a d).2) := by
  have grows := (N.parties j).onPropose_grows c frm r a d
  have next := h.grow ((N.parties j).onPropose c frm r a d).2 grows
    fun _ _ _ => ReliableBroadcast.owes_onPropose mine author
  refine ⟨next.own, ?_, next.received⟩
  intro i r' a' e he
  rcases mem_cons.1 he with heq | he
  · cases heq
    rw [act_parties_self]
    by_cases live : (N.parties j).floor ≤ r
    · exact .inr (ReliableBroadcast.proposed_onPropose live d)
    · exact .inl (lt_of_lt_of_eq (not_le.1 live) grows.floor.symm)
  · exact next.heard i r' a' e he

theorem Settled.step (hbyz : byz ⊆ c.indices) (hc : Coherent c byz N) (h : Settled c N)
    (step : Step c byz N N') : Settled c N' := by
  cases step with
  | @propose j r d hj honest once =>
    have next := h.onPropose (r := r) (d := d) (by rw [hc.me]; exact hj) (fun _ : j = j => hj)
    exact ⟨next.own, next.heard, next.received⟩
  | @hear j frm r a d hj honest hfrm =>
    have member : frm ∈ c.indices :=
      hfrm.elim (fun hb => hbyz hb) (fun hp => (hc.proposer _ _ _ hp).1)
    exact h.onPropose (by rw [hc.me]; exact hj) (fun same => same ▸ member)
  | @receive j frm s hj honest hfrm =>
    have grows := ReliableBroadcast.onSignalFuel_grows 4 (N.parties j) c frm s
    have next := h.grow ((N.parties j).onSignal c frm s).2 grows
      (fun _ _ _ => ReliableBroadcast.owes_onSignal _ frm s (by rw [hc.me]; exact hj))
    refine ⟨next.own, next.heard, ?_⟩
    intro i x s' hs
    rcases mem_cons.1 hs with heq | hs
    · cases heq
      rw [act_parties_self]
      by_cases live : (N.parties j).floor ≤ s.round
      · by_cases source : s.source ∈ c.indices
        · by_cases member : frm ∈ c.indices
          · exact .inr (.inr (.inr
              (ReliableBroadcast.seen_onSignalFuel _ frm s (by omega) live source member)))
          · exact .inr (.inr (.inl member))
        · exact .inr (.inl source)
      · exact .inl (lt_of_lt_of_eq (not_le.1 live) grows.floor.symm)
    · exact next.received i x s' hs
  | @prune j r =>
    refine h.act [] ((N.parties j).floor_le_pruneBelow r) ?_ ?_ ?_
    · intro r' a k owed
      rw [ReliableBroadcast.Owes, ReliableBroadcast.me_pruneBelow] at owed
      rcases (N.parties j).inst_pruneBelow r r' a with same | gone
      · rwa [same] at owed
      · rw [gone] at owed
        exact absurd rfl owed.1
    · intro r' a live
      rw [ReliableBroadcast.inst_pruneBelow_of_le live]
      exact id
    · intro r' a k live
      rw [ReliableBroadcast.inst_pruneBelow_of_le live]

theorem settled_run (hbyz : byz ⊆ c.indices) (light : weight c.seats byz ≤ c.maxFaulty)
    (run : Run c byz N) : Settled c N := by
  induction run with
  | refl =>
    refine ⟨fun j r a k owed => owed.1 rfl, ?_, ?_⟩
    · exact fun j r a d h => absurd h not_mem_nil
    · exact fun j frm s h => absurd h not_mem_nil
  | tail run step ih => exact ih.step hbyz (coherent_run hbyz light run) step

/-- Nothing said in the instance is still under way, and nobody has pruned it. -/
structure Quiescent (c : Committee) (byz : Finset ValidatorIndex) (N : Network) (r : ℕ)
    (a : ValidatorIndex) : Prop where
  unpruned : ∀ j ∈ c.indices, j ∉ byz → (N.parties j).floor ≤ r
  received : ∀ j ∈ c.indices, j ∉ byz → ∀ m ∈ N.broadcasts,
    m.2.round = r ∧ m.2.source = a ∧ j ≠ m.1 → (j, m.1, m.2) ∈ N.received
  heard : ∀ j ∈ c.indices, j ∉ byz → ∀ p ∈ N.proposals,
    p.1 = a ∧ p.2.1 = r → (j, a, r, a, p.2.2) ∈ N.heard

end Network

theorem Instance.contains_of_backers {inst : Instance} {k : SignalKind} {d : Digest}
    {i : ValidatorIndex} (h : i ∈ inst.backers k d) : inst.tallies.contains d = true := by
  by_contra absent
  rw [Bool.not_eq_true, SortedMap.contains_eq_false] at absent
  have none : inst.tally d = Tally.empty := by
    unfold Instance.tally SortedMap.getD
    rw [absent]
    rfl
  rw [Instance.backers, none] at h
  exact absurd h (Finset.notMem_empty i)

namespace Network

section totality

variable {c : Committee} {byz : Finset ValidatorIndex} {N : Network}
  {r : ℕ} {a : ValidatorIndex} {d e : Digest}
  (hc : Coherent c byz N) (hs : Settled c N) (quiet : Quiescent c byz N r a) (ha : a ∈ c.indices)
include hc hs quiet ha

theorem Quiescent.counted {i x : ValidatorIndex} (hi : i ∈ c.indices) (honest : i ∉ byz)
    {k : SignalKind} (said : N.said x k r a d) : x ∈ ((N.parties i).inst r a).backers k d := by
  have speaker := hc.speaker x _ said
  have seen : x ∈ ((N.parties i).inst r a).seen k := by
    by_cases same : i = x
    · subst same
      have sent := (hc.said_sent i k r a d said).resolve_left
        (not_lt.2 (quiet.unpruned i hi honest))
      by_contra unseen
      refine hs.own i r a k ⟨?_, ?_⟩
      · rw [sent]
        exact some_ne_none d
      · rw [hc.me]
        exact unseen
    · have got := quiet.received i hi honest _ said ⟨rfl, rfl, same⟩
      rcases hs.received i x _ got with low | out | out | seen
      · exact absurd low (not_lt.2 (quiet.unpruned i hi honest))
      · exact absurd ha out
      · exact absurd speaker.1 out
      · exact seen
  obtain ⟨e, he⟩ := (hc.counts i r a).seen_backs k x seen
  have told := (hc.backed i k r a e x he).resolve_left speaker.2
  rw [hc.unique x k r a d e said told]
  exact he

theorem Quiescent.tally_other {i : ValidatorIndex} (hi : i ∈ c.indices) (honest : i ∉ byz)
    {k : SignalKind} {E : Finset ValidatorIndex} (said : ∀ x ∈ E, N.said x k r a d) :
    weight (c.nonBroadcasterWeight · a) E ≤ (((N.parties i).inst r a).tally d).nonAuthor k := by
  rw [(hc.counts i r a).other k d]
  exact weight_mono (fun x hx => quiet.counted hc hs ha hi honest (said x hx))

theorem Quiescent.tally_full {i : ValidatorIndex} (hi : i ∈ c.indices) (honest : i ∉ byz)
    {k : SignalKind} {E : Finset ValidatorIndex} (said : ∀ x ∈ E, N.said x k r a d) :
    weight c.seats E ≤ ((((N.parties i).inst r a).tally d).byKind k).weight := by
  rw [(hc.counts i r a).full k d]
  exact weight_mono (fun x hx => quiet.counted hc hs ha hi honest (said x hx))

omit hs quiet ha in
theorem Coherent.answers {i x : ValidatorIndex} {k k' : SignalKind}
    (counted : x ∈ ((N.parties i).inst r a).backers k d)
    (want : ((N.parties i).inst r a).wants c d k' = true)
    (one : ∀ e, N.said i k' r a e → e = d) : N.said i k' r a d := by
  have sent := (hc.counts i r a).answered k' d (Instance.contains_of_backers counted) want
  obtain ⟨e, he⟩ := ne_none_iff_exists'.1 sent
  have said := hc.sent_said i k' r a e he
  rw [one e said] at said
  exact said

variable (hbyz : byz ⊆ c.indices) (light : weight c.seats byz ≤ c.maxFaulty)
include hbyz light

omit hc hs quiet in
theorem honest_weight :
    c.totalSeats ≤ weight c.seats (c.indices \ byz) + c.maxFaulty ∧
      weight c.seats (c.indices \ byz) ≤
        weight (c.nonBroadcasterWeight · a) (c.indices \ byz) + 1 := by
  have split := weight_sdiff (w := c.seats) hbyz
  rw [c.weight_indices] at split
  refine ⟨by omega, ?_⟩
  by_cases member : a ∈ c.indices \ byz
  · exact (c.weight_nonBroadcaster member ha).ge
  · have same : weight (c.nonBroadcasterWeight · a) (c.indices \ byz) =
        weight c.seats (c.indices \ byz) := by
      refine Finset.sum_congr rfl (fun i hi => if_neg ?_)
      rintro rfl
      exact member hi
    omega

theorem Quiescent.ack_weight {k : SignalKind} (all : ∀ i ∈ c.indices, i ∉ byz → N.said i k r a d)
    {i : ValidatorIndex} (hi : i ∈ c.indices) (honest : i ∉ byz) :
    c.rbcAckThreshold ≤ (((N.parties i).inst r a).tally d).nonAuthor k := by
  have heavy := quiet.tally_other hc hs ha hi honest (E := c.indices \ byz) (k := k) (d := d)
    (fun x hx => all x (Finset.mem_sdiff.1 hx).1 (Finset.mem_sdiff.1 hx).2)
  have := honest_weight ha hbyz light
  have := c.totalSeats_pos
  refine le_trans ?_ heavy
  unfold Committee.rbcAckThreshold
  unfold Committee.maxFaulty at *
  omega

theorem Quiescent.answer {k k' : SignalKind} (all : ∀ i ∈ c.indices, i ∉ byz → N.said i k r a d)
    (asks : ∀ inst : Instance, c.rbcAckThreshold ≤ (inst.tally d).nonAuthor k →
      inst.wants c d k' = true)
    (one : ∀ i e, N.said i k' r a e → e = d) : ∀ i ∈ c.indices, i ∉ byz → N.said i k' r a d := by
  intro i hi honest
  have heavy := quiet.ack_weight hc hs ha hbyz light all hi honest
  exact hc.answers (quiet.counted hc hs ha hi honest (all i hi honest)) (asks _ heavy) (one i)

theorem Quiescent.deliver_of_ready (all : ∀ i ∈ c.indices, i ∉ byz → N.said i .ready r a d)
    {i : ValidatorIndex} (hi : i ∈ c.indices) (honest : i ∉ byz) :
    ∃ e, (i, r, a, e) ∈ N.deliveries := by
  have heavy := quiet.tally_full hc hs ha hi honest (E := c.indices \ byz) (k := .ready) (d := d)
    (fun x hx => all x (Finset.mem_sdiff.1 hx).1 (Finset.mem_sdiff.1 hx).2)
  have counted := quiet.counted hc hs ha hi honest (all i hi honest)
  have enough : c.readyDelivery ≤
      ((((N.parties i).inst r a).tally d).byKind .ready).weight := by
    have := honest_weight ha hbyz light
    have := c.totalSeats_pos
    refine le_trans ?_ heavy
    unfold Committee.readyDelivery
    unfold Committee.maxFaulty at *
    omega
  have done := (hc.counts i r a).complete d (Instance.contains_of_backers counted) enough
  obtain ⟨e, he⟩ := ne_none_iff_exists'.1 done
  exact ⟨e, hc.delivered_logged i r a e he⟩

theorem Quiescent.ready_of_honest_author (many : c.size ≠ 1) (author : a ∉ byz)
    (proposed : (a, r, d) ∈ N.proposals) :
    ∀ i ∈ c.indices, i ∉ byz → N.said i .ready r a d := by
  have one : ∀ k i e, N.said i k r a e → e = d := by
    intro k i e said
    obtain ⟨x, -, -, hx⟩ := hc.origin light many said
    exact hc.one_proposal a r e d ((hc.echo x r a e hx).resolve_left author) proposed
  have echo : ∀ i ∈ c.indices, i ∉ byz → N.said i .echo r a d := by
    intro i hi honest
    have got := quiet.heard i hi honest _ proposed ⟨rfl, rfl⟩
    have some := (hs.heard i r a d got).resolve_left (not_lt.2 (quiet.unpruned i hi honest))
    obtain ⟨e, he⟩ := ne_none_iff_exists'.1 some
    have said := hc.sent_said i .echo r a e (hc.proposed_echo i r a e he many)
    rw [one _ i e said] at said
    exact said
  have ack := quiet.answer hc hs ha hbyz light echo
    (fun _ heavy => by simp [Instance.wants, heavy]) (one .ack)
  exact quiet.answer hc hs ha hbyz light ack (fun _ heavy => by simp [Instance.wants, heavy])
    (one .ready)

theorem Quiescent.ready_of_fast (author : a ∈ byz) (many : c.size ≠ 1) (faulty : 1 ≤ c.maxFaulty)
    (fast : N.Support c byz (c.nonBroadcasterWeight · a) .echo r a d c.rbcFastThreshold) :
    ∀ i ∈ c.indices, i ∉ byz → N.said i .ready r a d := by
  have vote : ∀ i ∈ c.indices, i ∉ byz → N.said i .vote r a d := by
    obtain ⟨E, hE, heavy, told⟩ := fast
    have split := weight_sdiff (w := (c.nonBroadcasterWeight · a)) (U := E) (B := E ∩ byz)
      Finset.inter_subset_left
    have less := weight_mono (w := (c.nonBroadcasterWeight · a))
      (Finset.inter_subset_right : E ∩ byz ⊆ byz)
    have own := c.weight_nonBroadcaster author ha
    have enough : c.rbcVoteThreshold ≤ weight (c.nonBroadcasterWeight · a) (E \ (E ∩ byz)) := by
      unfold Committee.rbcFastThreshold at heavy
      unfold Committee.rbcVoteThreshold
      omega
    have said : ∀ x ∈ E \ (E ∩ byz), x ∉ byz ∧ N.said x .echo r a d := by
      intro x hx
      rw [Finset.mem_sdiff, Finset.mem_inter] at hx
      have out : x ∉ byz := fun hb => hx.2 ⟨hx.1, hb⟩
      exact ⟨out, (told x hx.1).resolve_left out⟩
    intro i hi honest
    have shown := quiet.tally_other hc hs ha hi honest (fun x hx => (said x hx).2)
    obtain ⟨x, hx⟩ : (E \ (E ∩ byz)).Nonempty := by
      rw [Finset.nonempty_iff_ne_empty]
      intro empty
      rw [empty] at enough
      have none : weight (c.nonBroadcasterWeight · a) ∅ = 0 := rfl
      have := c.maxFaulty_lt_vote
      omega
    refine hc.answers (quiet.counted hc hs ha hi honest (said x hx).2) ?_ ?_
    · exact decide_eq_true (enough.trans shown)
    · exact fun e he => (hc.fast_vote hbyz light author faulty
        ⟨E, hE, heavy, told⟩ (hc.vote i r a e he)).symm
  have ack := quiet.answer hc hs ha hbyz light vote
    (fun _ heavy => by simp [Instance.wants, heavy]) fun i e he =>
      (hc.fast_vote hbyz light author faulty fast (hc.ack_echo light many he faulty)).symm
  exact quiet.answer hc hs ha hbyz light ack (fun _ heavy => by simp [Instance.wants, heavy])
    fun i e he => (hc.fast_ack hbyz light author many faulty fast (hc.ready i r a e he)).symm

theorem Quiescent.ready_of_slow (author : a ∈ byz)
    (slow : N.Support c byz c.seats .ready r a d c.readyDelivery) :
    ∀ i ∈ c.indices, i ∉ byz → N.said i .ready r a d := by
  obtain ⟨E, hE, heavy, told⟩ := slow
  have split := weight_sdiff (w := c.seats) (U := E) (B := E ∩ byz) Finset.inter_subset_left
  have less := weight_mono (w := c.seats) (Finset.inter_subset_right : E ∩ byz ⊆ byz)
  have enough : c.validity ≤ weight c.seats (E \ (E ∩ byz)) := by
    unfold Committee.readyDelivery at heavy
    unfold Committee.validity
    omega
  have said : ∀ x ∈ E \ (E ∩ byz), x ∉ byz ∧ N.said x .ready r a d := by
    intro x hx
    rw [Finset.mem_sdiff, Finset.mem_inter] at hx
    have out : x ∉ byz := fun hb => hx.2 ⟨hx.1, hb⟩
    exact ⟨out, (told x hx.1).resolve_left out⟩
  obtain ⟨x, hx⟩ : (E \ (E ∩ byz)).Nonempty := by
    rw [Finset.nonempty_iff_ne_empty]
    intro empty
    rw [empty] at enough
    exact absurd enough (Nat.not_succ_le_zero _)
  intro i hi honest
  have shown := quiet.tally_full hc hs ha hi honest (fun x hx => (said x hx).2)
  refine hc.answers (quiet.counted hc hs ha hi honest (said x hx).2) ?_ ?_
  · simp [Instance.wants, enough.trans shown]
  · exact fun e he => (hc.ack_ack hbyz light author
      (hc.ready x r a d (said x hx).2) (hc.ready i r a e he)).symm

end totality

/-- In a quiescent instance a delivery at one honest member is one at all of them. -/
theorem broadcast_totality {c : Committee} {byz : Finset ValidatorIndex} {N : Network} {r : ℕ}
    {a : ValidatorIndex} {d : Digest} (hbyz : byz ⊆ c.indices)
    (light : weight c.seats byz ≤ c.maxFaulty) (run : Run c byz N)
    (quiet : Quiescent c byz N r a) {j : ValidatorIndex} (hd : (j, r, a, d) ∈ N.deliveries) :
    ∀ i ∈ c.indices, i ∉ byz → (i, r, a, d) ∈ N.deliveries := by
  have hc := coherent_run hbyz light run
  have hs := settled_run hbyz light run
  obtain ⟨hj, -, ha⟩ := hc.deliverer j r a d hd
  intro i hi honest
  by_cases one : c.size = 1
  · have zero : ∀ x ∈ c.indices, x = 0 := by
      intro x hx
      rw [Committee.indices, one, Finset.mem_range] at hx
      exact Nat.lt_one_iff.1 hx
    rw [zero i hi, ← zero j hj]
    exact hd
  have ready : ∀ i ∈ c.indices, i ∉ byz → N.said i .ready r a d := by
    by_cases author : a ∈ byz
    · obtain ⟨-, faulty, -⟩ := hc.delivery_support hbyz light hd author
      rcases hc.deliver j r a d hd with lone | ⟨-, fast | slow⟩
      · exact absurd lone.1 one
      · exact quiet.ready_of_fast hc hs ha hbyz light author one faulty fast
      · exact quiet.ready_of_slow hc hs ha hbyz light author slow
    · exact quiet.ready_of_honest_author hc hs ha hbyz light one author
        (hc.delivery_proposed hbyz light hd author)
  obtain ⟨e, he⟩ := quiet.deliver_of_ready hc hs ha hbyz light ready hi honest
  rw [hc.agreement hbyz light hd he]
  exact he

/-- Member 0 proposes 7 and the three honest members exchange every signal. -/
def exchangeEvents : List Event :=
  [Event.propose 0 0 7, .hear 1 0 0 0 7, .hear 2 0 0 0 7] ++
    [SignalKind.echo, .vote, .ack, .ready].flatMap (fun k =>
      [(0, 1), (0, 2), (1, 0), (1, 2), (2, 0), (2, 1)].map
        (fun p => Event.receive p.1 p.2 ⟨k, 0, 0, 7⟩))

theorem broadcast_totality_exchange :
    (0, 0, 0, 7) ∈ ((replay fourSeats {3} init exchangeEvents).getD init).deliveries ∧
    ∀ i ∈ fourSeats.indices, i ∉ ({3} : Finset ℕ) →
      (i, 0, 0, 7) ∈ ((replay fourSeats {3} init exchangeEvents).getD init).deliveries :=
  ⟨by decide,
    broadcast_totality (c := fourSeats) (j := 0) (by decide) (by decide)
      (run_replay (by decide))
      ⟨by decide, by decide, by decide⟩ (by decide)⟩

section
variable {c : Committee} {byz : Finset ValidatorIndex} {N : Network} {r : ℕ}
  {a j : ValidatorIndex} {d : Digest} {k : SignalKind} (hbyz : byz ⊆ c.indices)
  (light : weight c.seats byz ≤ c.maxFaulty) (run : Run c byz N)
include hbyz light run

/-- In a quiescent instance every honest member delivers what an honest author proposed. -/
theorem broadcast_validity (quiet : Quiescent c byz N r a) (many : c.size ≠ 1)
    (proposed : (a, r, d) ∈ N.proposals) :
    ∀ i ∈ c.indices, i ∉ byz → (i, r, a, d) ∈ N.deliveries := by
  have hc := coherent_run hbyz light run
  have hs := settled_run hbyz light run
  obtain ⟨ha, author⟩ := hc.proposer a r d proposed
  have ready := quiet.ready_of_honest_author hc hs ha hbyz light many author proposed
  intro i hi honest
  obtain ⟨e, he⟩ := quiet.deliver_of_ready hc hs ha hbyz light ready hi honest
  rw [hc.one_proposal a r d e proposed (hc.delivery_proposed hbyz light he author)]
  exact he

/-- An honest member signals one digest of each kind, and each kind stands on the one before. -/
theorem signals_backed (said : N.said j k r a d) :
    let backed := N.Support c byz (c.nonBroadcasterWeight · a)
    (∀ e, N.said j k r a e → e = d) ∧
      (k = .echo → a ∈ byz ∨ (a, r, d) ∈ N.proposals) ∧
      (k = .vote → backed .echo r a d c.rbcVoteThreshold) ∧
      (k = .ack → backed .echo r a d c.rbcAckThreshold ∨ backed .vote r a d c.rbcAckThreshold) ∧
      (k = .ready → backed .ack r a d c.rbcAckThreshold) := by
  have hc := coherent_run hbyz light run
  refine ⟨fun e other => hc.unique j k r a e d other said, ?_, ?_, ?_, ?_⟩ <;> rintro rfl
  exacts [hc.echo j r a d said, hc.vote j r a d said, hc.ack j r a d said, hc.ready j r a d said]

end

theorem broadcast_validity_exchange :
    (1, 0, 0, 7) ∈ ((replay fourSeats {3} init exchangeEvents).getD init).deliveries :=
  broadcast_validity (c := fourSeats) (by decide) (by decide) (run_replay (by decide))
    ⟨by decide, by decide, by decide⟩ (by decide) (by decide) 1 (by decide) (by decide)

theorem signals_backed_exchange :
    ((replay fourSeats {3} init exchangeEvents).getD init).Support fourSeats {3}
      (fourSeats.nonBroadcasterWeight · 0) .ack 0 0 7 fourSeats.rbcAckThreshold :=
  (signals_backed (c := fourSeats) (j := 0) (k := .ready) (by decide) (by decide)
    (run_replay (by decide)) (by unfold said; decide)).2.2.2.2 rfl

end Network

end Tenzro
