import Tenzro.ReliableBroadcast

set_option autoImplicit false
set_option linter.dupNamespace false

/-!
# The committee running reliable broadcast

Honest members run `ReliableBroadcast`; every other member of `byz` says what
it likes to whom it likes. The logs keep what honest members proposed,
broadcast, delivered and received, in any order of delivery.
-/
namespace Tenzro
open WeightedQuorum List Function SortedMap

namespace ReliableBroadcast

@[simp] theorem inst_setInst (b : ReliableBroadcast) (r : ℕ) (a : ValidatorIndex)
    (i : Instance) (r' : ℕ) (a' : ValidatorIndex) :
    (b.setInst r a i).inst r' a' = if r' = r ∧ a' = a then i else b.inst r' a' := by
  unfold inst setInst
  rw [getD_insert]
  have same : toLex (r', a') = toLex (r, a) ↔ r' = r ∧ a' = a := by simp
  simp only [same]

theorem setInst_self_inst (b : ReliableBroadcast) (r : ℕ) (a : ValidatorIndex) :
    (b.setInst r a (b.inst r a)).inst = b.inst := by
  funext r' a'
  rw [inst_setInst]
  split_ifs with h
  · rw [h.1, h.2]
  · rfl

theorem inst_pruneBelow (b : ReliableBroadcast) (round r : ℕ) (a : ValidatorIndex) :
    (b.pruneBelow round).inst r a = b.inst r a ∨ (b.pruneBelow round).inst r a = .empty := by
  unfold pruneBelow
  split_ifs with h
  · exact .inl rfl
  · unfold inst SortedMap.getD
    simp only [get?_filter]
    cases hg : b.instances.get? (toLex (r, a)) with
    | none => exact .inl rfl
    | some i =>
      by_cases hr : round ≤ r
      · exact .inl (by simp [Option.filter, hr])
      · exact .inr (by simp [Option.filter, hr])

theorem inst_pruneBelow_of_le {b : ReliableBroadcast} {round r : ℕ} {a : ValidatorIndex}
    (h : (b.pruneBelow round).floor ≤ r) : (b.pruneBelow round).inst r a = b.inst r a := by
  unfold pruneBelow at h ⊢
  split_ifs at h ⊢ with hle
  · rfl
  · have hr : round ≤ r := h
    unfold inst SortedMap.getD
    simp only [get?_filter]
    cases hg : b.instances.get? (toLex (r, a)) with
    | none => rfl
    | some i => simp [Option.filter, hr]

theorem floor_le_pruneBelow (b : ReliableBroadcast) (round : ℕ) :
    b.floor ≤ (b.pruneBelow round).floor := by
  unfold pruneBelow
  split_ifs with h
  · exact le_refl _
  · exact (not_le.1 h).le

@[simp] theorem me_pruneBelow (b : ReliableBroadcast) (round : ℕ) :
    (b.pruneBelow round).me = b.me := by
  unfold pruneBelow
  split_ifs <;> rfl

theorem takeSignal_cases (b : ReliableBroadcast) (c : Committee) (frm : ValidatorIndex)
    (s : Signal) :
    ((b.takeSignal c frm s).1.inst = b.inst ∧ (b.takeSignal c frm s).1.me = b.me ∧
      (b.takeSignal c frm s).1.floor = b.floor ∧ (b.takeSignal c frm s).2 = ([], []) ∧
      (s.round < b.floor ∨ s.source ∉ c.indices ∨ frm ∉ c.indices ∨
        frm ∈ (b.inst s.round s.source).seen s.kind)) ∨
    (b.floor ≤ s.round ∧ s.source ∈ c.indices ∧ frm ∈ c.indices ∧
      frm ∉ (b.inst s.round s.source).seen s.kind ∧
      b.takeSignal c frm s =
        (b.setInst s.round s.source
            (((b.inst s.round s.source).count c frm s).answer c s.digest),
          (((b.inst s.round s.source).count c frm s).due c s.digest).map
              (fun k => .broadcast { s with kind := k }) ++
            (if ((b.inst s.round s.source).count c frm s).delivers c s.digest
              then [.deliver s.round s.source s.digest] else []),
          ((b.inst s.round s.source).count c frm s).due c s.digest)) := by
  have member : ∀ i, i ∈ c.indices ↔ c.member i ≠ none := by
    intro i
    rw [Committee.mem_indices, Option.isSome_iff_ne_none]
  by_cases drop : s.round < b.floor ∨ c.member s.source = none ∨ c.member frm = none
  · have same : b.takeSignal c frm s = (b, [], []) := if_pos drop
    rw [same]
    refine .inl ⟨rfl, rfl, rfl, rfl, ?_⟩
    rw [member, member, not_not, not_not]
    tauto
  by_cases dup : ((b.inst s.round s.source).counted s.kind).contains frm
  · have same : b.takeSignal c frm s =
        (b.setInst s.round s.source (b.inst s.round s.source), [], []) :=
      (if_neg drop).trans (if_pos dup)
    rw [same]
    refine .inl ⟨setInst_self_inst b _ _, rfl, rfl, rfl, ?_⟩
    exact .inr (.inr (.inr (SeatSet.mem_members.2 dup)))
  · push Not at drop
    refine .inr ⟨drop.1, (member _).2 drop.2.1, (member _).2 drop.2.2, ?_, ?_⟩
    · exact fun h => dup (SeatSet.mem_members.1 h)
    · refine (if_neg ?_).trans (if_neg dup)
      push Not
      exact drop

/-- A proposal changes nothing, is delivered at once by a lone member, or is echoed. -/
theorem takeProposal_cases (b : ReliableBroadcast) (c : Committee) (frm : ValidatorIndex)
    (r : ℕ) (a : ValidatorIndex) (d : Digest) :
    ((b.takeProposal c frm r a d).1.inst = b.inst ∧ (b.takeProposal c frm r a d).1.me = b.me ∧
      (b.takeProposal c frm r a d).1.floor = b.floor ∧
      (b.takeProposal c frm r a d).2 = ([], false) ∧
      (frm ≠ a ∨ r < b.floor ∨ (b.inst r a).proposed ≠ none)) ∨
    (frm = a ∧ b.floor ≤ r ∧ (b.inst r a).proposed = none ∧ c.size = 1 ∧
      b.takeProposal c frm r a d =
        (b.setInst r a { b.inst r a with proposed := some d, delivered := some d },
          [.deliver r a d], false)) ∨
    (frm = a ∧ b.floor ≤ r ∧ (b.inst r a).proposed = none ∧ c.size ≠ 1 ∧
      b.takeProposal c frm r a d =
        (b.setInst r a
            { b.inst r a with
              proposed := some d
              sent := update (b.inst r a).sent .echo (some d) },
          [.broadcast ⟨.echo, r, a, d⟩], true)) := by
  by_cases drop : frm ≠ a ∨ r < b.floor
  · have same : b.takeProposal c frm r a d = (b, [], false) := if_pos drop
    rw [same]
    exact .inl ⟨rfl, rfl, rfl, rfl, by tauto⟩
  by_cases dup : (b.inst r a).proposed.isSome
  · have same : b.takeProposal c frm r a d = (b.setInst r a (b.inst r a), [], false) :=
      (if_neg drop).trans (if_pos dup)
    rw [same]
    refine .inl ⟨setInst_self_inst b _ _, rfl, rfl, rfl, ?_⟩
    exact .inr (.inr (Option.isSome_iff_ne_none.1 dup))
  have new : (b.inst r a).proposed = none := by simpa using dup
  obtain ⟨rfl, hr⟩ : frm = a ∧ b.floor ≤ r := by
    push Not at drop
    exact drop
  by_cases one : c.size = 1
  · exact .inr (.inl ⟨rfl, hr, new, one, (if_neg drop).trans ((if_neg dup).trans (if_pos one))⟩)
  · exact .inr (.inr ⟨rfl, hr, new, one, (if_neg drop).trans ((if_neg dup).trans (if_neg one))⟩)

theorem onPropose_of_quiet {b : ReliableBroadcast} {c : Committee} {frm : ValidatorIndex}
    {r : ℕ} {a : ValidatorIndex} {d : Digest}
    (h : (b.takeProposal c frm r a d).2.2 = false) :
    b.onPropose c frm r a d = ((b.takeProposal c frm r a d).1, (b.takeProposal c frm r a d).2.1) := by
  unfold onPropose
  split
  next b' out echoed heq =>
    simp only [heq] at h ⊢
    simp [h]

theorem onPropose_of_echo {b b' : ReliableBroadcast} {c : Committee} {frm : ValidatorIndex}
    {r : ℕ} {a : ValidatorIndex} {d : Digest} {out : List RbcAction}
    (h : b.takeProposal c frm r a d = (b', out, true)) :
    b.onPropose c frm r a d =
      ((b'.onSignal c b.me ⟨.echo, r, a, d⟩).1, out ++ (b'.onSignal c b.me ⟨.echo, r, a, d⟩).2) := by
  unfold onPropose
  rw [h]
  rfl

end ReliableBroadcast

structure Network where
  parties : ValidatorIndex → ReliableBroadcast
  proposals : List (ValidatorIndex × ℕ × Digest)
  broadcasts : List (ValidatorIndex × Signal)
  deliveries : List (ValidatorIndex × ℕ × ValidatorIndex × Digest)
  heard : List (ValidatorIndex × ValidatorIndex × ℕ × ValidatorIndex × Digest)
  received : List (ValidatorIndex × ValidatorIndex × Signal)

namespace Network

def init : Network := ⟨.new, [], [], [], [], []⟩

def said (N : Network) (i : ValidatorIndex) (k : SignalKind) (r : ℕ) (a : ValidatorIndex)
    (d : Digest) : Prop := (i, (⟨k, r, a, d⟩ : Signal)) ∈ N.broadcasts

def sends (j : ValidatorIndex) (out : List RbcAction) : List (ValidatorIndex × Signal) :=
  out.filterMap (fun
    | .broadcast s => some (j, s)
    | .deliver .. => none)

def delivers (j : ValidatorIndex) (out : List RbcAction) :
    List (ValidatorIndex × ℕ × ValidatorIndex × Digest) :=
  out.filterMap (fun
    | .broadcast _ => none
    | .deliver r a d => some (j, r, a, d))

def act (N : Network) (j : ValidatorIndex) (b : ReliableBroadcast) (out : List RbcAction) :
    Network :=
  { N with
    parties := update N.parties j b
    broadcasts := N.broadcasts ++ sends j out
    deliveries := N.deliveries ++ delivers j out }

variable (c : Committee) (byz : Finset ValidatorIndex)

/-- One event at one honest member. A Byzantine sender may have said anything;
an honest one is heard to say only what it did, and proposes one digest a round. -/
inductive Step : Network → Network → Prop where
  | propose {N : Network} {j : ValidatorIndex} {r : ℕ} {d : Digest} :
      j ∈ c.indices → j ∉ byz → (∀ e, (j, r, e) ∈ N.proposals → e = d) →
      Step N
        (({ N with proposals := (j, r, d) :: N.proposals, heard := (j, j, r, j, d) :: N.heard }).act
          j ((N.parties j).onPropose c j r j d).1 ((N.parties j).onPropose c j r j d).2)
  | hear {N : Network} {j frm : ValidatorIndex} {r : ℕ} {a : ValidatorIndex} {d : Digest} :
      j ∈ c.indices → j ∉ byz → frm ∈ byz ∨ (frm, r, d) ∈ N.proposals →
      Step N
        (({ N with heard := (j, frm, r, a, d) :: N.heard }).act
          j ((N.parties j).onPropose c frm r a d).1 ((N.parties j).onPropose c frm r a d).2)
  | receive {N : Network} {j frm : ValidatorIndex} {s : Signal} :
      j ∈ c.indices → j ∉ byz → frm ∈ byz ∨ (frm, s) ∈ N.broadcasts →
      Step N
        (({ N with received := (j, frm, s) :: N.received }).act
          j ((N.parties j).onSignal c frm s).1 ((N.parties j).onSignal c frm s).2)
  | prune {N : Network} {j : ValidatorIndex} {r : ℕ} :
      Step N (N.act j ((N.parties j).pruneBelow r) [])

def Run (N : Network) : Prop := Relation.ReflTransGen (Step c byz) init N

/-- A step by name, so that a run can be replayed. -/
inductive Event where
  | propose (j : ValidatorIndex) (r : ℕ) (d : Digest)
  | hear (j frm : ValidatorIndex) (r : ℕ) (a : ValidatorIndex) (d : Digest)
  | receive (j frm : ValidatorIndex) (s : Signal)
deriving DecidableEq

def Event.party : Event → ValidatorIndex
  | .propose j .. | .hear j .. | .receive j .. => j

def Event.allowed (N : Network) : Event → Bool
  | .propose j r d => N.proposals.all (fun p => p.1 ≠ j || p.2.1 ≠ r || p.2.2 = d)
  | .hear _ frm r _ d => frm ∈ byz || (frm, r, d) ∈ N.proposals
  | .receive _ frm s => frm ∈ byz || (frm, s) ∈ N.broadcasts

def Event.apply (N : Network) : Event → Network
  | .propose j r d =>
    ({ N with proposals := (j, r, d) :: N.proposals, heard := (j, j, r, j, d) :: N.heard }).act
      j ((N.parties j).onPropose c j r j d).1 ((N.parties j).onPropose c j r j d).2
  | .hear j frm r a d =>
    ({ N with heard := (j, frm, r, a, d) :: N.heard }).act
      j ((N.parties j).onPropose c frm r a d).1 ((N.parties j).onPropose c frm r a d).2
  | .receive j frm s =>
    ({ N with received := (j, frm, s) :: N.received }).act
      j ((N.parties j).onSignal c frm s).1 ((N.parties j).onSignal c frm s).2

def replay : Network → List Event → Option Network
  | N, [] => some N
  | N, e :: es =>
    if e.party ∈ c.indices ∧ e.party ∉ byz ∧ e.allowed byz N = true
    then replay (e.apply c N) es else none

/-- The straight parts of a step, one call of `takeSignal` or `takeProposal` at a time. -/
inductive Act : Network → Network → Prop where
  | announce {N : Network} {j : ValidatorIndex} {r : ℕ} {d : Digest} :
      j ∈ c.indices → j ∉ byz → (∀ e, (j, r, e) ∈ N.proposals → e = d) →
      Act N { N with proposals := (j, r, d) :: N.proposals, heard := (j, j, r, j, d) :: N.heard }
  | note {N : Network} {heard : List _} {received : List _} :
      Act N { N with heard := heard, received := received }
  | proposal {N : Network} {j frm : ValidatorIndex} {r : ℕ} {a : ValidatorIndex} {d : Digest} :
      j ∈ c.indices → j ∉ byz → frm ∈ byz ∨ (frm, r, d) ∈ N.proposals →
      Act N (N.act j ((N.parties j).takeProposal c frm r a d).1
        ((N.parties j).takeProposal c frm r a d).2.1)
  | signal {N : Network} {j frm : ValidatorIndex} {s : Signal} :
      j ∈ c.indices → j ∉ byz → frm ∈ byz ∨ (frm, s) ∈ N.broadcasts →
      Act N (N.act j ((N.parties j).takeSignal c frm s).1
        ((N.parties j).takeSignal c frm s).2.1)
  | prune {N : Network} {j : ValidatorIndex} {r : ℕ} :
      Act N (N.act j ((N.parties j).pruneBelow r) [])

def Acts : Network → Network → Prop := Relation.ReflTransGen (Act c byz)

variable {c byz}

theorem Event.step {N : Network} {e : Event} (hj : e.party ∈ c.indices) (honest : e.party ∉ byz)
    (allowed : e.allowed byz N = true) : Step c byz N (e.apply c N) := by
  cases e with
  | propose j r d =>
    refine .propose hj honest (fun e he => ?_)
    have := all_eq_true.1 allowed _ he
    simpa using this
  | hear j frm r a d => exact .hear hj honest (by simpa [Event.allowed] using allowed)
  | receive j frm s => exact .receive hj honest (by simpa [Event.allowed] using allowed)

theorem Run.replay {N N' : Network} {es : List Event} (run : Run c byz N)
    (h : replay c byz N es = some N') : Run c byz N' := by
  induction es generalizing N with
  | nil =>
    cases h
    exact run
  | cons e es ih =>
    unfold Network.replay at h
    split_ifs at h with ok
    exact ih (run.tail (Event.step ok.1 ok.2.1 ok.2.2)) h

theorem run_replay {es : List Event} (h : (replay c byz init es).isSome) :
    Run c byz ((replay c byz init es).getD init) := by
  obtain ⟨N, hN⟩ := Option.isSome_iff_exists.1 h
  rw [hN]
  exact Run.replay .refl hN

@[simp] theorem act_parties_self (N : Network) (j : ValidatorIndex) (b : ReliableBroadcast)
    (out : List RbcAction) : (N.act j b out).parties j = b := update_self ..

theorem act_parties_of_ne (N : Network) {i j : ValidatorIndex} (b : ReliableBroadcast)
    (out : List RbcAction) (h : i ≠ j) : (N.act j b out).parties i = N.parties i :=
  update_of_ne h ..

theorem act_act (N : Network) (j : ValidatorIndex) (b b' : ReliableBroadcast)
    (out out' : List RbcAction) : (N.act j b out).act j b' out' = N.act j b' (out ++ out') := by
  unfold act
  simp [sends, delivers, filterMap_append]

theorem mem_sends {j i : ValidatorIndex} {s : Signal} {out : List RbcAction} :
    (i, s) ∈ sends j out ↔ i = j ∧ .broadcast s ∈ out := by
  unfold sends
  rw [mem_filterMap]
  constructor
  · rintro ⟨x, hx, he⟩
    cases x with
    | broadcast s' =>
      obtain ⟨rfl, rfl⟩ := Prod.mk.inj (Option.some.inj he)
      exact ⟨rfl, hx⟩
    | deliver => cases he
  · rintro ⟨rfl, h⟩
    exact ⟨_, h, rfl⟩

theorem mem_delivers {j i : ValidatorIndex} {r : ℕ} {a : ValidatorIndex} {d : Digest}
    {out : List RbcAction} : (i, r, a, d) ∈ delivers j out ↔ i = j ∧ .deliver r a d ∈ out := by
  unfold delivers
  rw [mem_filterMap]
  constructor
  · rintro ⟨x, hx, he⟩
    cases x with
    | broadcast => cases he
    | deliver r' a' d' =>
      simp only [Option.some.injEq, Prod.mk.injEq] at he
      obtain ⟨rfl, rfl, rfl, rfl⟩ := he
      exact ⟨rfl, hx⟩
  · rintro ⟨rfl, h⟩
    exact ⟨_, h, rfl⟩

theorem act_self (N : Network) (j : ValidatorIndex) : N.act j (N.parties j) [] = N := by
  unfold act
  simp [sends, delivers]

end Network

namespace ReliableBroadcast
open Network

variable {c : Committee} {byz : Finset ValidatorIndex}

@[simp] theorem me_takeSignal (b : ReliableBroadcast) (c : Committee) (frm : ValidatorIndex)
    (s : Signal) : (b.takeSignal c frm s).1.me = b.me := by
  rcases takeSignal_cases b c frm s with h | h
  · exact h.2.1
  · rw [h.2.2.2.2]
    rfl

@[simp] theorem me_takeProposal (b : ReliableBroadcast) (c : Committee) (frm : ValidatorIndex)
    (r : ℕ) (a : ValidatorIndex) (d : Digest) :
    (b.takeProposal c frm r a d).1.me = b.me := by
  rcases takeProposal_cases b c frm r a d with h | h | h
  · exact h.2.1
  · rw [h.2.2.2.2]
    rfl
  · rw [h.2.2.2.2]
    rfl

theorem broadcast_of_loopback {b : ReliableBroadcast} {frm : ValidatorIndex} {s : Signal}
    {k : SignalKind} (h : k ∈ (b.takeSignal c frm s).2.2) :
    .broadcast { s with kind := k } ∈ (b.takeSignal c frm s).2.1 := by
  rcases takeSignal_cases b c frm s with hc | hc
  · rw [hc.2.2.2.1] at h
    exact absurd h not_mem_nil
  · rw [hc.2.2.2.2] at h ⊢
    exact mem_append_left _ (mem_map_of_mem h)

/-- A whole call of `on_signal` is a run of straight parts. -/
theorem onSignalFuel_acts (n : ℕ) {N : Network} {j frm : ValidatorIndex} {s : Signal}
    (me : (N.parties j).me = j) (hj : j ∈ c.indices) (honest : j ∉ byz)
    (hfrm : frm ∈ byz ∨ (frm, s) ∈ N.broadcasts) :
    Acts c byz N (N.act j ((N.parties j).onSignalFuel n c frm s).1
        ((N.parties j).onSignalFuel n c frm s).2) ∧
      ((N.parties j).onSignalFuel n c frm s).1.me = j := by
  induction n generalizing N frm s with
  | zero =>
    rw [onSignalFuel, act_self]
    exact ⟨.refl, me⟩
  | succ n ih =>
    -- The fold runs the nested calls one after another from a state already reached.
    have fold : ∀ (ks : List SignalKind) (b : ReliableBroadcast) (out : List RbcAction),
        b.me = j → Acts c byz N (N.act j b out) →
        (∀ k ∈ ks, .broadcast { s with kind := k } ∈ out) →
        Acts c byz N (N.act j
            (ks.foldl (fun acc k =>
              let r := onSignalFuel n acc.1 c j { s with kind := k }
              (r.1, acc.2 ++ r.2)) (b, out)).1
            (ks.foldl (fun acc k =>
              let r := onSignalFuel n acc.1 c j { s with kind := k }
              (r.1, acc.2 ++ r.2)) (b, out)).2) ∧
          (ks.foldl (fun acc k =>
              let r := onSignalFuel n acc.1 c j { s with kind := k }
              (r.1, acc.2 ++ r.2)) (b, out)).1.me = j := by
      intro ks
      induction ks with
      | nil => exact fun b out hb run _ => ⟨run, hb⟩
      | cons k ks step =>
        intro b out hb run logged
        have said : (j, { s with kind := k }) ∈ (N.act j b out).broadcasts :=
          mem_append_right _ (mem_sends.2 ⟨rfl, logged k mem_cons_self⟩)
        have next := @ih (N.act j b out) j { s with kind := k }
          (by rw [act_parties_self]; exact hb) (.inr said)
        rw [act_parties_self, act_act] at next
        refine step _ _ next.2 (run.trans next.1) ?_
        intro k' hk'
        exact mem_append_left _ (logged k' (mem_cons_of_mem k hk'))
    have first : Acts c byz N (N.act j ((N.parties j).takeSignal c frm s).1
        ((N.parties j).takeSignal c frm s).2.1) := .single (.signal hj honest hfrm)
    have result := fold ((N.parties j).takeSignal c frm s).2.2
      ((N.parties j).takeSignal c frm s).1 ((N.parties j).takeSignal c frm s).2.1
      (by rw [me_takeSignal, me]) first (fun k hk => broadcast_of_loopback hk)
    rw [onSignalFuel, me]
    exact result

theorem onPropose_acts {N : Network} {j frm : ValidatorIndex} {r : ℕ} {a : ValidatorIndex}
    {d : Digest} (me : (N.parties j).me = j) (hj : j ∈ c.indices) (honest : j ∉ byz)
    (hfrm : frm ∈ byz ∨ (frm, r, d) ∈ N.proposals) :
    Acts c byz N (N.act j ((N.parties j).onPropose c frm r a d).1
        ((N.parties j).onPropose c frm r a d).2) ∧
      ((N.parties j).onPropose c frm r a d).1.me = j := by
  have first : Acts c byz N (N.act j ((N.parties j).takeProposal c frm r a d).1
      ((N.parties j).takeProposal c frm r a d).2.1) := .single (.proposal hj honest hfrm)
  have keep : ((N.parties j).takeProposal c frm r a d).1.me = j := by
    rw [me_takeProposal, me]
  rcases takeProposal_cases (N.parties j) c frm r a d with h | h | h
  · rw [onPropose_of_quiet (by rw [h.2.2.2.1])]
    exact ⟨first, keep⟩
  · rw [onPropose_of_quiet (by rw [h.2.2.2.2])]
    exact ⟨first, keep⟩
  · rw [onPropose_of_echo h.2.2.2.2, me]
    rw [h.2.2.2.2] at first keep
    have said : (j, (⟨.echo, r, a, d⟩ : Signal)) ∈ (N.act j
        ((N.parties j).setInst r a
          { (N.parties j).inst r a with
            proposed := some d
            sent := update ((N.parties j).inst r a).sent .echo (some d) })
        [.broadcast ⟨.echo, r, a, d⟩]).broadcasts :=
      mem_append_right _ (mem_sends.2 ⟨rfl, mem_singleton_self _⟩)
    have next := onSignalFuel_acts 4 (by rw [act_parties_self]; exact keep) hj honest (.inr said)
    rw [act_parties_self, act_act] at next
    exact ⟨first.trans next.1, next.2⟩

end ReliableBroadcast

end Tenzro
