import Tenzro.VetoEscrowRuns

set_option autoImplicit false
set_option linter.dupNamespace false

/-!
# Locks are returned once, and count no more

Once a lock has left, nothing stretches, contests or queues its proposal again, provided no signal
comes after the vote that rejected it.
-/
namespace Tenzro.VetoEscrow
open FixedWidth Outcome Function List
open Staking (VmError)
open Governance NativeBalance
open Book (SumsTo)

/-! ### Proposals that locks have left -/

/-- The states a stored proposal is in: a contested one is on the Ratify track, one in its first
vote is not, and none is stored as passed or rejected. -/
structure Proper (p : Proposal) : Prop where
  voting : p.status = .voting → p.track ≠ .ratify
  contested : p.status = .contested → p.track = .ratify
  stored : p.status ≠ .passed ∧ p.status ≠ .rejected

/-- Nothing can delay the proposal any more: it is final, its timelock has run out, or its vote
has closed on a tally that rejects it. -/
def Concluded (t : Tally) (p : Proposal) (nowMs : ℤ) : Prop :=
  match p.status with
  | .executed | .vetoed | .rejected => True
  | .queued => p.isExecutableAt nowMs
  | .voting | .contested => p.votingEndsMs ≤ nowMs ∧ p.outcome t ≠ .passed
  | .passed => False

/-- All that may still become of a proposal that a lock has left: a queued one is enacted, or a
guardian stops it. -/
def Concludes (p₀ p : Proposal) : Prop :=
  p = p₀ ∨ p₀.status = .queued ∧
    (p = { p₀ with status := .executed } ∨ p = { p₀ with status := .vetoed })

section
variable {s s' : VetoLedger} {view : VetoView} {id : ProposalId} {p p' p₀ : Proposal} {t : Tally}

theorem loosens_false (applies : holderVetoApplies p.action) :
    view.loosensCaptureGuard p.action = false := by
  unfold VetoView.loosensCaptureGuard
  cases change : p.action.parameterChange with
  | none => rfl
  | some c =>
    obtain ⟨domain, upgrade⟩ := p.action.network (by simp [change])
    simp [holderVetoApplies, domain, upgrade] at applies

theorem decideGuarded_eq (applies : holderVetoApplies p.action) (running : p.status ≠ .executed)
    {nowMs : ℤ} : p.decideGuarded t nowMs (view.loosensCaptureGuard p.action) =
      if nowMs < p.votingEndsMs then .error (.votingStillOpen p.votingEndsMs nowMs)
      else .ok (p.outcome t) := by
  unfold Proposal.decideGuarded Proposal.decide Proposal.outcomeGuarded
  rw [loosens_false applies, if_neg running]
  split_ifs
  · rfl
  · simp only [false_and, and_false, if_false]
    rfl

theorem decided_iff (applies : holderVetoApplies p.action) :
    s.decided view id p ↔ Concluded (s.tallyOf id p) p view.nowMs := by
  unfold VetoLedger.decided Concluded
  cases status : p.status with
  | voting | contested =>
    rw [decideGuarded_eq applies (by simp [status])]
    simp only [Proposal.isOpenAt, status, Bool.and_eq_true, Bool.not_eq_true']
    split_ifs with early
    · simp [early]
    · simp [early]
      omega
  | _ => simp

theorem Concluded.later {now nowMs : ℤ} (done : Concluded t p now) (later : now ≤ nowMs) :
    Concluded t p nowMs := by
  unfold Concluded at done ⊢
  cases status : p.status with
  | voting | contested =>
    simp only [status] at done ⊢
    exact ⟨done.1.trans later, done.2⟩
  | queued =>
    simp only [status, Proposal.isExecutableAt, decide_true, Bool.true_and,
      Option.any_eq_true, decide_eq_true_eq] at done ⊢
    obtain ⟨eta, due, passed⟩ := done
    exact ⟨eta, due, passed.trans later⟩
  | _ => simp_all

/-! ### One step of a proposal -/

theorem queue_eq {nowMs : ℤ} (went : { p with status := .passed }.queue nowMs = some p') :
    p'.status = .queued ∧ p'.action = p.action := by
  unfold Proposal.queue at went
  rw [if_neg (by simp)] at went
  rw [← Option.some.inj went]
  exact ⟨rfl, rfl⟩

theorem extendByVeto_eq {extensionMs : ℤ} : (p.extendByVeto extensionMs).status = p.status ∧
    (p.extendByVeto extensionMs).track = p.track ∧
    (p.extendByVeto extensionMs).action = p.action := by
  unfold Proposal.extendByVeto
  simp only
  split_ifs <;> exact ⟨rfl, rfl, rfl⟩

theorem raiseConcern_eq {quorum : ℕ} : (p.raiseConcern quorum).status = p.status ∧
    (p.raiseConcern quorum).track = p.track ∧ (p.raiseConcern quorum).action = p.action := by
  unfold Proposal.raiseConcern
  simp only
  split_ifs <;> exact ⟨rfl, rfl, rfl⟩

theorem Proper.of_same (proper : Proper p) (status : p'.status = p.status)
    (track : p'.track = p.track) : Proper p' := by
  refine ⟨?_, ?_, ?_⟩
  · rw [status, track]
    exact proper.voting
  · rw [status, track]
    exact proper.contested
  · rw [status]
    exact proper.stored

theorem Proper.of_status (status : p.status = .queued ∨ p.status = .executed ∨ p.status = .vetoed) :
    Proper p := by
  rcases status with status | status | status <;> exact ⟨by simp [status], by simp [status],
    by simp [status]⟩

theorem Progress.proper (progress : Progress view s s' id)
    (proper : ∀ p, s.proposals id = some p → Proper p) :
    ∀ p', s'.proposals id = some p' → Proper p' := by
  intro p' after'
  cases progress with
  | same proposals tally => exact proper p' (proposals ▸ after')
  | opened action new after =>
    rw [after] at after'
    rw [← Option.some.inj after']
    exact ⟨fun _ => action.direct, by simp [Proposal.opened, Proposal.openOn],
      by simp [Proposal.opened, Proposal.openOn]⟩
  | counted found voting after =>
    rw [after] at after'
    rw [← Option.some.inj after']
    exact proper _ found
  | stretched extensionMs found delay barred after tally =>
    rw [after] at after'
    rw [← Option.some.inj after']
    exact (proper _ found).of_same extendByVeto_eq.1 extendByVeto_eq.2.1
  | contested found delay barred went after =>
    rw [after] at after'
    rw [← Option.some.inj after']
    obtain ⟨track, status, -⟩ := contest_ratify went
    exact ⟨by simp [status], fun _ => track, by simp [status]⟩
  | queued found status passed went after =>
    rw [after] at after'
    rw [← Option.some.inj after']
    exact .of_status (.inl (queue_eq went).1)
  | executed found elapsed after tally =>
    rw [after] at after'
    rw [← Option.some.inj after']
    exact .of_status (.inr (.inl rfl))
  | vetoed found status after tally =>
    rw [after] at after'
    rw [← Option.some.inj after']
    exact .of_status (.inr (.inr rfl))
  | concerned quorum found status running after tally =>
    rw [after] at after'
    rw [← Option.some.inj after']
    exact (proper _ found).of_same raiseConcern_eq.1 raiseConcern_eq.2.1

theorem Progress.action (progress : Progress view s s' id) (found : s.proposals id = some p) :
    ∃ p', s'.proposals id = some p' ∧ p'.action = p.action := by
  cases progress with
  | same proposals tally => exact ⟨p, proposals.trans found, rfl⟩
  | opened action new after =>
    rw [new] at found
    cases found
  | counted found' voting after =>
    rw [found] at found'
    exact ⟨_, after, by rw [Option.some.inj found']⟩
  | stretched extensionMs found' delay barred after tally =>
    rw [found] at found'
    exact ⟨_, after, by rw [Option.some.inj found']; exact extendByVeto_eq.2.2⟩
  | contested found' delay barred went after =>
    rw [found] at found'
    exact ⟨_, after, by rw [Option.some.inj found']; exact (contest_ratify went).2.2⟩
  | queued found' status passed went after =>
    rw [found] at found'
    exact ⟨_, after, by rw [Option.some.inj found']; exact (queue_eq went).2⟩
  | executed found' elapsed after tally =>
    rw [found] at found'
    exact ⟨_, after, by rw [Option.some.inj found']⟩
  | vetoed found' status after tally =>
    rw [found] at found'
    exact ⟨_, after, by rw [Option.some.inj found']⟩
  | concerned quorum found' status running after tally =>
    rw [found] at found'
    exact ⟨_, after, by rw [Option.some.inj found']; exact raiseConcern_eq.2.2⟩

theorem contested_of_delay (delay : mayDelay p view.nowMs)
    (barred : p.status = .voting → s.decided view id p = false)
    (applies : holderVetoApplies p.action)
    (done : Concluded (s.tallyOf id p) p view.nowMs) : p.status = .contested := by
  have decided := (decided_iff applies).2 done
  unfold mayDelay at delay
  unfold Concluded at done
  cases status : p.status with
  | contested => rfl
  | voting =>
    rw [barred status] at decided
    cases decided
  | queued =>
    simp only [status] at delay done
    rw [done] at delay
    cases delay
  | passed =>
    simp only [status] at done
  | _ =>
    simp only [status] at delay
    cases delay

theorem Progress.concluded (progress : Progress view s s' id) (found : s.proposals id = some p)
    (proper : Proper p) (applies : holderVetoApplies p.action)
    (done : Concluded (s.tallyOf id p) p view.nowMs) :
    ∃ p', s'.proposals id = some p' ∧ Concluded (s'.tallyOf id p') p' view.nowMs ∧
      Concludes p p' := by
  cases progress with
  | same proposals tally =>
    refine ⟨p, proposals.trans found, ?_, .inl rfl⟩
    unfold VetoLedger.tallyOf
    rw [tally]
    exact done
  | opened action new after =>
    rw [new] at found
    cases found
  | counted found' voting after =>
    obtain rfl := Option.some.inj (found.symm.trans found')
    exfalso
    simp only [Proposal.isOpenAt, Bool.and_eq_true, Bool.or_eq_true, decide_eq_true_eq] at voting
    unfold Concluded at done
    obtain ⟨status | status, early⟩ := voting <;>
    · simp only [status] at done
      omega
  | stretched extensionMs found' delay barred after tally =>
    obtain rfl := Option.some.inj (found.symm.trans found')
    have ratify := proper.contested (contested_of_delay delay barred applies done)
    have same : p.extendByVeto extensionMs = p := by
      unfold Proposal.extendByVeto
      exact if_neg fun direct => direct.1 ratify
    refine ⟨p, same ▸ after, ?_, .inl rfl⟩
    unfold VetoLedger.tallyOf
    rw [tally]
    exact done
  | contested found' delay barred went after =>
    obtain rfl := Option.some.inj (found.symm.trans found')
    have ratify := proper.contested (contested_of_delay delay barred applies done)
    unfold Proposal.contest at went
    rw [if_pos (.inl ratify)] at went
    cases went
  | queued found' status passed went after =>
    obtain rfl := Option.some.inj (found.symm.trans found')
    exfalso
    rw [decideGuarded_eq applies status.2.1] at passed
    split_ifs at passed
    have outcome := Except.ok.inj passed
    unfold Concluded at done
    obtain ⟨unpassed, unrejected⟩ := proper.stored
    cases stands : p.status with
    | voting | contested =>
      simp only [stands] at done
      exact done.2 outcome
    | passed => exact unpassed stands
    | rejected => exact unrejected stands
    | queued => exact status.2.2 stands
    | vetoed => exact status.1 stands
    | executed => exact status.2.1 stands
  | executed found' elapsed after tally =>
    obtain rfl := Option.some.inj (found.symm.trans found')
    have waits : p.status = .queued := by
      simp only [Proposal.isExecutableAt, Bool.and_eq_true, decide_eq_true_eq] at elapsed
      exact elapsed.1
    exact ⟨_, after, trivial, .inr ⟨waits, .inl rfl⟩⟩
  | vetoed found' status after tally =>
    obtain rfl := Option.some.inj (found.symm.trans found')
    refine ⟨_, after, trivial, .inr ⟨status, .inr rfl⟩⟩
  | concerned quorum found' status running after tally =>
    obtain rfl := Option.some.inj (found.symm.trans found')
    exfalso
    unfold Concluded at done
    simp only [status] at done
    rw [running] at done
    cases done

theorem Concludes.trans (first : Concludes p₀ p) (second : Concludes p p') : Concludes p₀ p' := by
  rcases first with rfl | ⟨queued, rfl | rfl⟩
  · exact second
  all_goals
    rcases second with rfl | ⟨status, -⟩
    · simp [Concludes, queued]
    · cases status

theorem Concludes.action (concludes : Concludes p p') : p'.action = p.action := by
  rcases concludes with rfl | ⟨-, rfl | rfl⟩ <;> rfl

end

/-! ### Over a run -/

section
variable [VetoVaults] {s s' : VetoLedger} {t : Trail} {view : VetoView} {op : VetoOp} {now : ℤ}
  {id : ProposalId} {sender holder : Bytes} {p : Proposal}

theorem run_progress (ran : op.run view s = .ok s') (signed : op.Signed s)
    (barred : op.Barred view s) (id : ProposalId) : Progress view s s' id := by
  cases op with
  | openProposal id₀ action totalEligible =>
    obtain rfl := Except.ok.inj ran
    exact openProposal_progress signed id
  | vote id₀ voter inFavour weight => exact (vote_ok ran).2 id
  | vetoSignal sender id₀ amount => exact (vetoSignal_ok signed ran).2.progress barred id
  | agentSignal scope wallet id₀ amount => exact (agentSignal_ok ran).2.progress barred id
  | vetoWithdraw sender id₀ holder =>
    obtain ⟨returned, -⟩ := vetoWithdraw_ok ran
    exact .same (by rw [returned.proposals]) (by rw [returned.tally])
  | governanceExecute sender id₀ => exact (governanceExecute_ok signed ran).2 id
  | governanceVeto sender id₀ role carried => exact (governanceVeto_ok signed ran).2 id
  | concern sender id₀ => exact (concern_ok signed ran).2 id
  | other balance =>
    obtain rfl := Except.ok.inj ran
    exact .same rfl rfl

structure Sound (s : VetoLedger) (t : Trail) (now : ℤ) : Prop where
  kept : Kept s t
  proper : ∀ id p, s.proposals id = some p → Proper p
  applies : ∀ id holder, s.locked id holder ≠ 0 →
    ∃ p, s.proposals id = some p ∧ holderVetoApplies p.action
  released : ∀ id p₀ t₀, t.released id = some (p₀, t₀) → (∃ τ, Concluded τ p₀ t₀) ∧
    ∃ p, s.proposals id = some p ∧ Concludes p₀ p ∧ holderVetoApplies p.action ∧
      Concluded (s.tallyOf id p) p now

theorem run_applies (sound : Sound s t now) (ran : op.run view s = .ok s') (signed : op.Signed s)
    (barred : op.Barred view s) (held : s'.locked id holder ≠ 0) :
    ∃ p, s'.proposals id = some p ∧ holderVetoApplies p.action := by
  have still : s.locked id holder ≠ 0 ∨ Signalled s s' view id := by
    have locking {holder₀ : Bytes} {id₀ : ProposalId} {amount : ℕ}
        (locked : Locked s s' holder₀ id₀ amount) (signalled : Signalled s s' view id₀) :
        s.locked id holder ≠ 0 ∨ Signalled s s' view id := by
      by_cases same : id = id₀
      · exact .inr (same ▸ signalled)
      · rw [locked.locked, update_of_ne same] at held
        exact .inl held
    cases op with
    | vetoSignal sender id₀ amount =>
      obtain ⟨locked, signalled⟩ := vetoSignal_ok signed ran
      exact locking locked signalled
    | agentSignal scope wallet id₀ amount =>
      obtain ⟨locked, signalled⟩ := agentSignal_ok ran
      exact locking locked signalled
    | vetoWithdraw sender id₀ holder₀ =>
      refine .inl fun nothing => held ?_
      rw [(vetoWithdraw_ok ran).1.locked]
      by_cases same : id = id₀
      · subst same
        rw [update_self]
        by_cases own : holder = holder₀
        · rw [own, update_self]
        · rw [update_of_ne own, nothing]
      · rw [update_of_ne same, nothing]
    | openProposal id₀ action totalEligible =>
      obtain rfl := Except.ok.inj ran
      exact .inl held
    | vote id₀ voter inFavour weight => exact .inl ((vote_ok ran).1.locked ▸ held)
    | governanceExecute sender id₀ => exact .inl ((governanceExecute_ok signed ran).1.locked ▸ held)
    | governanceVeto sender id₀ role carried =>
      exact .inl ((governanceVeto_ok signed ran).1.locked ▸ held)
    | concern sender id₀ => exact .inl ((concern_ok signed ran).1.locked ▸ held)
    | other balance =>
      obtain rfl := Except.ok.inj ran
      exact .inl held
  have before : ∃ p, s.proposals id = some p ∧ holderVetoApplies p.action := by
    rcases still with held | ⟨p, found, applies, -⟩
    · exact sound.applies id holder held
    · exact ⟨p, found, applies⟩
  obtain ⟨p, found, applies⟩ := before
  obtain ⟨p', after, same⟩ := (run_progress ran signed barred id).action found
  exact ⟨p', after, same ▸ applies⟩

theorem trail_released {x : Proposal × ℤ} (released : (op.trail view s t).released id = some x) :
    t.released id = some x ∨ ∃ sender holder s' p, op = .vetoWithdraw sender id holder ∧
      op.run view s = .ok s' ∧ s.proposals id = some p ∧ x = (p, view.nowMs) := by
  unfold VetoOp.trail at released
  cases ran : op.run view s with
  | error e =>
    rw [ran] at released
    exact .inl released
  | ok s' =>
    rw [ran] at released
    cases op with
    | vetoWithdraw sender id₀ holder =>
      by_cases same : id = id₀
      · subst same
        simp only [update_self] at released
        cases earlier : t.released id with
        | some y =>
          rw [earlier, Option.some_or] at released
          exact .inl released
        | none =>
          rw [earlier, Option.none_or] at released
          obtain ⟨p, found, rfl⟩ := Option.map_eq_some_iff.1 released
          exact .inr ⟨sender, holder, s', p, rfl, rfl, found, rfl⟩
      · simp only [update_of_ne same] at released
        exact .inl released
    | _ => exact .inl released

theorem Sound.step (distinct : Injective vaultAccount) (sound : Sound s t now)
    (later : now ≤ view.nowMs) (signed : op.Signed s) (barred : op.Barred view s) :
    Sound (op.apply view s) (op.trail view s t) view.nowMs := by
  have kept : Kept (op.apply view s) (op.trail view s t) := sound.kept.step distinct signed
  cases ran : op.run view s with
  | error e =>
    have same : op.apply view s = s := by
      unfold VetoOp.apply
      rw [ran]
    have still : op.trail view s t = t := by
      unfold VetoOp.trail
      rw [ran]
    rw [same, still] at kept ⊢
    refine ⟨kept, sound.proper, sound.applies, fun id p₀ t₀ released => ?_⟩
    obtain ⟨before, p, found, concludes, applies, done⟩ := sound.released id p₀ t₀ released
    exact ⟨before, p, found, concludes, applies, done.later later⟩
  | ok s' =>
    have applied : op.apply view s = s' := by
      unfold VetoOp.apply
      rw [ran]
    rw [applied] at kept ⊢
    refine ⟨kept, fun id => (run_progress ran signed barred id).proper (sound.proper id),
      fun id holder held => run_applies sound ran signed barred held,
      fun id p₀ t₀ released => ?_⟩
    have concluded : ∃ p, s.proposals id = some p ∧ Concludes p₀ p ∧ holderVetoApplies p.action ∧
        Concluded (s.tallyOf id p) p view.nowMs ∧ ∃ τ, Concluded τ p₀ t₀ := by
      rcases trail_released released with earlier | ⟨sender, holder, s₁, p, rfl, ran₁, found, same⟩
      · obtain ⟨before, p, found, concludes, applies, done⟩ := sound.released id p₀ t₀ earlier
        exact ⟨p, found, concludes, applies, done.later later, before⟩
      · obtain ⟨rfl, rfl⟩ := Prod.mk.inj same
        obtain ⟨returned, p, found', decided⟩ := vetoWithdraw_ok ran₁
        obtain rfl := Option.some.inj (found.symm.trans found')
        obtain ⟨p, found', applies⟩ := sound.applies id holder returned.holds
        obtain rfl := Option.some.inj (found.symm.trans found')
        have done := (decided_iff applies).1 decided
        exact ⟨p₀, found, .inl rfl, applies, done, _, done⟩
    obtain ⟨p, found, concludes, applies, done, before⟩ := concluded
    obtain ⟨p', after, done', then_⟩ := (run_progress ran signed barred id).concluded found
      (sound.proper id p found) applies done
    exact ⟨before, p', after, concludes.trans then_, then_.action ▸ applies, done'⟩

theorem Running.sound (distinct : Injective vaultAccount)
    (run : Running VetoOp.Barred s t now) : Sound s t now := by
  induction run with
  | start sums fits empty now =>
    refine ⟨⟨fun _ => .zero, fun id => empty id, fun _ _ => rfl, fun _ _ held => absurd rfl held,
      _, fits, sums⟩, ?_, fun _ _ held => absurd rfl held, ?_⟩
    · intro id p found
      cases found
    · intro id p₀ t₀ released
      cases released
  | step before view later op signed may ih => exact ih.step distinct later signed may

theorem Sound.withdraws (sound : Sound s t now) (found : s.proposals id = some p)
    (held : s.locked id holder ≠ 0) (done : Concluded (s.tallyOf id p) p view.nowMs)
    (outside : Outside sender) (gas : view.gasCost ≤ balanceOf s.balance sender) :
    ∃ s', s.vetoWithdraw view sender id holder = .ok s' := by
  obtain ⟨p', found', applies⟩ := sound.applies id holder held
  obtain rfl := Option.some.inj (found.symm.trans found')
  have decided := (decided_iff applies).2 done
  have spent : Spent s.balance (setBalance s.balance sender
      (balanceOf s.balance sender - view.gasCost)) := charged_spent outside
  obtain ⟨vaults, sums⟩ := spent
  obtain ⟨n, fits, whole⟩ := sound.kept.fits
  obtain ⟨n', less, rest⟩ := sums n whole
  have enough : s.locked id holder ≤ balanceOf (setBalance s.balance sender
      (balanceOf s.balance sender - view.gasCost)) (VetoVaults.vault id) := by
    have covers := vaults id
    have vault := sound.kept.vault id
    have single := (sound.kept.sums id).le holder
    change _ ≤ setBalance _ _ _ (vaultAccount id)
    omega
  have paid : moveTnzo _ (VetoVaults.vault id) holder (s.locked id holder) = .ok _ :=
    moveTnzo_eq rest (less.trans fits) enough
  have charged : s.charge view sender = .ok { s with
      balance := setBalance s.balance sender (balanceOf s.balance sender - view.gasCost) } :=
    bind_ok.2 ⟨(), ensure_ok.2 gas, rfl⟩
  exact ⟨_, bind_ok.2 ⟨(), ensure_ok.2 (sound.kept.holders id holder held).1, bind_ok.2
    ⟨p, load_ok.2 found, bind_ok.2 ⟨(), ensure_ok.2 held, bind_ok.2 ⟨(), ensure_ok.2 decided,
      bind_ok.2 ⟨_, charged, bind_ok.2 ⟨_, paid, rfl⟩⟩⟩⟩⟩⟩⟩

/-- The books agree with the vaults; what was locked is returned or still locked; a lock leaves only
a proposal that has concluded and that nothing touches after; it is paid in full, and can be once
its proposal has concluded. -/
theorem veto_escrow (distinct : Injective vaultAccount)
    (run : Running VetoOp.Barred s t now) :
    (∀ id, SumsTo (s.locked id) (s.total id) ∧
      s.balance (vaultAccount id) = s.total id + t.gifts id) ∧
    (∀ id holder, t.put id holder = t.got id holder + s.locked id holder) ∧
    (∀ id p₀ t₀, t.released id = some (p₀, t₀) →
      (∃ τ, Concluded τ p₀ t₀) ∧ ∃ p, s.proposals id = some p ∧ Concludes p₀ p) ∧
    (∀ view sender id holder s', s.vetoWithdraw view sender id holder = .ok s' →
      Returned s s' view sender id holder ∧
        ∃ p, s.proposals id = some p ∧ Concluded (s.tallyOf id p) p view.nowMs) ∧
    ∀ (view : VetoView) (sender : Bytes) (id : ProposalId) (holder : Bytes) (p : Proposal),
      s.proposals id = some p → s.locked id holder ≠ 0 →
      Concluded (s.tallyOf id p) p view.nowMs → Outside sender →
      view.gasCost ≤ balanceOf s.balance sender →
      ∃ s', s.vetoWithdraw view sender id holder = .ok s' := by
  have sound := run.sound distinct
  refine ⟨fun id => ⟨sound.kept.sums id, sound.kept.vault id⟩, sound.kept.returned, ?_, ?_, ?_⟩
  · intro id p₀ t₀ released
    obtain ⟨before, p, found, concludes, -⟩ := sound.released id p₀ t₀ released
    exact ⟨before, p, found, concludes⟩
  · intro view sender id holder s' ran
    obtain ⟨returned, p, found, decided⟩ := vetoWithdraw_ok ran
    obtain ⟨p', found', applies⟩ := sound.applies id holder returned.holds
    obtain rfl := Option.some.inj (found.symm.trans found')
    exact ⟨returned, p, found, (decided_iff applies).1 decided⟩
  · intro view sender id holder p found held done outside gas
    exact sound.withdraws found held done outside gas

end

/-! A lock of 6 % of supply leaves on day 4, after the vote has failed. On day 5 another holder's
10 % contests the proposal, and its second vote carries it. -/

namespace LateSignal

@[reducible] def vaults : VetoVaults where
  account := id
  vault id := id.1

attribute [local instance] vaults

def pid : ProposalId := ⟨replicate 32 7, length_replicate⟩

def first : Bytes := replicate 20 1

def second : Bytes := replicate 20 2

theorem outside (n : UInt8) : Outside (replicate 20 n) := by
  refine ⟨.inl length_replicate, fun id same => ?_⟩
  have lengths := congrArg List.length (show replicate 20 n = id.1 by exact same)
  rw [length_replicate, id.2] at lengths
  cases lengths

def day : ℤ := 24 * 60 * 60 * 1000

def rules : GovernanceRules where
  votingPeriodMs := 3 * day
  expeditedVotingPeriodMs := day
  timelockMs := 7 * day
  expeditedTimelockMs := day
  ratifyTimelockMs := 30 * day
  quorumBps := 3300
  thresholdBps := 5000
  expeditedThresholdBps := 6700
  ratifyThresholdBps := 7500
  minBondAgeMs := 7 * day
  largeSpendTnzo := 1000
  largeSpendApprovalBps := 5000
  largeSpendTimelockMs := 30 * day

def view (n : ℕ) : VetoView where
  nowMs := n * day
  gasCost := 1
  rules := rules
  supply := 1000
  signalBps := 100
  blockBps := 1000
  maxExtensionMs := 2592000000
  agentWeightMaxBps := 500
  concernQuorum := 100
  rootMinAgeMs := 0
  loosensGuard _ _ := false
  enactmentPaused := false
  treasuryPaused := false
  readiness _ := .ok ()
  identityOfWallet _ := none
  rootDid := id
  revoked _ := false
  registeredAt _ := none

theorem action_direct : ProposalTrack.standard ≠ .ratify := by decide

def action : ProposalAction :=
  ⟨"revoke_identity", .sanction, .standard, none, false, 0, action_direct, by decide⟩

def start : VetoLedger := .fresh (update (update (fun _ => 0) first 100) second 200)

def after : List (ℕ × VetoOp) → VetoLedger × Trail
  | [] => (start, .fresh)
  | (n, op) :: earlier =>
    (op.apply (view n) (after earlier).1, op.trail (view n) (after earlier).1 (after earlier).2)

def failed : List (ℕ × VetoOp) :=
  [(4, .vetoWithdraw second pid first), (1, .vetoSignal first pid 60),
    (0, .openProposal pid action 100)]

def carried : List (ℕ × VetoOp) :=
  [(38, VetoOp.governanceExecute second pid), (8, .governanceExecute second pid),
    (6, .vote pid first true 100), (5, .vetoSignal second pid 100)] ++ failed

theorem ages {n m : ℕ} (le : n ≤ m) : (view n).nowMs ≤ (view m).nowMs := by
  simp only [view, day]
  omega

theorem begins {allowed : VetoView → VetoLedger → VetoOp → Prop} :
    Running allowed start .fresh (view 0).nowMs := by
  have sums : SumsTo start.balance 300 := by
    have none : SumsTo (fun _ : Bytes => 0) 0 := .zero
    exact (none.update (a := first) (v := 100) (m := 100) rfl).update rfl
  refine .start sums (by decide) (fun id => ?_) _
  have ne (n : UInt8) : vaultAccount id ≠ replicate 20 n := (outside n).2 id |>.symm
  unfold start VetoLedger.fresh second first
  simp only [update_of_ne (ne 2), update_of_ne (ne 1)]

theorem withdrawn {allowed : VetoView → VetoLedger → VetoOp → Prop}
    (opens : allowed (view 0) start (.openProposal pid action 100))
    (signals : allowed (view 1) (after [(0, .openProposal pid action 100)]).1
      (.vetoSignal first pid 60))
    (withdraws : ∀ s, allowed (view 4) s (.vetoWithdraw second pid first)) :
    Running allowed (after failed).1 (after failed).2 (view 4).nowMs := by
  have opened := begins.step (view 0) le_rfl (.openProposal pid action 100) rfl opens
  have locked := opened.step (view 1) (ages (by decide)) (.vetoSignal first pid 60) (outside 1)
    signals
  exact locked.step (view 4) (ages (by decide)) (.vetoWithdraw second pid first) (outside 2)
    (withdraws _)

/-- The proposal is enacted with the lock gone. -/
theorem enacted_unlocked : ∃ s t p₀ p, Running (fun _ _ _ => True) s t (view 38).nowMs ∧
    t.released pid = some (p₀, (view 4).nowMs) ∧ p₀.status = .voting ∧
    s.proposals pid = some p ∧ p.track = .ratify ∧ p.status = .executed := by
  have run : Running (fun _ _ _ => True) (after carried).1 (after carried).2 (view 38).nowMs := by
    have left : Running (fun _ _ _ => True) (after failed).1 (after failed).2 (view 4).nowMs :=
      withdrawn trivial trivial fun _ => trivial
    have contested := left.step (view 5) (ages (by decide)) (.vetoSignal second pid 100)
      (outside 2) trivial
    have voted := contested.step (view 6) (ages (by decide)) (.vote pid first true 100) trivial
      trivial
    have queued := voted.step (view 8) (ages (by decide)) (.governanceExecute second pid)
      (outside 2) trivial
    exact queued.step (view 38) (ages (by decide)) (.governanceExecute second pid) (outside 2)
      trivial
  have released : ((after carried).2.released pid).map (fun x => (x.1.status, x.2)) =
      some (.voting, (view 4).nowMs) := by
    decide
  have enacted : ((after carried).1.proposals pid).map (fun p => (p.track, p.status)) =
      some (.ratify, .executed) := by
    decide
  obtain ⟨⟨p₀, t₀⟩, found₀, same₀⟩ := Option.map_eq_some_iff.1 released
  obtain ⟨p, found, same⟩ := Option.map_eq_some_iff.1 enacted
  obtain ⟨status₀, rfl⟩ := Prod.mk.inj same₀
  obtain ⟨track, status⟩ := Prod.mk.inj same
  exact ⟨_, _, p₀, p, run, found₀, status₀, found, track, status⟩

theorem distinct : Injective vaultAccount := fun _ _ same => Subtype.ext same

/-- Before the second signal, the lock has gone back whole and the proposal has failed. -/
theorem veto_escrow_failed : (after failed).2.put pid first = (after failed).2.got pid first ∧
    (after failed).2.got pid first = 60 ∧
    (after failed).1.balance (vaultAccount pid) = (after failed).1.total pid := by
  have run : Running VetoOp.Barred (after failed).1 (after failed).2 (view 4).nowMs := by
    refine withdrawn trivial ?_ fun _ => trivial
    intro p found voting
    have early : ((after [(0, .openProposal pid action 100)]).1.proposals pid).map
        (VetoLedger.decided (after [(0, .openProposal pid action 100)]).1 (view 1) pid) =
        some false := by
      decide
    rw [found] at early
    exact Option.some.inj early
  obtain ⟨books, returned, -⟩ := veto_escrow distinct run
  have gone : (after failed).1.locked pid first = 0 := by
    decide
  have none : (after failed).2.gifts pid = 0 := by
    decide
  refine ⟨?_, by decide, ?_⟩
  · rw [returned, gone, Nat.add_zero]
  · rw [(books pid).2, none, Nat.add_zero]

end LateSignal

end Tenzro.VetoEscrow
