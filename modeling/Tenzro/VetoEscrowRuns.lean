import Tenzro.VetoEscrow

set_option autoImplicit false
set_option linter.dupNamespace false

/-!
# The books of the veto escrow

Over every run the records of the escrow agree with its vaults, and what each holder has locked is
locked still or was paid back.
-/
namespace Tenzro.VetoEscrow
open FixedWidth Outcome Function
open Staking (VmError)
open Governance NativeBalance
open Book (SumsTo)

theorem load_ok {s : VetoLedger} {id : ProposalId} {p : Proposal} :
    s.load id = .ok p ↔ s.proposals id = some p := by
  unfold VetoLedger.load Staking.refuse
  cases s.proposals id with
  | none => simp
  | some q => simp

theorem contest_ratify {p p' : Proposal} {nowMs : ℤ} (went : p.contest nowMs = some p') :
    p'.track = .ratify ∧ p'.status = .contested ∧ p'.action = p.action := by
  unfold Proposal.contest at went
  split_ifs at went
  rw [← Option.some.inj went]
  exact ⟨rfl, rfl, rfl⟩

section
variable [VetoVaults]

def vaultAccount (id : ProposalId) : Bytes := AccountNames.account (VetoVaults.vault id)

/-- An address that signs, or is an agent's wallet: no vault does or is. -/
def Outside (addr : Bytes) : Prop :=
  (addr.length = 20 ∨ addr.length = 32) ∧ ∀ id, AccountNames.account addr ≠ vaultAccount id

inductive VetoOp where
  | openProposal (id : ProposalId) (action : ProposalAction) (totalEligible : ℕ)
  | vote (id : ProposalId) (voter : Bytes) (inFavour : Bool) (weight : ℕ)
  | vetoSignal (sender : Bytes) (id : ProposalId) (amount : ℕ)
  | agentSignal (scope : VetoLedger.GovernanceScope) (wallet : Bytes) (id : ProposalId) (amount : ℕ)
  | vetoWithdraw (sender : Bytes) (id : ProposalId) (holder : Bytes)
  | governanceExecute (sender : Bytes) (id : ProposalId)
  | governanceVeto (sender : Bytes) (id : ProposalId) (role : Option GuardianRole) (carried : Bool)
  | concern (sender : Bytes) (id : ProposalId)
  /-- Any other transaction, by the balances it leaves. -/
  | other (balance : Bytes → ℕ)

namespace VetoOp

def run (view : VetoView) (s : VetoLedger) : VetoOp → Except VmError VetoLedger
  | openProposal id action totalEligible => .ok (s.openProposal view id action totalEligible)
  | vote id voter inFavour weight => s.vote view id voter inFavour weight
  | vetoSignal sender id amount => s.vetoSignal view sender id amount
  | agentSignal scope wallet id amount => s.agentSignal view scope wallet id amount
  | vetoWithdraw sender id holder => s.vetoWithdraw view sender id holder
  | governanceExecute sender id => s.governanceExecute view sender id
  | governanceVeto sender id role carried => s.governanceVeto view sender id role carried
  | concern sender id => s.concern view sender id
  | other balance => .ok { s with balance }

/-- A refused operation leaves nothing behind. -/
def apply (view : VetoView) (s : VetoLedger) (op : VetoOp) : VetoLedger :=
  match op.run view s with
  | .ok s' => s'
  | .error _ => s

/-- Senders and wallets are no vaults, a new proposal's id is new (it hashes the proposer, its
payload and its nonce), and other transactions take nothing out of a vault nor pass the width of
the supply. -/
def Signed (s : VetoLedger) : VetoOp → Prop
  | openProposal id _ _ => s.proposals id = none
  | vote _ _ _ _ => True
  | vetoSignal sender _ _ | agentSignal _ sender _ _ | vetoWithdraw sender _ _
  | governanceExecute sender _ | governanceVeto sender _ _ _ | concern sender _ => Outside sender
  | other balance => (∀ id, s.balance (vaultAccount id) ≤ balance (vaultAccount id)) ∧
    ∃ n ≤ maxValue 128, SumsTo balance n

def Barred (view : VetoView) (s : VetoLedger) : VetoOp → Prop
  | vetoSignal _ id _ | agentSignal _ _ id _ =>
    ∀ p, s.proposals id = some p → p.status = .voting → s.decided view id p = false
  | _ => True

end VetoOp

/-! ### The books -/

/-- Coins are spent outside the vaults. -/
structure Spent (b b' : Bytes → ℕ) : Prop where
  vaults : ∀ id, b' (vaultAccount id) = b (vaultAccount id)
  sums : ∀ n, SumsTo b n → ∃ n' ≤ n, SumsTo b' n'

theorem Spent.refl {b : Bytes → ℕ} : Spent b b := ⟨fun _ => rfl, fun n sums => ⟨n, le_rfl, sums⟩⟩

section
variable {s s' : VetoLedger} {view : VetoView} {sender holder : Bytes} {id : ProposalId}
  {amount : ℕ}

theorem charge_ok (ran : s.charge view sender = .ok s') : ∃ b,
    b = setBalance s.balance sender (balanceOf s.balance sender - view.gasCost) ∧
      s' = { s with balance := b } := by
  obtain ⟨_, -, ran⟩ := bind_ok.1 ran
  exact ⟨_, rfl, (pure_ok.1 ran).symm⟩

theorem charged_spent (outside : Outside sender) :
    Spent s.balance (setBalance s.balance sender (balanceOf s.balance sender - view.gasCost)) where
  vaults id := update_of_ne (Ne.symm (outside.2 id)) _ _
  sums n sums := by
    have within := sums.le (AccountNames.account sender)
    refine ⟨n - min view.gasCost (balanceOf s.balance sender), Nat.sub_le _ _, sums.update ?_⟩
    unfold balanceOf
    omega

/-- Coins locked: into the vault, the record and the total. -/
structure Locked (s s' : VetoLedger) (holder : Bytes) (id : ProposalId) (amount : ℕ) : Prop where
  paid : ∃ b, Spent s.balance b ∧ amount ≤ b (AccountNames.account holder) ∧
    s'.balance = moved b (AccountNames.account holder) (vaultAccount id) amount
  locked : s'.locked = update s.locked id (update (s.locked id) holder
    (saturatingAdd 128 (s.locked id holder) amount))
  total : s'.total = update s.total id (saturatingAdd 128 (s.total id) amount)

/-- A lock returned: out of the vault, the record and the total. -/
structure Returned (s s' : VetoLedger) (view : VetoView) (sender : Bytes) (id : ProposalId)
    (holder : Bytes) : Prop where
  holds : s.locked id holder ≠ 0
  paid : ∃ b, b = setBalance s.balance sender (balanceOf s.balance sender - view.gasCost) ∧
    s'.balance = moved b (vaultAccount id) (AccountNames.account holder) (s.locked id holder)
  enough : s.locked id holder ≤
    setBalance s.balance sender (balanceOf s.balance sender - view.gasCost) (vaultAccount id)
  locked : s'.locked = update s.locked id (update (s.locked id) holder 0)
  total : s'.total = update s.total id (s.total id - s.locked id holder)
  proposals : s'.proposals = s.proposals
  tally : s'.tally = s.tally

structure Idle (s s' : VetoLedger) : Prop where
  spent : Spent s.balance s'.balance
  locked : s'.locked = s.locked
  total : s'.total = s.total

end

/-! ### Each operation -/

def mayDelay (p : Proposal) (nowMs : ℤ) : Bool :=
  match p.status with
  | .voting | .passed | .contested => true
  | .queued => !p.isExecutableAt nowMs
  | _ => false

section
variable {s s' : VetoLedger} {view : VetoView} {sender holder : Bytes} {id : ProposalId}
  {amount : ℕ}

def Signalled (s s' : VetoLedger) (view : VetoView) (id : ProposalId) : Prop :=
  ∃ p, s.proposals id = some p ∧ holderVetoApplies p.action ∧ mayDelay p view.nowMs ∧
    ((∃ extensionMs, s'.proposals = update s.proposals id (p.extendByVeto extensionMs) ∧
      s'.tally = s.tally) ∨
    ∃ p' t, p.contest view.nowMs = some p' ∧
      s'.proposals = update s.proposals id (some p') ∧
      s'.tally = update s.tally id (update (s.tally id) true t))

theorem lock_ok (ran : s.lock view holder id amount = .ok s') :
    amount ≤ balanceOf s.balance holder ∧
      s'.balance = moved s.balance (AccountNames.account holder) (vaultAccount id) amount ∧
      s'.locked = update s.locked id (update (s.locked id) holder
        (saturatingAdd 128 (s.locked id holder) amount)) ∧
      s'.total = update s.total id (saturatingAdd 128 (s.total id) amount) ∧
      Signalled s s' view id := by
  unfold VetoLedger.lock at ran
  obtain ⟨_, -, ran⟩ := bind_ok.1 ran
  obtain ⟨p, found, ran⟩ := bind_ok.1 ran
  obtain ⟨_, applies, ran⟩ := bind_ok.1 ran
  obtain ⟨_, open_, ran⟩ := bind_ok.1 ran
  obtain ⟨balance, paid, ran⟩ := bind_ok.1 ran
  obtain ⟨enough, rfl⟩ := moveTnzo_ok paid
  have there := load_ok.1 found
  have signal : holderVetoApplies p.action ∧ mayDelay p view.nowMs :=
    ⟨ensure_ok.1 applies, ensure_ok.1 open_⟩
  simp only at ran
  split at ran
  · rename_i p' contested
    split_ifs at contested
    obtain rfl := pure_ok.1 ran
    have ratify : VetoLedger.ballotId p' = true := by
      simp [VetoLedger.ballotId, (contest_ratify contested).1]
    refine ⟨enough, rfl, rfl, rfl, p, there, signal.1, signal.2, .inr
      ⟨p', ⟨0, 0, (s.tallyOf id p).totalEligible⟩, contested, rfl, ?_⟩⟩
    simp only [VetoLedger.store, VetoLedger.setTally, ratify]
    rfl
  · obtain rfl := pure_ok.1 ran
    exact ⟨enough, rfl, rfl, rfl, p, there, signal.1, signal.2, .inl ⟨_, rfl, rfl⟩⟩

theorem vetoSignal_ok (outside : Outside sender)
    (ran : s.vetoSignal view sender id amount = .ok s') :
    Locked s s' sender id amount ∧ Signalled s s' view id := by
  obtain ⟨_, -, ran⟩ := bind_ok.1 ran
  obtain ⟨s₁, charged, ran⟩ := bind_ok.1 ran
  obtain ⟨b, rfl, rfl⟩ := charge_ok charged
  obtain ⟨enough, balance, locked, total, signalled⟩ := lock_ok ran
  exact ⟨⟨⟨_, charged_spent outside, enough, balance⟩, locked, total⟩, signalled⟩

theorem agentSignal_ok {scope : VetoLedger.GovernanceScope}
    (ran : s.agentSignal view scope holder id amount = .ok s') :
    Locked s s' holder id amount ∧ Signalled s s' view id := by
  obtain ⟨_, -, ran⟩ := bind_ok.1 ran
  obtain ⟨_, -, ran⟩ := bind_ok.1 ran
  obtain ⟨_, -, ran⟩ := bind_ok.1 ran
  obtain ⟨_, -, ran⟩ := bind_ok.1 ran
  obtain ⟨_, -, ran⟩ := bind_ok.1 ran
  obtain ⟨enough, balance, locked, total, signalled⟩ := lock_ok ran
  exact ⟨⟨⟨_, .refl, enough, balance⟩, locked, total⟩, signalled⟩

theorem vetoWithdraw_ok (ran : s.vetoWithdraw view sender id holder = .ok s') :
    Returned s s' view sender id holder ∧
      ∃ p, s.proposals id = some p ∧ s.decided view id p := by
  unfold VetoLedger.vetoWithdraw at ran
  obtain ⟨_, -, ran⟩ := bind_ok.1 ran
  obtain ⟨p, found, ran⟩ := bind_ok.1 ran
  obtain ⟨_, holds, ran⟩ := bind_ok.1 ran
  obtain ⟨_, decided, ran⟩ := bind_ok.1 ran
  obtain ⟨s₁, charged, ran⟩ := bind_ok.1 ran
  obtain ⟨b, rfl, rfl⟩ := charge_ok charged
  obtain ⟨balance, paid, ran⟩ := bind_ok.1 ran
  obtain ⟨enough, rfl⟩ := moveTnzo_ok paid
  obtain rfl := pure_ok.1 ran
  exact ⟨⟨ensure_ok.1 holds, ⟨_, rfl, rfl⟩, enough, rfl, rfl, rfl, rfl⟩, p, load_ok.1 found,
    ensure_ok.1 decided⟩

/-- What one operation does to one proposal. -/
inductive Progress (view : VetoView) (s s' : VetoLedger) (id : ProposalId) : Prop
  | same (proposals : s'.proposals id = s.proposals id) (tally : s'.tally id = s.tally id)
  | opened (action : ProposalAction) (new : s.proposals id = none)
      (after : s'.proposals id = some (.opened action view.nowMs view.rules))
  | counted {p : Proposal} (found : s.proposals id = some p) (voting : p.isOpenAt view.nowMs)
      (after : s'.proposals id = some p)
  | stretched {p : Proposal} (extensionMs : ℤ) (found : s.proposals id = some p)
      (delay : mayDelay p view.nowMs) (barred : p.status = .voting → s.decided view id p = false)
      (after : s'.proposals id = some (p.extendByVeto extensionMs))
      (tally : s'.tally id = s.tally id)
  | contested {p p' : Proposal} (found : s.proposals id = some p) (delay : mayDelay p view.nowMs)
      (barred : p.status = .voting → s.decided view id p = false)
      (went : p.contest view.nowMs = some p') (after : s'.proposals id = some p')
  | queued {p p' : Proposal} (found : s.proposals id = some p)
      (status : p.status ≠ .vetoed ∧ p.status ≠ .executed ∧ p.status ≠ .queued)
      (passed : p.decideGuarded (s.tallyOf id p) view.nowMs (view.loosensCaptureGuard p.action) =
        .ok .passed)
      (went : { p with status := .passed }.queue view.nowMs = some p')
      (after : s'.proposals id = some p')
  | executed {p : Proposal} (found : s.proposals id = some p)
      (elapsed : p.isExecutableAt view.nowMs)
      (after : s'.proposals id = some { p with status := .executed })
      (tally : s'.tally id = s.tally id)
  | vetoed {p : Proposal} (found : s.proposals id = some p) (status : p.status = .queued)
      (after : s'.proposals id = some { p with status := .vetoed })
      (tally : s'.tally id = s.tally id)
  | concerned {p : Proposal} (quorum : ℕ) (found : s.proposals id = some p)
      (status : p.status = .queued) (running : p.isExecutableAt view.nowMs = false)
      (after : s'.proposals id = some (p.raiseConcern quorum)) (tally : s'.tally id = s.tally id)

omit [VetoVaults] in
theorem Progress.others (id₀ : ProposalId)
    (proposals : ∀ id ≠ id₀, s'.proposals id = s.proposals id)
    (tally : ∀ id ≠ id₀, s'.tally id = s.tally id) (here : Progress view s s' id₀)
    (id : ProposalId) :
    Progress view s s' id := by
  by_cases same : id = id₀
  · rw [same]
    exact here
  · exact .same (proposals id same) (tally id same)

omit [VetoVaults] in
theorem Signalled.progress (signalled : Signalled s s' view id)
    (barred : ∀ p, s.proposals id = some p → p.status = .voting → s.decided view id p = false)
    (id' : ProposalId) : Progress view s s' id' := by
  obtain ⟨p, found, -, delay, went⟩ := signalled
  rcases went with ⟨extensionMs, proposals, tally⟩ | ⟨p', t, went, proposals, tally⟩
  · refine Progress.others id (fun _ other => ?_) (fun _ other => by rw [tally])
      (.stretched extensionMs found delay (barred p found) ?_ (by rw [tally])) id'
    · rw [proposals, update_of_ne other]
    · rw [proposals, update_self]
  · refine Progress.others id (fun _ other => ?_) (fun _ other => ?_)
      (.contested found delay (barred p found) went ?_) id'
    · rw [proposals, update_of_ne other]
    · rw [tally, update_of_ne other]
    · rw [proposals, update_self]

theorem vote_ok {voter : Bytes} {inFavour : Bool} {weight : ℕ}
    (ran : s.vote view id voter inFavour weight = .ok s') :
    Idle s s' ∧ ∀ id', Progress view s s' id' := by
  unfold VetoLedger.vote at ran
  obtain ⟨p, found, ran⟩ := bind_ok.1 ran
  obtain ⟨_, voting, ran⟩ := bind_ok.1 ran
  obtain ⟨_, -, ran⟩ := bind_ok.1 ran
  obtain rfl := pure_ok.1 ran
  refine ⟨⟨.refl, rfl, rfl⟩, Progress.others id (fun _ _ => rfl) (fun _ other => ?_) ?_⟩
  · exact update_of_ne other _ _
  · exact .counted (load_ok.1 found) (ensure_ok.1 voting) (load_ok.1 found)

theorem stored {b : Bytes → ℕ} {p : Proposal} (outside : Outside sender)
    (charged : b = setBalance s.balance sender (balanceOf s.balance sender - view.gasCost))
    (here : Progress view s (({ s with balance := b } : VetoLedger).store id p) id) :
    Idle s (({ s with balance := b } : VetoLedger).store id p) ∧
      ∀ id', Progress view s (({ s with balance := b } : VetoLedger).store id p) id' :=
  ⟨⟨charged ▸ charged_spent outside, rfl, rfl⟩,
    Progress.others id (fun _ other => update_of_ne other _ _) (fun _ _ => rfl) here⟩

theorem governanceExecute_ok (outside : Outside sender)
    (ran : s.governanceExecute view sender id = .ok s') :
    Idle s s' ∧ ∀ id', Progress view s s' id' := by
  unfold VetoLedger.governanceExecute at ran
  obtain ⟨p, found, ran⟩ := bind_ok.1 ran
  obtain ⟨_, -, ran⟩ := bind_ok.1 ran
  obtain ⟨_, -, ran⟩ := bind_ok.1 ran
  obtain ⟨_, unvetoed, ran⟩ := bind_ok.1 ran
  obtain ⟨_, unexecuted, ran⟩ := bind_ok.1 ran
  have there := load_ok.1 found
  split_ifs at ran with status
  · obtain ⟨outcome, decided, ran⟩ := bind_ok.1 ran
    obtain ⟨_, carried, ran⟩ := bind_ok.1 ran
    have passed : p.decideGuarded (s.tallyOf id p) view.nowMs
        (view.loosensCaptureGuard p.action) = .ok .passed := by
      rw [← ensure_ok.1 carried]
      cases ran : p.decideGuarded (s.tallyOf id p) view.nowMs
          (view.loosensCaptureGuard p.action) with
      | error e =>
        rw [ran] at decided
        cases decided
      | ok status =>
        rw [ran] at decided
        exact congrArg _ (Except.ok.inj decided)
    split at ran
    · cases ran
    · rename_i p' went
      obtain ⟨s₁, charged, ran⟩ := bind_ok.1 ran
      obtain ⟨b, paid, rfl⟩ := charge_ok charged
      obtain rfl := pure_ok.1 ran
      exact stored outside paid (.queued there
        ⟨ensure_ok.1 unvetoed, ensure_ok.1 unexecuted, status⟩ passed went
        (update_self _ _ _))
  · obtain ⟨_, elapsed, ran⟩ := bind_ok.1 ran
    obtain ⟨_, -, ran⟩ := bind_ok.1 ran
    obtain ⟨s₁, charged, ran⟩ := bind_ok.1 ran
    obtain ⟨b, paid, rfl⟩ := charge_ok charged
    obtain rfl := pure_ok.1 ran
    exact stored outside paid (.executed there (ensure_ok.1 elapsed) (update_self _ _ _)
      rfl)

theorem governanceVeto_ok {role : Option GuardianRole} {carried : Bool} (outside : Outside sender)
    (ran : s.governanceVeto view sender id role carried = .ok s') :
    Idle s s' ∧ ∀ id', Progress view s s' id' := by
  unfold VetoLedger.governanceVeto at ran
  obtain ⟨p, found, ran⟩ := bind_ok.1 ran
  obtain ⟨_, -, ran⟩ := bind_ok.1 ran
  obtain ⟨s₁, charged, ran⟩ := bind_ok.1 ran
  obtain ⟨b, paid, rfl⟩ := charge_ok charged
  split_ifs at ran
  · split at ran
    · cases ran
    · rename_i p' went
      obtain rfl := pure_ok.1 ran
      unfold Proposal.veto at went
      split_ifs at went with status
      rw [← Option.some.inj went]
      exact stored outside paid (.vetoed (load_ok.1 found) (Decidable.not_not.1 status)
        (update_self _ _ _) rfl)
  · obtain rfl := pure_ok.1 ran
    exact ⟨⟨paid ▸ charged_spent outside, rfl, rfl⟩, fun _ => .same rfl rfl⟩

theorem concern_ok (outside : Outside sender) (ran : s.concern view sender id = .ok s') :
    Idle s s' ∧ ∀ id', Progress view s s' id' := by
  unfold VetoLedger.concern at ran
  obtain ⟨p, found, ran⟩ := bind_ok.1 ran
  obtain ⟨_, waits, ran⟩ := bind_ok.1 ran
  obtain ⟨status, running⟩ := ensure_ok.1 waits
  split at ran
  · cases ran
  · obtain ⟨_, -, ran⟩ := bind_ok.1 ran
    obtain ⟨_, -, ran⟩ := bind_ok.1 ran
    obtain ⟨_, -, ran⟩ := bind_ok.1 ran
    obtain ⟨s₁, charged, ran⟩ := bind_ok.1 ran
    obtain ⟨b, paid, rfl⟩ := charge_ok charged
    obtain rfl := pure_ok.1 ran
    refine ⟨⟨paid ▸ charged_spent outside, rfl, rfl⟩,
      Progress.others id (fun _ other => update_of_ne other _ _) (fun _ _ => rfl)
        (.concerned view.concernQuorum (load_ok.1 found) status (Bool.eq_false_iff.2 running)
          (update_self _ _ _) rfl)⟩

omit [VetoVaults] in
theorem openProposal_progress {action : ProposalAction} {totalEligible : ℕ}
    (new : s.proposals id = none) (id' : ProposalId) :
    Progress view s (s.openProposal view id action totalEligible) id' :=
  Progress.others id (fun _ other => update_of_ne other _ _)
    (fun _ other => update_of_ne other _ _)
    (.opened action new (update_self _ _ _)) id'

end

end

/-- What each holder has locked against each proposal and was paid back, what others paid in, and
each proposal as it stood when a lock first left it. -/
structure Trail where
  put : ProposalId → Bytes → ℕ
  got : ProposalId → Bytes → ℕ
  gifts : ProposalId → ℕ
  released : ProposalId → Option (Proposal × ℤ)

def Trail.fresh : Trail := ⟨fun _ _ => 0, fun _ _ => 0, fun _ => 0, fun _ => none⟩

def VetoLedger.fresh (balance : Bytes → ℕ) : VetoLedger where
  balance := balance
  proposals _ := none
  tally _ _ := ⟨0, 0, 0⟩
  votes _ _ _ := none
  concerned _ _ := false
  locked _ _ := 0
  total _ := 0

section
variable [VetoVaults]

namespace VetoOp

def trail (view : VetoView) (s : VetoLedger) (t : Trail) (op : VetoOp) : Trail :=
  match op.run view s with
  | .error _ => t
  | .ok _ => match op with
    | vetoSignal holder id amount | agentSignal _ holder id amount =>
      { t with
        put := update t.put id
          (update (t.put id) holder (t.put id holder + amount)) }
    | vetoWithdraw _ id holder => { t with
        got := update t.got id
          (update (t.got id) holder (t.got id holder + s.locked id holder))
        released := update t.released id ((t.released id).or
          ((s.proposals id).map fun p => (p, view.nowMs))) }
    | other balance => { t with
        gifts := fun id => t.gifts id + (balance (vaultAccount id) - s.balance (vaultAccount id)) }
    | _ => t

end VetoOp

/-- Runs in which block time does not go back. -/
inductive Running (allowed : VetoView → VetoLedger → VetoOp → Prop) :
    VetoLedger → Trail → ℤ → Prop
  | start {balance : Bytes → ℕ} {n : ℕ} (sums : SumsTo balance n) (fits : n ≤ maxValue 128)
      (empty : ∀ id, balance (vaultAccount id) = 0) (now : ℤ) :
      Running allowed (.fresh balance) .fresh now
  | step {s : VetoLedger} {t : Trail} {now : ℤ} (before : Running allowed s t now)
      (view : VetoView) (later : now ≤ view.nowMs) (op : VetoOp) (signed : op.Signed s)
      (may : allowed view s op) :
      Running allowed (op.apply view s) (op.trail view s t) view.nowMs

/-! ### The books -/

/-- The records of the escrow against its vaults, and what each holder put in and got back. -/
structure Kept (s : VetoLedger) (t : Trail) : Prop where
  sums : ∀ id, SumsTo (s.locked id) (s.total id)
  vault : ∀ id, s.balance (vaultAccount id) = s.total id + t.gifts id
  returned : ∀ id holder, t.put id holder = t.got id holder + s.locked id holder
  holders : ∀ id holder, s.locked id holder ≠ 0 → Outside holder
  fits : ∃ n ≤ maxValue 128, SumsTo s.balance n

section
variable {s s' : VetoLedger} {t : Trail} {view : VetoView} {sender holder : Bytes}
  {id : ProposalId} {amount : ℕ}

omit [VetoVaults] in
theorem update_entry {f : ProposalId → Bytes → ℕ} {v : ℕ} (id' : ProposalId) (a : Bytes) :
    update f id (update (f id) holder v) id' a =
      if id' = id ∧ a = holder then v else f id' a := by
  by_cases same : id' = id
  · subst same
    rw [update_self, update_apply]
    simp
  · rw [update_of_ne same, if_neg fun here => same here.1]

omit [VetoVaults] in
theorem sums_entry {f : ProposalId → Bytes → ℕ} {g : ProposalId → ℕ} {v n : ℕ}
    (sums : ∀ id, SumsTo (f id) (g id)) (whole : n + f id holder = g id + v) (id' : ProposalId) :
    SumsTo (update f id (update (f id) holder v) id')
      (update g id n id') := by
  by_cases same : id' = id
  · subst same
    rw [update_self, update_self]
    exact (sums id').update whole
  · rw [update_of_ne same, update_of_ne same]
    exact sums id'

theorem Kept.idle (kept : Kept s t) (idle : Idle s s') : Kept s' t := by
  obtain ⟨⟨vaults, sums⟩, locked, total⟩ := idle
  refine ⟨?_, fun id => ?_, ?_, ?_, ?_⟩
  · rw [locked, total]
    exact kept.sums
  · rw [vaults, total, kept.vault]
  · rw [locked]
    exact kept.returned
  · rw [locked]
    exact kept.holders
  · obtain ⟨n, fits, whole⟩ := kept.fits
    obtain ⟨n', less, rest⟩ := sums n whole
    exact ⟨n', less.trans fits, rest⟩

theorem Kept.lock (distinct : Injective vaultAccount) (kept : Kept s t)
    (outside : Outside holder) (locked : Locked s s' holder id amount) :
    Kept s' { t with
      put := update t.put id
        (update (t.put id) holder (t.put id holder + amount)) } := by
  obtain ⟨⟨b, ⟨vaults, sums⟩, enough, paid⟩, record, total⟩ := locked
  obtain ⟨n, fits, whole⟩ := kept.fits
  obtain ⟨n', less, rest⟩ := sums n whole
  have moved_sums : SumsTo (moved b (AccountNames.account holder) (vaultAccount id) amount) n' :=
    sumsTo_moved rest enough
  have at_vault : moved b (AccountNames.account holder) (vaultAccount id) amount
      (vaultAccount id) = s.total id + t.gifts id + amount := by
    rw [moved_dest (Ne.symm (outside.2 id)), vaults, kept.vault]
  have room := moved_sums.le (vaultAccount id)
  have single := (kept.sums id).le holder
  have exact_total : saturatingAdd 128 (s.total id) amount = s.total id + amount := by
    unfold saturatingAdd
    omega
  have exact_lock : saturatingAdd 128 (s.locked id holder) amount =
      s.locked id holder + amount := by
    unfold saturatingAdd
    omega
  rw [exact_lock] at record
  rw [exact_total] at total
  refine ⟨fun id' => ?_, fun id' => ?_, fun id' a => ?_, fun id' a held => ?_, n',
    less.trans fits, ?_⟩
  · rw [record, total]
    exact sums_entry kept.sums (by omega) id'
  · rw [paid, total]
    by_cases same : id' = id
    · subst same
      rw [at_vault, update_self]
      exact Nat.add_right_comm _ _ _
    · rw [update_of_ne same, moved_of_ne (Ne.symm (outside.2 id'))
        (fun clash => same (distinct clash)), vaults, kept.vault]
  · have before := kept.returned id' a
    simp only [record, update_entry]
    split_ifs with own
    · obtain ⟨rfl, rfl⟩ := own
      omega
    · exact before
  · rw [record, update_entry] at held
    split_ifs at held with own
    · exact own.2 ▸ outside
    · exact kept.holders id' a held
  · rw [paid]
    exact moved_sums

theorem Kept.withdraw (distinct : Injective vaultAccount) (kept : Kept s t)
    (outside : Outside sender) (returned : Returned s s' view sender id holder)
    {released : ProposalId → Option (Proposal × ℤ)} : Kept s' { t with
      got := update t.got id
        (update (t.got id) holder (t.got id holder + s.locked id holder))
      released := released } := by
  obtain ⟨holds, ⟨b, rfl, paid⟩, enough, record, total, -, -⟩ := returned
  have spent : Spent s.balance (setBalance s.balance sender
      (balanceOf s.balance sender - view.gasCost)) := charged_spent outside
  obtain ⟨vaults, sums⟩ := spent
  obtain ⟨n, fits, whole⟩ := kept.fits
  obtain ⟨n', less, rest⟩ := sums n whole
  have away := (kept.holders id holder holds).2
  have single := (kept.sums id).le holder
  refine ⟨fun id' => ?_, fun id' => ?_, fun id' a => ?_, fun id' a held => ?_, n',
    less.trans fits, ?_⟩
  · rw [record, total]
    exact sums_entry kept.sums (by omega) id'
  · rw [paid, total]
    by_cases same : id' = id
    · subst same
      rw [moved_source (away id'), vaults, kept.vault, update_self]
      exact Nat.sub_add_comm single
    · rw [update_of_ne same, moved_of_ne (fun clash => same (distinct clash))
        (Ne.symm (away id')), vaults, kept.vault]
  · have before := kept.returned id' a
    simp only [record, update_entry]
    split_ifs with own
    · obtain ⟨rfl, rfl⟩ := own
      omega
    · exact before
  · refine kept.holders id' a fun nothing => held ?_
    rw [record, update_entry, nothing, ite_self]
  · rw [paid]
    exact sumsTo_moved rest enough

theorem Kept.other (kept : Kept s t) {balance : Bytes → ℕ}
    (vaults : ∀ id, s.balance (vaultAccount id) ≤ balance (vaultAccount id))
    (fits : ∃ n ≤ maxValue 128, SumsTo balance n) : Kept { s with balance } { t with
      gifts := fun id =>
        t.gifts id + (balance (vaultAccount id) - s.balance (vaultAccount id)) } := by
  refine ⟨kept.sums, fun id => ?_, kept.returned, kept.holders, fits⟩
  have before := kept.vault id
  have more := vaults id
  simp only
  omega

theorem Kept.step (distinct : Injective vaultAccount) (kept : Kept s t) {op : VetoOp}
    (signed : op.Signed s) : Kept (op.apply view s) (op.trail view s t) := by
  unfold VetoOp.apply VetoOp.trail
  cases ran : op.run view s with
  | error e => exact kept
  | ok s' =>
    cases op with
    | openProposal id action totalEligible =>
      obtain rfl := Except.ok.inj ran
      exact kept.idle ⟨.refl, rfl, rfl⟩
    | vote id voter inFavour weight => exact kept.idle (vote_ok ran).1
    | vetoSignal sender id amount => exact kept.lock distinct signed (vetoSignal_ok signed ran).1
    | agentSignal scope wallet id amount => exact kept.lock distinct signed (agentSignal_ok ran).1
    | vetoWithdraw sender id holder => exact kept.withdraw distinct signed (vetoWithdraw_ok ran).1
    | governanceExecute sender id => exact kept.idle (governanceExecute_ok signed ran).1
    | governanceVeto sender id role carried => exact kept.idle (governanceVeto_ok signed ran).1
    | concern sender id => exact kept.idle (concern_ok signed ran).1
    | other balance =>
      obtain rfl := Except.ok.inj ran
      exact kept.other signed.1 signed.2

end

end

end Tenzro.VetoEscrow
