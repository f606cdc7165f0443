import Tenzro.Staking

set_option autoImplicit false
set_option linter.dupNamespace false

/-!
# Proposals

A proposal is voted on under the rules in force when it opened. A passed one waits out a
timelock; veto locks and concerns stretch it, and the holders may contest it once.
-/
namespace Tenzro.Governance
open FixedWidth
open Staking (clampSigned)

inductive ProposalTrack where
  | standard
  | expedited
  | ratify
  | securityFix
deriving DecidableEq, Repr

inductive ProposalStatus where
  | voting
  | passed
  | queued
  | vetoed
  | rejected
  | executed
  | contested
deriving DecidableEq, Repr

/-- As a refusal prints it. -/
def ProposalStatus.debug : ProposalStatus → String
  | voting => "Voting"
  | passed => "Passed"
  | queued => "Queued"
  | vetoed => "Vetoed"
  | rejected => "Rejected"
  | executed => "Executed"
  | contested => "Contested"

inductive ActionDomain where
  | network
  | treasury
  | sanction
deriving DecidableEq, Repr

structure GovernanceRules where
  votingPeriodMs : ℤ
  expeditedVotingPeriodMs : ℤ
  timelockMs : ℤ
  expeditedTimelockMs : ℤ
  ratifyTimelockMs : ℤ
  quorumBps : ℕ
  thresholdBps : ℕ
  expeditedThresholdBps : ℕ
  ratifyThresholdBps : ℕ
  minBondAgeMs : ℤ
  largeSpendTnzo : ℕ
  largeSpendApprovalBps : ℕ
  largeSpendTimelockMs : ℤ
deriving DecidableEq, Repr

/-- What the vote reads of a proposal's action. Only a parameter change can loosen a guard, and it
is a network decision. -/
structure ProposalAction where
  kind : String
  domain : ActionDomain
  track : ProposalTrack
  parameterChange : Option (String × ℕ)
  protocolUpgrade : Bool
  committedOutflow : ℕ
  direct : track ≠ .ratify
  network : parameterChange ≠ none → domain = .network ∧ protocolUpgrade = false
deriving DecidableEq, Repr

namespace ProposalTrack

def votingPeriodMs (rules : GovernanceRules) : ProposalTrack → ℤ
  | standard | ratify => rules.votingPeriodMs
  | expedited | securityFix => rules.expeditedVotingPeriodMs

def timelockMs (rules : GovernanceRules) : ProposalTrack → ℤ
  | standard => rules.timelockMs
  | expedited | securityFix => rules.expeditedTimelockMs
  | ratify => rules.ratifyTimelockMs

def thresholdBps (rules : GovernanceRules) : ProposalTrack → ℕ
  | standard => rules.thresholdBps
  | expedited | securityFix => max rules.expeditedThresholdBps rules.thresholdBps
  | ratify => max rules.ratifyThresholdBps rules.thresholdBps

end ProposalTrack

/-- Running vote totals, in units of bonded stake. -/
structure Tally where
  yes : ℕ
  no : ℕ
  totalEligible : ℕ
deriving DecidableEq, Repr

/-- Both products are exact. -/
def shareAtLeast (part whole bps : ℕ) : Bool := whole * bps ≤ part * 10000

namespace Tally
variable (t : Tally)

def participation : ℕ := saturatingAdd 128 t.yes t.no

def quorumMet (rules : GovernanceRules) : Bool :=
  t.totalEligible ≠ 0 && shareAtLeast t.participation t.totalEligible rules.quorumBps

def thresholdMetOn (track : ProposalTrack) (rules : GovernanceRules) : Bool :=
  t.participation ≠ 0 && shareAtLeast t.yes t.participation (track.thresholdBps rules)

def outcomeOn (track : ProposalTrack) (rules : GovernanceRules) : ProposalStatus :=
  if t.quorumMet rules ∧ t.thresholdMetOn track rules then .passed else .rejected

def failureReason (track : ProposalTrack) (rules : GovernanceRules) : String :=
  if ¬ t.quorumMet rules then
    s!"quorum not met: {t.participation} of {t.totalEligible} bonded stake participated, need {rules.quorumBps} bps"
  else
    s!"threshold not met: {t.yes} yes of {t.participation} cast, need {track.thresholdBps rules} bps"

def applyVote (weight : ℕ) (inFavour : Bool) (previous : Option (ℕ × Bool)) : Tally :=
  let t := match previous with
    | some (old, true) => { t with yes := t.yes - old }
    | some (old, false) => { t with no := t.no - old }
    | none => t
  if inFavour then { t with yes := saturatingAdd 128 t.yes weight }
  else { t with no := saturatingAdd 128 t.no weight }

end Tally

def holderVetoApplies (action : ProposalAction) : Bool :=
  action.domain = .treasury || action.domain = .sanction || action.protocolUpgrade

def stewardScope (action : ProposalAction) : Bool :=
  action.domain = .treasury || action.track = .expedited

/-- A proposal as the chain stores it, under its id. -/
structure Proposal where
  track : ProposalTrack
  etaMs : Option ℤ
  action : ProposalAction
  createdMs : ℤ
  votingEndsMs : ℤ
  status : ProposalStatus
  queuedMs : Option ℤ
  vetoExtensionMs : ℤ
  concerns : ℕ
  concernDoubled : Bool
  rules : GovernanceRules
deriving DecidableEq, Repr

namespace Proposal

def openOn (action : ProposalAction) (createdMs : ℤ) (track : ProposalTrack)
    (rules : GovernanceRules) : Proposal where
  track := track
  etaMs := none
  action := action
  createdMs := createdMs
  votingEndsMs := clampSigned (createdMs + track.votingPeriodMs rules)
  status := .voting
  queuedMs := none
  vetoExtensionMs := 0
  concerns := 0
  concernDoubled := false
  rules := rules

def opened (action : ProposalAction) (createdMs : ℤ) (rules : GovernanceRules) : Proposal :=
  openOn action createdMs action.track rules

variable (p : Proposal)

def isOpenAt (nowMs : ℤ) : Bool :=
  (p.status = .voting || p.status = .contested) && nowMs < p.votingEndsMs

def isExecutableAt (nowMs : ℤ) : Bool :=
  p.status = .queued && p.etaMs.any (· ≤ nowMs)

def isLargeSpend : Bool :=
  0 < p.action.committedOutflow &&
    saturatingMul 128 p.rules.largeSpendTnzo 1000000000000000000 ≤ p.action.committedOutflow

/-- Whether fewer yes votes than the large-spend share of all eligible stake were cast. -/
def shortOfApproval (t : Tally) : Bool :=
  saturatingMul 128 t.yes 10000 <
    saturatingMul 128 t.totalEligible p.rules.largeSpendApprovalBps

def outcome (t : Tally) : ProposalStatus :=
  let status := t.outcomeOn p.track p.rules
  if status = .passed ∧ 0 < p.action.committedOutflow ∧ p.shortOfApproval t then .rejected
  else status

def outcomeGuarded (t : Tally) (loosensGuard : Bool) : ProposalStatus :=
  let status := p.outcome t
  if status = .passed ∧ loosensGuard ∧ p.shortOfApproval t then .rejected else status

/-- When a queued proposal may execute. -/
def stretchedEta : Option ℤ :=
  p.queuedMs.map fun queued =>
    let lock := p.track.timelockMs p.rules
    let lock := if p.isLargeSpend then max lock p.rules.largeSpendTimelockMs else lock
    let lock := if p.concernDoubled then clampSigned (lock * 2) else lock
    clampSigned (clampSigned (queued + lock) + p.vetoExtensionMs)

/-! The changes return nothing where they do not apply. -/

def queue (nowMs : ℤ) : Option Proposal :=
  if p.status ≠ .passed then none
  else
    let p := { p with status := .queued, queuedMs := some nowMs }
    some { p with etaMs := p.stretchedEta }

def extendByVeto (extensionMs : ℤ) : Proposal :=
  if p.track ≠ .ratify ∧ p.vetoExtensionMs < extensionMs then
    let p := { p with vetoExtensionMs := extensionMs }
    if p.status = .queued then { p with etaMs := p.stretchedEta } else p
  else p

def contest (nowMs : ℤ) : Option Proposal :=
  if p.track = .ratify ∨ ¬ (p.status = .voting ∨ p.status = .passed ∨ p.status = .queued) then none
  else some { p with
    status := .contested
    track := .ratify
    votingEndsMs := clampSigned (nowMs + ProposalTrack.ratify.votingPeriodMs p.rules)
    etaMs := none
    queuedMs := none
    vetoExtensionMs := 0 }

def raiseConcern (quorum : ℕ) : Proposal :=
  let p := { p with concerns := saturatingAdd 32 p.concerns 1 }
  if p.concernDoubled ∨ p.concerns ≤ quorum then p
  else
    let p := { p with concernDoubled := true }
    { p with etaMs := p.stretchedEta }

def veto : Option Proposal :=
  if p.status ≠ .queued then none else some { p with status := .vetoed }

inductive GovernanceError where
  | alreadyExecuted
  | votingStillOpen (endsMs nowMs : ℤ)
deriving DecidableEq, Repr

def GovernanceError.toString : GovernanceError → String
  | alreadyExecuted => "proposal has already been executed"
  | votingStillOpen endsMs nowMs => s!"voting is open until {endsMs}; now is {nowMs}"

def decide (t : Tally) (nowMs : ℤ) : Except GovernanceError ProposalStatus :=
  if p.status = .executed then .error .alreadyExecuted
  else if nowMs < p.votingEndsMs then .error (.votingStillOpen p.votingEndsMs nowMs)
  else .ok (p.outcome t)

def decideGuarded (t : Tally) (nowMs : ℤ) (loosensGuard : Bool) :
    Except GovernanceError ProposalStatus := do
  let _ ← p.decide t nowMs
  return p.outcomeGuarded t loosensGuard

end Proposal

/-! ### Rules within their bounds -/

def maxVotingPeriodMs : ℤ := 30 * 24 * 60 * 60 * 1000

def maxExpeditedVotingPeriodMs : ℤ := 3 * 24 * 60 * 60 * 1000

/-- The bounds governance sets these parameters within. -/
structure GovernanceRules.Governed (rules : GovernanceRules) : Prop where
  voting : 0 ≤ rules.votingPeriodMs ∧ rules.votingPeriodMs ≤ maxVotingPeriodMs
  expedited : 0 ≤ rules.expeditedVotingPeriodMs ∧
    rules.expeditedVotingPeriodMs ≤ maxExpeditedVotingPeriodMs
  bondAge : 0 ≤ rules.minBondAgeMs ∧ rules.minBondAgeMs ≤ Staking.maxMinBondAgeMs

/-- A proposal as some sequence of changes leaves it. -/
inductive Proposal.Reached : Proposal → Prop
  | opened (action : ProposalAction) {createdMs : ℤ} {rules : GovernanceRules}
      (time : -2 ^ 63 ≤ createdMs ∧ createdMs < 2 ^ 63) (governed : rules.Governed) :
      Reached (.opened action createdMs rules)
  | queued {p p' : Proposal} (before : Reached p) {nowMs : ℤ}
      (went : { p with status := .passed }.queue nowMs = some p') : Reached p'
  | contested {p p' : Proposal} (before : Reached p) {nowMs : ℤ}
      (went : p.contest nowMs = some p') : Reached p'
  | extended {p : Proposal} (before : Reached p) (extensionMs : ℤ) :
      Reached (p.extendByVeto extensionMs)
  | concerned {p : Proposal} (before : Reached p) (quorum : ℕ) : Reached (p.raiseConcern quorum)
  | vetoed {p p' : Proposal} (before : Reached p) (went : p.veto = some p') : Reached p'
  | executed {p : Proposal} (before : Reached p) : Reached { p with status := .executed }

/-- The rules stay those of the opening, and only a contest moves the voting window. -/
structure Proposal.Windowed (p : Proposal) : Prop where
  governed : p.rules.Governed
  time : -2 ^ 63 ≤ p.createdMs ∧ p.createdMs < 2 ^ 63
  window : p.track ≠ .ratify →
    p.votingEndsMs = clampSigned (p.createdMs + p.track.votingPeriodMs p.rules)

section
variable {p p' : Proposal}

theorem Proposal.Windowed.of_same (windowed : p.Windowed) (rules : p'.rules = p.rules)
    (created : p'.createdMs = p.createdMs) (track : p'.track = p.track)
    (ends : p'.votingEndsMs = p.votingEndsMs) : p'.Windowed where
  governed := rules ▸ windowed.governed
  time := created ▸ windowed.time
  window direct := by
    rw [track] at direct
    rw [ends, created, track, rules]
    exact windowed.window direct

theorem Proposal.Reached.windowed (reached : p.Reached) : p.Windowed := by
  induction reached with
  | opened action time governed => exact ⟨governed, time, fun _ => rfl⟩
  | queued before went ih =>
    unfold Proposal.queue at went
    rw [if_neg (by simp)] at went
    rw [← Option.some.inj went]
    exact ih.of_same rfl rfl rfl rfl
  | contested before went ih =>
    unfold Proposal.contest at went
    split_ifs at went
    rw [← Option.some.inj went]
    exact ⟨ih.governed, ih.time, fun direct => absurd rfl direct⟩
  | extended before extensionMs ih =>
    unfold Proposal.extendByVeto
    simp only
    split_ifs <;> exact ih.of_same rfl rfl rfl rfl
  | concerned before quorum ih =>
    unfold Proposal.raiseConcern
    simp only
    split_ifs <;> exact ih.of_same rfl rfl rfl rfl
  | vetoed before went ih =>
    unfold Proposal.veto at went
    split_ifs at went
    rw [← Option.some.inj went]
    exact ih.of_same rfl rfl rfl rfl
  | executed before ih => exact ih.of_same rfl rfl rfl rfl

end

end Tenzro.Governance
