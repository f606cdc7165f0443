import Tenzro.FixedWidth

set_option autoImplicit false

/-!
# Outflow limits of an account

An account caps what leaves it in a window; anything larger is queued as a
release that unlocks after a hold.
-/
namespace Tenzro
open FixedWidth Function

abbrev AccountBytes := List UInt8

namespace AccountOutflow

structure Pending where
  windowMs : ℕ
  cap : ℕ
  holdMs : ℕ
  guardian : Option String
  remove : Bool
  effectiveMs : ℤ
deriving DecidableEq, Repr

structure Policy where
  windowMs : ℕ
  cap : ℕ
  holdMs : ℕ
  guardian : Option String
  pending : Option Pending
deriving DecidableEq, Repr

structure Release where
  recipient : AccountBytes
  amount : ℕ
  unlockMs : ℤ
deriving DecidableEq, Repr

/-- What was counted since the window opened. -/
structure Window where
  start : ℤ
  spent : ℕ
deriving DecidableEq, Repr

/-- The next release id and how many are open. -/
structure ReleaseMeta where
  next : ℕ := 0
  opened : ℕ := 0
deriving DecidableEq, Repr

structure Params where
  minHoldMs : ℕ
  minWindowMs : ℕ
  maxReleases : ℕ
deriving DecidableEq, Repr

/-- The records under the system address, the governed parameters and the balances. -/
structure State where
  policies : AccountBytes → Option Policy
  windows : AccountBytes → Option Window
  releases : AccountBytes → ℕ → Option Release
  metas : AccountBytes → Option ReleaseMeta
  steps : AccountBytes → ℕ
  params : Params
  balances : AccountBytes → ℕ

/-- The part of a root approval the operations read themselves. -/
structure Approval where
  account : AccountBytes
  inBounds : Bool
  assertion : List UInt8
deriving DecidableEq, Repr

inductive Op where
  | set (account : AccountBytes) (windowMs cap holdMs : ℕ) (guardian : Option String)
  | remove (account : AccountBytes)
  | cancelPending (account : AccountBytes) (approval : Option Approval)
  | requestRelease (account recipient : AccountBytes) (amount : ℕ)
  | cancelRelease (account : AccountBytes) (id : ℕ) (approval : Option Approval)
  | claimRelease (account : AccountBytes) (id : ℕ) (approval : Option Approval)
deriving DecidableEq, Repr

/-- What an approval signs: the account, the action, the release and the approval counter. -/
structure ApprovalTarget where
  account : AccountBytes
  action : String
  id : ℕ
  step : ℕ
deriving DecidableEq, Repr

/-- The check of a human identity's passkey, made outside this component. -/
class RootApproval where
  verify : State → String → ApprovalTarget → Approval → ℕ → Bool

def humanDidPrefix : String := "did:tenzro:human:"

def Op.account : Op → AccountBytes
  | .set account .. => account
  | .remove account => account
  | .cancelPending account _ => account
  | .requestRelease account .. => account
  | .cancelRelease account .. => account
  | .claimRelease account .. => account

def Op.approval : Op → Option Approval
  | .cancelPending _ approval => approval
  | .cancelRelease _ _ approval => approval
  | .claimRelease _ _ approval => approval
  | _ => none

def refuse {α : Type} (msg : String) : Except String α := .error ("account outflow: " ++ msg)

def Pending.policy (q : Pending) : Policy :=
  { windowMs := q.windowMs, cap := q.cap, holdMs := q.holdMs, guardian := q.guardian,
    pending := none }

def policyInForce (s : State) (account : AccountBytes) (now : ℤ) : Option Policy :=
  match s.policies account with
  | none => none
  | some p =>
    match p.pending with
    | none => some p
    | some q =>
      if q.effectiveMs ≤ now then
        if q.remove then none else some q.policy
      else some p

def after (now : ℤ) (ms : ℕ) : ℤ := wrapSigned 64 (now + wrapSigned 64 ms)

def windowAt (w : Option Window) (p : Policy) (now : ℤ) : Window :=
  let w := w.getD ⟨now, 0⟩
  if now < w.start ∨ wrapSigned 64 p.windowMs ≤ wrapSigned 64 (now - w.start) then ⟨now, 0⟩
  else w

def chargeOutflow (s : State) (account : AccountBytes) (amount : ℕ) (now : ℤ) :
    Except String State :=
  match policyInForce s account now with
  | none => .ok s
  | some p =>
    let w := windowAt (s.windows account) p now
    let total := saturatingAdd 128 w.spent amount
    if p.cap < total then
      .error s!"{amount} would take the window's outflow to {total}, past the account's cap of {p.cap}"
    else
      .ok { s with windows := update s.windows account (some ⟨w.start, total⟩) }

def looser (cur new : Policy) : Bool :=
  saturatingMul 128 cur.cap new.windowMs < saturatingMul 128 new.cap cur.windowMs ||
    new.holdMs < cur.holdMs || new.guardian ≠ cur.guardian

namespace State

def setPolicy (s : State) (account : AccountBytes) (p : Policy) : State :=
  { s with policies := update s.policies account (some p) }

def setRelease (s : State) (account : AccountBytes) (id : ℕ) (r : Option Release) : State :=
  let own := update (s.releases account) id r
  { s with releases := update s.releases account own }

def setMeta (s : State) (account : AccountBytes) (m : ReleaseMeta) : State :=
  { s with metas := update s.metas account (some m) }

def setBalance (s : State) (account : AccountBytes) (amount : ℕ) : State :=
  { s with balances := update s.balances account amount }

/-- Moves the approval counter, so that an approval is used once. -/
def moveStep (s : State) (account : AccountBytes) : State :=
  { s with steps := update s.steps account (wrappingAdd 64 (s.steps account) 1) }

end State

def verifyGuardian [RootApproval] (s : State) (account : AccountBytes) (guardianDid action : String)
    (id : ℕ) (approval : Option Approval) (now : ℤ) : Except String State :=
  match approval with
  | none => refuse "the account's guardian must approve this with its passkey"
  | some approval =>
    if !approval.inBounds then refuse "the approval is out of bounds"
    else if approval.account ≠ account then refuse "the approval names another account"
    else if RootApproval.verify s guardianDid ⟨account, action, id, s.steps account⟩ approval
        now.toNat then
      .ok (s.moveStep account)
    else refuse "the guardian's approval is refused"

def applySet (s : State) (owner : Bool) (account : AccountBytes) (windowMs cap holdMs : ℕ)
    (newGuardian : Option String) (now : ℤ) : Except String State :=
  if !owner then refuse "only the account sets its own policy"
  else if cap = 0 then refuse "a cap of zero would lock the account"
  else if windowMs < s.params.minWindowMs then
    refuse "the window is shorter than the governed floor"
  else if holdMs < s.params.minHoldMs then refuse "the hold is shorter than the governed floor"
  else if newGuardian.any (fun g => !g.startsWith humanDidPrefix) then
    refuse "the guardian is a human identity (did:tenzro:human:...)"
  else
    let new : Policy := ⟨windowMs, cap, holdMs, newGuardian, none⟩
    match policyInForce s account now with
    | none => .ok (s.setPolicy account new)
    | some cur =>
      if looser cur new then
        .ok (s.setPolicy account { cur with
          pending := some ⟨windowMs, cap, holdMs, newGuardian, false, after now cur.holdMs⟩ })
      else .ok (s.setPolicy account new)

def applyRemove (s : State) (owner : Bool) (account : AccountBytes) (now : ℤ) :
    Except String State :=
  if !owner then refuse "only the account removes its own policy"
  else
    match policyInForce s account now with
    | none => refuse "the account has no policy"
    | some cur => .ok (s.setPolicy account { cur with
        pending := some ⟨cur.windowMs, cur.cap, cur.holdMs, cur.guardian, true,
          after now cur.holdMs⟩ })

def applyCancelPending [RootApproval] (s : State) (owner : Bool) (account : AccountBytes)
    (approval : Option Approval) (now : ℤ) : Except String State :=
  match policyInForce s account now with
  | none => refuse "the account has no policy"
  | some cur => do
    let s ← match cur.guardian with
      | some g => verifyGuardian s account g "cancel_pending" 0 approval now
      | none => if owner then pure s else refuse "only the account cancels"
    if cur.pending.isNone then refuse "nothing is queued"
    else pure (s.setPolicy account { cur with pending := none })

def applyRequestRelease (s : State) (owner : Bool) (account recipient : AccountBytes) (amount : ℕ)
    (now : ℤ) : Except String State :=
  if !owner then refuse "only the account requests a release"
  else
    match policyInForce s account now with
    | none => refuse "the account has no policy"
    | some cur =>
      if amount = 0 ∨ recipient = [] then refuse "a release names a recipient and an amount"
      else
        let m := (s.metas account).getD {}
        if s.params.maxReleases ≤ m.opened then refuse "too many releases are open"
        else
          let s := s.setRelease account m.next (some ⟨recipient, amount, after now cur.holdMs⟩)
          .ok (s.setMeta account ⟨wrappingAdd 64 m.next 1, wrappingAdd 32 m.opened 1⟩)

def authorizeRelease [RootApproval] (s : State) (sender account : AccountBytes) (claim : Bool)
    (id : ℕ) (rel : Release) (approval : Option Approval) (now : ℤ) : Except String State :=
  match (policyInForce s account now).bind Policy.guardian with
  | some g =>
    -- the owner's key alone claims once the hold has run out
    if claim ∧ sender = account ∧ approval = none ∧ rel.unlockMs ≤ now then .ok s
    else
      verifyGuardian s account g (if claim then "claim_release" else "cancel_release") id approval
        now
  | none =>
    if sender ≠ account then refuse "only the account acts on its release"
    else if claim ∧ now < rel.unlockMs then refuse "the release has not unlocked"
    else .ok s

/-- Both balances are read before either is written. -/
def payRelease (s : State) (account : AccountBytes) (rel : Release) : Except String State :=
  let bal := s.balances account
  if bal < rel.amount then refuse "the account does not hold the amount"
  else
    let toBal := s.balances rel.recipient
    .ok ((s.setBalance account (bal - rel.amount)).setBalance rel.recipient
      (wrappingAdd 128 toBal rel.amount))

def closeRelease (s : State) (account : AccountBytes) (id : ℕ) : State :=
  let s := s.setRelease account id none
  match s.metas account with
  | none => s
  | some m => s.setMeta account { m with opened := m.opened - 1 }

/-- `CancelRelease` and `ClaimRelease`. -/
def applyRelease [RootApproval] (s : State) (sender account : AccountBytes) (claim : Bool) (id : ℕ)
    (approval : Option Approval) (now : ℤ) : Except String State :=
  match s.releases account id with
  | none => refuse "no such release"
  | some rel => do
    let s ← authorizeRelease s sender account claim id rel approval now
    let s ← (if claim then payRelease s account rel else .ok s)
    pure (closeRelease s account id)

def apply [RootApproval] (s : State) (sender : AccountBytes) (op : Op) (now : ℤ) :
    Except String State :=
  let owner : Bool := sender = op.account
  match op with
  | .set account windowMs cap holdMs guardian =>
    applySet s owner account windowMs cap holdMs guardian now
  | .remove account => applyRemove s owner account now
  | .cancelPending account approval => applyCancelPending s owner account approval now
  | .requestRelease account recipient amount =>
    applyRequestRelease s owner account recipient amount now
  | .cancelRelease account id approval => applyRelease s sender account false id approval now
  | .claimRelease account id approval => applyRelease s sender account true id approval now

/-- What moves value out of an account, as it happens. -/
inductive Effect where
  | admitted (account : AccountBytes) (amount : ℕ)
  | requested (account : AccountBytes) (id : ℕ)
  | claimed (account : AccountBytes) (id amount : ℕ)
deriving DecidableEq, Repr

/-- What running an ordinary transaction leaves behind. -/
structure Dispatched where
  balances : AccountBytes → ℕ
  params : Params

/-- A transaction, with what its own code does where it is an ordinary one: the sender, the
signers of its delegations and the result of the run. -/
inductive Transaction where
  | outflow (sender : AccountBytes) (op : Op)
  | ordinary (sender : AccountBytes) (signers : List AccountBytes) (ran : Dispatched)

/-- The accounts with a policy in force, each with its balance before the run. -/
def watched (s : State) (who : List AccountBytes) (now : ℤ) : List (AccountBytes × ℕ) :=
  (who.filter fun w => (policyInForce s w now).isSome).map fun w => (w, s.balances w)

def chargeWatched (now : ℤ) : List (AccountBytes × ℕ) → State → Except String (State × List Effect)
  | [], s => .ok (s, [])
  | (who, before) :: rest, s =>
    if s.balances who < before then do
      let charged ← chargeOutflow s who (before - s.balances who) now
      let (s', effects) ← chargeWatched now rest charged
      pure (s', .admitted who (before - s.balances who) :: effects)
    else chargeWatched now rest s

def executeChecked (s : State) (sender : AccountBytes) (signers : List AccountBytes)
    (ran : Dispatched) (now : ℤ) : Except String (State × List Effect) :=
  let who := (sender :: signers).destutter (· ≠ ·)
  chargeWatched now (watched s who now) { s with balances := ran.balances, params := ran.params }

def Op.effects (s : State) : Op → List Effect
  | .requestRelease account _ _ => [.requested account ((s.metas account).getD {}).next]
  | .claimRelease account id _ =>
    ((s.releases account id).map fun rel => Effect.claimed account id rel.amount).toList
  | _ => []

def execute [RootApproval] (s : State) (tx : Transaction) (now : ℤ) :
    Except String (State × List Effect) :=
  match tx with
  | .outflow sender op => do pure (← apply s sender op now, op.effects s)
  | .ordinary sender signers ran => executeChecked s sender signers ran now

def step [RootApproval] (s : State) (x : ℤ × Transaction) : State × List Effect :=
  match execute s x.2 x.1 with
  | .ok r => r
  | .error _ => (s, [])

def run [RootApproval] : State → List (ℤ × Transaction) → State × List Effect
  | s, [] => (s, [])
  | s, x :: rest =>
    let (s, effects) := step s x
    let (s, later) := run s rest
    (s, effects ++ later)

/-- What left the account through charges and through releases that were requested before,
among the given ids or the effects, and claimed. -/
def drained (account : AccountBytes) : List ℕ → List Effect → ℕ
  | _, [] => 0
  | ids, .admitted who amount :: rest =>
    (if who = account then amount else 0) + drained account ids rest
  | ids, .requested who id :: rest =>
    drained account (if who = account then id :: ids else ids) rest
  | ids, .claimed who id amount :: rest =>
    (if who = account ∧ id ∈ ids then amount else 0) + drained account ids rest

end AccountOutflow
end Tenzro
