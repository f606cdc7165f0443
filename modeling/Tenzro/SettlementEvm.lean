import Tenzro.FixedWidth
import Tenzro.SettlementLegs

set_option autoImplicit false
set_option linter.dupNamespace false

/-!
# The settlement lock on EVM chains

A token or a payee that is called may call back before it returns, and a call that fails undoes
what happened inside it. The calls in progress are kept as frames, each with the state to go back to.
-/
namespace Tenzro.Settlement
open ByteCodec ProofVerifiers Outcome Function List

/-! ### The contract -/

abbrev Address := Bytes

/-- The native coin, as a token. -/
def zeroAddress : Address := replicate 20 0

structure Lock where
  payer : Address
  recipient : Address
  token : Address
  escapeAt : ℕ
  state : UInt8
  amount : ℕ
deriving DecidableEq, Repr

/-- What a mapping holds where nothing was written. -/
def Lock.unset : Lock := ⟨zeroAddress, zeroAddress, zeroAddress, 0, 0, 0⟩

def lockedState : UInt8 := 1

def releasedState : UInt8 := 2

def refundedState : UInt8 := 3

/-- The contract's storage, what it holds of each token, and what it recorded and paid. -/
structure LockContract where
  locks : Word → Lock
  reconAcc : Word
  reconCount : ℕ
  held : Address → ℕ
  entries : List Entry
  paid : List (Payout Address Address)

inductive LockRevert where
  | alreadyLocked
  | notLocked
  | badAmount
  | unknownCheckpoint
  | badDecision
  | badStateProof
  | tooEarly
  | overflow
deriving DecidableEq, Repr

/-- The contract's own address and its horizon. -/
structure LockParams where
  self : Address
  escapeHorizon : ℕ
deriving DecidableEq, Repr

structure LockCall where
  now : ℕ
  sender : Address
  plan : Word
  index : UInt8
  token : Address
  amount : ℕ
  value : ℕ
  recipient : Address
deriving DecidableEq, Repr

def packedEntry (acc planId id : Word) (kind : UInt8) (amount : ℕ) : Bytes :=
  utf8 "tenzro/settlement/recon/v1" ++ acc.1 ++ planId.1 ++ id.1 ++ [kind] ++ beBytes 32 amount

def evmDigits : Bytes := utf8 "0123456789abcdef"

def evmHexPair (byte : UInt8) : Bytes :=
  [evmDigits.getD (byte >>> 4).toNat 0, evmDigits.getD (byte &&& 15).toNat 0]

section
variable [SchemeHash]

def evmLegId (planId : Word) (index : UInt8) : Word :=
  sha (utf8 "tenzro/plan/leg/v1" ++ planId.1 ++ [index])

def evmDecisionTreeKey (planId : Word) : Word :=
  let key := utf8 "decision:" ++ planId.1.flatMap evmHexPair
  sha (utf8 "tenzro.state-trie.key" ++ [5, 0] ++ utf8 "state" ++
    utf8 "storage:ffffffffffffffffffffffffffffffffffffffff:" ++ key.flatMap evmHexPair)

namespace LockContract
variable (s : LockContract) (params : LockParams)

def record (planId id : Word) (kind : UInt8) (amount : ℕ) : LockContract :=
  { s with
    reconAcc := sha (packedEntry s.reconAcc planId id kind amount)
    reconCount := s.reconCount + 1
    entries := s.entries ++ [⟨planId, id, kind, amount⟩] }

def checkLock (c : LockCall) : Except LockRevert Unit := do
  ensure ((s.locks (evmLegId c.plan c.index)).state = 0) LockRevert.alreadyLocked
  ensure (c.amount ≠ 0) LockRevert.badAmount
  if c.token = zeroAddress then ensure (c.value = c.amount) LockRevert.badAmount
  else ensure (c.value = 0) LockRevert.badAmount

def completeLock (c : LockCall) : Except LockRevert LockContract := do
  let escapeAt := c.now % 2 ^ 64 + params.escapeHorizon
  ensure (escapeAt < 2 ^ 64) LockRevert.overflow
  let id := evmLegId c.plan c.index
  let l : Lock := ⟨c.sender, c.recipient, c.token, escapeAt, lockedState, c.amount⟩
  let s := { s with locks := update s.locks id l }
  return s.record c.plan id lockedState c.amount

/-- A leg's new state and entry; its payment follows. -/
def moveLock (planId id : Word) (l : Lock) (state : UInt8) : LockContract :=
  let s := { s with locks := update s.locks id { l with state } }
  s.record planId id state l.amount

def settle (roots : ℕ → Word) (planId : Word) (index : UInt8) (tenzroCheckpoint : ℕ)
    (decision proof : Bytes) : Except LockRevert (LockContract × Payout Address Address) := do
  let id := evmLegId planId index
  let l := s.locks id
  ensure (l.state = lockedState) LockRevert.notLocked
  let root := roots tenzroCheckpoint
  ensure (root ≠ ProofVerifiers.empty) LockRevert.unknownCheckpoint
  ensure (¬(decision.length ≠ 42 ∨ decision.getD 0 0 ≠ 1)) LockRevert.badDecision
  ensure ((decision.drop 10).take 32 = planId.1) LockRevert.badDecision
  let outcome := decision.getD 1 0
  ensure (¬(outcome ≠ 1 ∧ outcome ≠ 2)) LockRevert.badDecision
  ensure (TenzroStateProof.verifyAt root (evmDecisionTreeKey planId) true decision proof)
    LockRevert.badStateProof
  let cause := Cause.proven root decision proof
  if outcome = 1 then
    return (s.moveLock planId id l releasedState,
      ⟨planId, id, l.recipient, l.token, l.amount, cause⟩)
  else
    return (s.moveLock planId id l refundedState, ⟨planId, id, l.payer, l.token, l.amount, cause⟩)

def escape (now : ℕ) (planId : Word) (index : UInt8) :
    Except LockRevert (LockContract × Payout Address Address) := do
  let id := evmLegId planId index
  let l := s.locks id
  ensure (l.state = lockedState) LockRevert.notLocked
  ensure (¬ now < l.escapeAt) LockRevert.tooEarly
  return (s.moveLock planId id l refundedState,
    ⟨planId, id, l.payer, l.token, l.amount, .escaped now⟩)

def receive (token : Address) (amount : ℕ) : LockContract :=
  { s with held := update s.held token (s.held token + amount) }

def pay (p : Payout Address Address) : LockContract :=
  { s with
    held := if p.dest = params.self then s.held
      else update s.held p.asset (s.held p.asset - p.amount)
    paid := s.paid ++ [p] }

end LockContract

/-! ### Calls in progress -/

/-- What a call of the contract waits for. -/
inductive Awaited where
  | tokens (c : LockCall)
  | payment (p : Payout Address Address)
deriving DecidableEq, Repr

/-- An outer call that is waiting: the state it undoes to, and whether the tokens moved. -/
structure Frame where
  before : LockContract
  awaited : Awaited
  moved : Bool

/-- The contract, and the calls in progress, innermost first. -/
structure LockRun where
  state : LockContract
  frames : List Frame

inductive LockAction where
  | lock (c : LockCall)
  | settle (roots : ℕ → Word) (plan : Word) (index : UInt8) (tenzroCheckpoint : ℕ)
    (decision proof : Bytes)
  | escape (now : ℕ) (plan : Word) (index : UInt8)
  /-- The token moves what the innermost call asked for. -/
  | transferred
  /-- What the innermost call waits for returns, or fails. -/
  | returned (ok : Bool)
  /-- Someone sends the contract tokens. -/
  | deposited (token : Address) (amount : ℕ)

namespace LockRun
variable (params : LockParams) (r : LockRun)

/-- A call that fails is undone, and its caller goes on. -/
def undo : LockRun :=
  match r.frames with
  | [] => r
  | f :: rest => ⟨f.before, rest⟩

def startLock (c : LockCall) : LockRun :=
  match r.state.checkLock c with
  | .error _ => r
  | .ok _ =>
    if c.token = zeroAddress then
      match (r.state.receive c.token c.amount).completeLock params c with
      | .error _ => r
      | .ok s => ⟨s, r.frames⟩
    else ⟨r.state, ⟨r.state, .tokens c, false⟩ :: r.frames⟩

def startPayment : Except LockRevert (LockContract × Payout Address Address) → LockRun
  | .error _ => r
  | .ok (s, p) => ⟨s, ⟨r.state, .payment p, false⟩ :: r.frames⟩

def transfer : LockRun :=
  match r.frames with
  | ⟨before, .tokens c, false⟩ :: rest =>
    ⟨r.state.receive c.token c.amount, ⟨before, .tokens c, true⟩ :: rest⟩
  | ⟨before, .payment p, false⟩ :: rest =>
    ⟨r.state.pay params p, ⟨before, .payment p, true⟩ :: rest⟩
  | _ => r

def finish (ok : Bool) : LockRun :=
  match r.frames with
  | ⟨before, .tokens c, true⟩ :: rest =>
    if ok then
      match r.state.completeLock params c with
      | .error _ => ⟨before, rest⟩
      | .ok s => ⟨s, rest⟩
    else ⟨before, rest⟩
  | ⟨before, .payment _, true⟩ :: rest => if ok then ⟨r.state, rest⟩ else ⟨before, rest⟩
  | _ => r.undo

def apply : LockAction → LockRun
  | .lock c => r.startLock params c
  | .settle roots plan index tenzroCheckpoint decision proof =>
    r.startPayment (r.state.settle roots plan index tenzroCheckpoint decision proof)
  | .escape now plan index => r.startPayment (r.state.escape now plan index)
  | .transferred => r.transfer params
  | .returned ok => r.finish params ok
  | .deposited token amount => ⟨r.state.receive token amount, r.frames⟩

def start : LockRun := ⟨⟨fun _ => Lock.unset, ProofVerifiers.empty, 0, fun _ => 0, [], []⟩, []⟩

def run : LockRun → List LockAction → LockRun
  | r, [] => r
  | r, a :: rest => run (r.apply params a) rest

def Along (p : LockRun → LockAction → Prop) : LockRun → List LockAction → Prop
  | _, [] => True
  | r, a :: rest => p r a ∧ Along p (r.apply params a) rest

end LockRun

def LockAction.Fits : LockAction → Prop
  | .lock c => c.amount < 2 ^ 128
  | _ => True

def Undisturbed (r : LockRun) : LockAction → Prop
  | .returned _ => ∀ before c rest, r.frames = ⟨before, .tokens c, true⟩ :: rest →
    (r.state.locks (evmLegId c.plan c.index)).state = 0
  | _ => True

end

/-! ### Against the machine -/

def Lock.leg (l : Lock) : Option (Leg Address Address) :=
  let terms : Terms Address Address := ⟨l.payer, l.recipient, l.token, l.amount, l.escapeAt⟩
  if l.state = 0 then none
  else if l.state = lockedState then some ⟨terms, .locked⟩
  else if l.state = releasedState then some ⟨terms, .released⟩
  else some ⟨terms, .refunded⟩

def LockContract.legs (s : LockContract) (id : Word) : Option (Leg Address Address) :=
  (s.locks id).leg

def Frame.owed : Frame → List (Payout Address Address)
  | ⟨_, .payment p, false⟩ => [p]
  | _ => []

/-- What of a token a call in progress is still to pay out or to record. -/
def Frame.reserved (token : Address) : Frame → ℕ
  | ⟨_, .payment p, false⟩ => if p.asset = token then p.amount else 0
  | ⟨_, .tokens c, true⟩ => if c.token = token then c.amount else 0
  | _ => 0

def Frame.small : Frame → Prop
  | ⟨_, .tokens c, _⟩ => c.amount < 2 ^ 128
  | _ => True

def owed (frames : List Frame) : List (Payout Address Address) := frames.flatMap Frame.owed

def reserved (frames : List Frame) (token : Address) : ℕ :=
  (frames.map (Frame.reserved token)).sum

theorem leBytes_zero (w : ℕ) : leBytes w 0 = replicate w 0 := by
  induction w with
  | zero => rfl
  | succ w ih =>
    unfold leBytes
    rw [ih]
    rfl

theorem leBytes_wide {w j n : ℕ} (fits : n < 256 ^ w) :
    leBytes (w + j) n = leBytes w n ++ replicate j 0 := by
  induction w generalizing n with
  | zero =>
    have nothing : n = 0 := by
      rw [pow_zero] at fits
      omega
    rw [nothing, Nat.zero_add]
    exact leBytes_zero j
  | succ w ih =>
    have rest : n / 256 < 256 ^ w := by
      rw [Nat.div_lt_iff_lt_mul (by decide), ← pow_succ]
      exact fits
    rw [Nat.add_right_comm]
    unfold leBytes
    rw [ih rest]
    rfl

section
variable [SchemeHash]

/-- The contract is where a machine can be, with what its calls in progress are owed. -/
structure Refines (s : LockContract) (frames : List Frame) : Prop where
  machine : ∃ m : Machine Address Address, Reach m ∧ m.legs = s.legs ∧ m.entries = s.entries ∧
    (s.paid ++ owed frames).Perm m.payouts
  covered : ∃ free : Address → ℕ, Covered s.legs free ∧
    ∀ token, free token + reserved frames token ≤ s.held token
  acc : s.reconAcc = accumulate s.entries
  count : s.reconCount = s.entries.length
  small : ∀ id, (s.locks id).amount < 2 ^ 128
  frames : ∀ f ∈ frames, f.small

/-- So is every state a call in progress may go back to. -/
def Undoable : List Frame → Prop
  | [] => True
  | f :: rest => Refines f.before rest ∧ Undoable rest

omit [SchemeHash] in
theorem packedEntry_eq {acc planId id : Word} {kind : UInt8} {amount : ℕ}
    (small : amount < 2 ^ 128) :
    packedEntry acc planId id kind amount = reconBytes acc planId id kind amount := by
  have zeros : beBytes 32 amount = replicate 16 0 ++ beBytes 16 amount := by
    unfold beBytes
    rw [leBytes_wide (w := 16) (j := 16) (by omega), reverse_append, reverse_replicate]
  unfold packedEntry reconBytes reconDomain
  rw [zeros, append_assoc (_ ++ [kind])]

end

end Tenzro.Settlement
