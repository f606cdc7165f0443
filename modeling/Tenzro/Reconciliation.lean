import Tenzro.SettlementEvm
import Tenzro.SettlementPlans

set_option autoImplicit false
set_option linter.dupNamespace false

/-!
# Reconciliation of a settlement lock

The entries a lock recorded since the last reconciliation are folded from the stored hash to the
checkpoint its route proved, and each is checked once against the plans and decisions of that moment.
-/
namespace Tenzro.Settlement
open ByteCodec ProofVerifiers Outcome Function
open Bridge (BridgeRouteAdapter BridgeRouteMode toAsciiLower)

inductive ReconKind where
  | locked
  | released
  | refunded
deriving DecidableEq, Repr

def ReconKind.byte : ReconKind → UInt8
  | locked => reconLocked
  | released => reconReleased
  | refunded => reconRefunded

structure ReconEntry where
  planId : Word
  legId : Word
  kind : ReconKind
  amount : ℕ
deriving DecidableEq, Repr

abbrev Route := BridgeRouteAdapter × String

structure ReconState where
  count : ℕ
  acc : Word
  checkpointDigest : Bytes
  atMs : ℕ
  mismatches : List ℕ
deriving DecidableEq, Repr

def ReconState.fresh : ReconState := ⟨0, ProofVerifiers.empty, List.replicate 32 0, 0, []⟩

structure ReconMismatch where
  route : Route
  position : ℕ
  accBefore : Word
  entry : ReconEntry
  reason : String
  checkpointDigest : Bytes
  submittedBy : Bytes
  atMs : ℕ
  attested : Bool
  harmed : Option Bytes
  loss : ℕ
deriving DecidableEq, Repr

inductive BridgeCircuitAuthority where
  | validators
  | governance
  | reconciliation
deriving DecidableEq, Repr

structure BridgeCircuitTrip where
  mode : BridgeRouteMode
  authority : BridgeCircuitAuthority
  reason : String
  epoch : ℕ
  atMs : ℕ
deriving DecidableEq, Repr

structure AttestorSlash where
  route : Route
  account : Bytes
  bps : ℕ
deriving DecidableEq, Repr

/-- The plans, and what reconciliations left. -/
structure ReconBooks where
  plans : Plans
  recon : Route → Option ReconState
  mismatches : Route → ℕ → Option ReconMismatch
  stops : Route → Option BridgeCircuitTrip
  slashed : List AttestorSlash

/-- The keys of a route's committees. -/
structure RouteCommittees where
  verifiers : List Bytes
  blessing : List Bytes
deriving DecidableEq, Repr

structure ReconView where
  nowMs : ℕ
  epoch : ℕ
  /-- The lock's count and hash the route proved, and whether by its committee alone. -/
  proven : Option (ℕ × Word × Bytes × Bool)
  resolve : String → Option Bytes
  toWei : ℕ → ℕ
  committees : Option RouteCommittees
  slashBps : ℕ
  slashes : Bytes → Bool
  pays : Bool

inductive ReconError where
  | batchSize
  | unproven
  | count
  | fold
  | refused
deriving DecidableEq, Repr

structure ReconCall where
  adapter : BridgeRouteAdapter
  chain : String
  entries : List ReconEntry
  sender : Bytes
deriving DecidableEq, Repr

def ReconCall.route (call : ReconCall) : Route := (call.adapter, toAsciiLower call.chain)

def maxReconEntries : ℕ := 512

def recipients (resolve : String → Option Bytes) (split : List SplitLine) (submitter : Bytes) :
    Option (List Bytes) :=
  split.mapM fun line =>
    match line.recipient with
    | .address a => some a
    | .legSubmitter => some submitter
    | .didDerived did => resolve did

def planPayee (resolve : String → Option Bytes) (plan : SettlementPlan) : Option Bytes :=
  match plan.split.findIdx? fun l => l.role = .payee with
  | none => none
  | some index =>
    if (plan.split[index]?).map SplitLine.recipient = some .legSubmitter then none
    else (recipients resolve plan.split plan.openedBy).bind fun r => r[index]?

/-- A mismatch disables the route, unless it is paused or disabled already. -/
def trip (stops : Route → Option BridgeCircuitTrip) (route : Route) (t : BridgeCircuitTrip) :
    Route → Option BridgeCircuitTrip :=
  let stopped := (stops route).any fun e => decide (e.mode = .paused ∨ e.mode = t.mode)
  if t.authority ≠ .governance ∧ stopped then stops else update stops route (some t)

section
variable [SchemeHash]

def ReconEntry.fold (acc : Word) (e : ReconEntry) : Word :=
  reconStep acc e.planId e.legId e.kind.byte e.amount

def planLeg (plan : SettlementPlan) (id : Word) : Option PlanLeg :=
  match (List.range plan.legs.length).find? fun i => legId plan.planId (UInt8.ofNat i) = id with
  | none => none
  | some index => plan.legs[index]?

/-- Why an entry disagrees with the books, if it does, and whom it cost what. -/
def disagreement (v : ReconView) (plans : Plans) (route : Route) (e : ReconEntry) :
    Option (String × Option (Bytes × ℕ)) :=
  match plans e.planId with
  | none => some ("no such plan", none)
  | some plan =>
    match planLeg plan e.legId with
    | none => some ("the plan has no such leg", none)
    | some ⟨.remoteLock a c amount, _, usdE6⟩ =>
      if a ≠ route.1 ∨ toAsciiLower c ≠ route.2 then some ("the leg is on another route", none)
      else if amount ≠ e.amount then
        some (s!"the leg is of {amount}, the lock recorded {e.amount}", none)
      else
        match e.kind, plan.decision.map PlanDecision.commit with
        | .locked, _ => none
        | .released, some true => none
        | .released, _ => some ("released without the plan's commit", some (plan.openedBy, usdE6))
        | .refunded, some true =>
          some ("refunded although the plan committed",
            (planPayee v.resolve plan).map fun p => (p, usdE6))
        | .refunded, _ => none
    | some _ => some ("the leg is not a lock leg", none)

def mismatchesFrom (v : ReconView) (plans : Plans) (call : ReconCall) (digest : Bytes)
    (attested : Bool) : ℕ → Word → List ReconEntry → List ReconMismatch
  | _, _, [] => []
  | position, acc, e :: rest =>
    let later := mismatchesFrom v plans call digest attested (position + 1) (e.fold acc) rest
    match disagreement v plans call.route e with
    | none => later
    | some (reason, cost) =>
      ⟨call.route, position + 1, acc, e, reason, digest, call.sender, v.nowMs, attested,
        cost.map Prod.fst, (cost.map fun c => v.toWei c.2).getD 0⟩ :: later

def slashCommittee (v : ReconView) (books : ReconBooks) (route : Route) :
    Except ReconError ReconBooks :=
  match v.committees with
  | none => .ok books
  | some c => do
    let members := (c.verifiers ++ c.blessing).dedup
    ensure (members.all v.slashes) ReconError.refused
    let bps := min v.slashBps 10000
    return { books with slashed := books.slashed ++ members.map fun m => ⟨route, m, bps⟩ }

def writeMismatch (mismatches : Route → ℕ → Option ReconMismatch) (m : ReconMismatch) :
    Route → ℕ → Option ReconMismatch :=
  update mismatches m.route (update (mismatches m.route) m.position (some m))

def accuse (v : ReconView) (books : ReconBooks) (route : Route) (found : ℕ) (attested : Bool) :
    Except ReconError ReconBooks :=
  if found = 0 then .ok books
  else
    let stop : BridgeCircuitTrip := ⟨.disabled, .reconciliation,
      s!"{found} reconciliation mismatch(es) of the settlement lock", v.epoch, v.nowMs⟩
    let books := { books with stops := trip books.stops route stop }
    if attested then slashCommittee v books route else .ok books

/-- Checks the entries against the proven checkpoint and records the result. -/
def applyRecon (v : ReconView) (books : ReconBooks) (call : ReconCall) (count : ℕ) (acc : Word)
    (digest : Bytes) (attested : Bool) : Except ReconError ReconBooks := do
  let route := call.route
  let rec_ := (books.recon route).getD ReconState.fresh
  ensure (count = rec_.count + call.entries.length) ReconError.count
  ensure (call.entries.foldl ReconEntry.fold rec_.acc = acc) ReconError.fold
  let found := mismatchesFrom v books.plans call digest attested rec_.count rec_.acc call.entries
  let next : ReconState :=
    ⟨count, acc, digest, v.nowMs, rec_.mismatches ++ found.map ReconMismatch.position⟩
  let books := { books with
    recon := update books.recon route (some next)
    mismatches := found.foldl writeMismatch books.mismatches }
  let books ← accuse v books route found.length attested
  ensure v.pays ReconError.refused
  return books

def reconcile (v : ReconView) (books : ReconBooks) (call : ReconCall) :
    Except ReconError ReconBooks := do
  ensure (call.entries ≠ [] ∧ call.entries.length ≤ maxReconEntries) ReconError.batchSize
  match v.proven with
  | none => .error .unproven
  | some (count, acc, digest, attested) => applyRecon v books call count acc digest attested

/-! ### The books and the locks -/

/-- The books, and what the lock of each route recorded, oldest first. -/
structure ReconWorld where
  books : ReconBooks
  log : Route → List Entry

inductive ReconStep where
  | plan (v : PlanView) (op : PlanOp)
  /-- Governance or the validators stop or open a route. -/
  | policy (route : Route) (stop : Option BridgeCircuitTrip)
  /-- The lock of a route records an entry. -/
  | records (route : Route) (e : Entry)
  | reconcile (v : ReconView) (call : ReconCall)

namespace ReconWorld

def start : ReconWorld :=
  ⟨⟨fun _ => none, fun _ => none, fun _ _ => none, fun _ => none, []⟩, fun _ => []⟩

/-- An operation that is refused changes nothing. -/
def step (w : ReconWorld) : ReconStep → ReconWorld
  | .plan v op =>
    match executePlan v w.books.plans op with
    | .ok plans => { w with books := { w.books with plans } }
    | .error _ => w
  | .policy route stop =>
    { w with books := { w.books with stops := update w.books.stops route stop } }
  | .records route e => { w with log := update w.log route (w.log route ++ [e]) }
  | .reconcile v call =>
    match Settlement.reconcile v w.books call with
    | .ok books => { w with books }
    | .error _ => w

def run (w : ReconWorld) (steps : List ReconStep) : ReconWorld := steps.foldl step w

def Along (p : ReconWorld → ReconStep → Prop) : ReconWorld → List ReconStep → Prop
  | _, [] => True
  | w, a :: rest => p w a ∧ Along p (w.step a) rest

end ReconWorld

def lockHash (entries : List Entry) : Word :=
  entries.foldl (fun acc e => sha (packedEntry acc e.plan e.leg e.kind e.amount)) ProofVerifiers.empty

def hashedFrom : Word → List Entry → List Bytes
  | _, [] => []
  | acc, e :: rest =>
    let packed := packedEntry acc e.plan e.leg e.kind e.amount
    packed :: hashedFrom (sha packed) rest

end

def ReconEntry.entry (e : ReconEntry) : Entry := ⟨e.planId, e.legId, e.kind.byte, e.amount⟩

end Tenzro.Settlement
