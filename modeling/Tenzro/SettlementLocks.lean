import Tenzro.SettlementEvmSound
import Tenzro.SettlementSolanaSound

set_option autoImplicit false
set_option linter.dupNamespace false

/-!
# Settlement locks on every chain

The three contracts move their legs as one machine and hash the same entries.
The EVM contract takes its tokens in before it writes the leg, so a token that
calls back can lock a leg twice.
-/
namespace Tenzro.Settlement
open Function List
namespace CosmWasm
open ByteCodec ProofVerifiers Outcome FixedWidth

structure Coin where
  denom : String
  amount : ℕ
deriving DecidableEq, Repr

structure CwLeg where
  payer : String
  recipient : String
  coin : Coin
  escapeAt : ℕ
  stage : LegState
deriving DecidableEq, Repr

/-- The contract's storage, what it holds of each denomination, and what it recorded and paid. -/
structure CwLock where
  legs : Word → Option CwLeg
  count : ℕ
  acc : Word
  held : String → ℕ
  entries : List Entry
  paid : List (Payout String String)

/-- The contract's own address and its horizon. -/
structure CwConfig where
  self : String
  escapeHorizon : ℕ
deriving DecidableEq, Repr

/-- A call's block time, sender and coins, the registry's answers and the valid addresses. -/
structure CwEnv where
  seconds : ℕ
  sender : String
  funds : List Coin
  stateRoot : ℕ → Option Bytes
  addrValid : String → Bool

inductive ExecuteMsg where
  | lock (planId : Bytes) (index : UInt8) (recipient : String)
  | settle (planId : Bytes) (index : UInt8) (checkpoint : ℕ) (decision proof : Bytes)
  | escape (planId : Bytes) (index : UInt8)
deriving DecidableEq, Repr

def legErr : LegError → String
  | .notLocked => "the leg is not locked"
  | .unproven => "the decision does not prove under the checkpoint's state root"
  | .tooEarly => "the escape horizon has not passed"

def word32 (b : Bytes) (why : String) : Except String Word :=
  if fits : b.length = 32 then .ok ⟨b, fits⟩ else .error why

def plan (planId : Bytes) : Except String Word := word32 planId "plan_id must be 32 bytes"

def amountOf (coin : Coin) : Except String ℕ :=
  if coin.amount ≤ maxValue 128 then .ok coin.amount else .error "the amount exceeds 128 bits"

section
variable [SchemeHash]

namespace CwLock
variable (s : CwLock) (config : CwConfig) (env : CwEnv)

def record (planId id : Word) (kind : UInt8) (amount : ℕ) : CwLock :=
  { s with
    count := s.count + 1
    acc := reconStep s.acc planId id kind amount
    entries := s.entries ++ [⟨planId, id, kind, amount⟩] }

def setLeg (id : Word) (leg : CwLeg) : CwLock :=
  { s with legs := update s.legs id (some leg) }

/-- The bank credits what comes with a call. -/
def receive (funds : List Coin) : CwLock :=
  { s with held := funds.foldl (fun held coin =>
      update held coin.denom (held coin.denom + coin.amount)) s.held }

/-- The bank sends what the call decided to pay. -/
def send (p : Payout String String) : Except String CwLock := do
  ensure (p.amount ≤ s.held p.asset) "insufficient funds"
  let left := if p.dest = config.self then s.held
    else update s.held p.asset (s.held p.asset - p.amount)
  return { s with held := left, paid := s.paid ++ [p] }

def lock (planId : Bytes) (index : UInt8) (recipient : String) : Except String CwLock := do
  let p ← plan planId
  let id := legId p index
  ensure (s.legs id = none) "the leg is already locked"
  match env.funds with
  | [coin] => do
    ensure (coin.amount ≠ 0) "send a nonzero amount"
    ensure (env.addrValid recipient) "the recipient is not an address"
    let escapeAt := saturatingAdd 64 env.seconds config.escapeHorizon
    let amount ← amountOf coin
    return (s.setLeg id ⟨env.sender, recipient, coin, escapeAt, .locked⟩).record p id reconLocked amount
  | _ => .error "send exactly one coin"

def loadLeg (id : Word) : Except String CwLeg :=
  match s.legs id with
  | none => .error "the leg is not locked"
  | some leg => .ok leg

def target (leg : CwLeg) : LegState → Except String (String × UInt8)
  | .released => .ok (leg.recipient, reconReleased)
  | .refunded => .ok (leg.payer, reconRefunded)
  | .locked => .error "the leg did not move"

def pay (p id : Word) (leg : CwLeg) (next : LegState) (cause : Cause) : Except String CwLock := do
  let (dest, kind) ← target leg next
  let amount ← amountOf leg.coin
  let s := (s.setLeg id { leg with stage := next }).record p id kind amount
  s.send config ⟨p, id, dest, leg.coin.denom, leg.coin.amount, cause⟩

def settle (planId : Bytes) (index : UInt8) (checkpoint : ℕ) (decision proof : Bytes) :
    Except String CwLock := do
  let p ← plan planId
  let id := legId p index
  let leg ← s.loadLeg id
  match env.stateRoot checkpoint with
  | none => .error s!"no final checkpoint {checkpoint}"
  | some root => do
    let root ← word32 root "the registry returned a malformed root"
    let next ← (settleLeg leg.stage root p decision proof).mapError legErr
    s.pay config p id leg next (.proven root decision proof)

def escape (planId : Bytes) (index : UInt8) : Except String CwLock := do
  let p ← plan planId
  let id := legId p index
  let leg ← s.loadLeg id
  let next ← (escapeLeg leg.stage env.seconds leg.escapeAt).mapError legErr
  s.pay config p id leg next (.escaped env.seconds)

def execute : ExecuteMsg → Except String CwLock
  | .lock planId index recipient => (s.receive env.funds).lock config env planId index recipient
  | .settle planId index checkpoint decision proof =>
    (s.receive env.funds).settle config env planId index checkpoint decision proof
  | .escape planId index => (s.receive env.funds).escape config env planId index

def start : CwLock := ⟨fun _ => none, 0, ProofVerifiers.empty, fun _ => 0, [], []⟩

def step (call : CwEnv × ExecuteMsg) : CwLock :=
  match s.execute config call.1 call.2 with
  | .ok s' => s'
  | .error _ => s

def run (calls : List (CwEnv × ExecuteMsg)) : CwLock := calls.foldl (fun s call => s.step config call) s

def view (id : Word) : Option (Leg String String) :=
  (s.legs id).map fun l =>
    ⟨⟨l.payer, l.recipient, l.coin.denom, l.coin.amount, l.escapeAt⟩, l.stage⟩

end CwLock

/-! ### Against the machine -/

section
variable {s s' : CwLock} {config : CwConfig} {env : CwEnv}

structure Kept (s : CwLock) : Prop where
  machine : Reach ⟨s.view, s.entries, s.paid⟩
  covered : Covered s.view s.held
  acc : s.acc = accumulate s.entries
  count : s.count = s.entries.length

omit [SchemeHash] in
theorem view_update {id : Word} {l : CwLeg} : (s.setLeg id l).view = update s.view id
    (some ⟨⟨l.payer, l.recipient, l.coin.denom, l.coin.amount, l.escapeAt⟩, l.stage⟩) := by
  funext id'
  unfold CwLock.view CwLock.setLeg
  by_cases same : id' = id
  · subst same
    simp only [update_self, Option.map_some]
  · simp only [update_of_ne same]

omit [SchemeHash] in
theorem amountOf_ok {coin : Coin} {n : ℕ} (ran : amountOf coin = .ok n) : coin.amount = n := by
  unfold amountOf at ran
  split_ifs at ran
  cases ran
  rfl

theorem Kept.receive (kept : Kept s) (funds : List Coin) : Kept (s.receive funds) := by
  refine ⟨kept.machine, kept.covered.mono fun denom => ?_, kept.acc, kept.count⟩
  change s.held denom ≤ funds.foldl _ s.held denom
  generalize s.held = held
  induction funds generalizing held with
  | nil => exact le_rfl
  | cons coin rest ih =>
    refine le_trans ?_ (ih _)
    by_cases own : denom = coin.denom
    · simp only [own, update_self]
      exact Nat.le_add_right _ _
    · simp only [update_of_ne own]
      exact le_rfl

theorem Kept.lock (kept : Kept s) {planId : Bytes} {index : UInt8} {recipient : String}
    (ran : (s.receive env.funds).lock config env planId index recipient = .ok s') : Kept s' := by
  obtain ⟨p, -, ran⟩ := bind_ok.1 ran
  obtain ⟨_, absent, ran⟩ := bind_ok.1 ran
  have absent : s.legs (legId p index) = none := ensure_ok.1 absent
  match funds : env.funds with
  | [] =>
    rw [funds] at ran
    cases ran
  | _ :: _ :: _ =>
    rw [funds] at ran
    cases ran
  | [coin] =>
    rw [funds] at ran
    simp only at ran
    obtain ⟨_, -, ran⟩ := bind_ok.1 ran
    obtain ⟨_, -, ran⟩ := bind_ok.1 ran
    obtain ⟨amount, exact_amount, ran⟩ := bind_ok.1 ran
    obtain rfl := amountOf_ok exact_amount
    obtain rfl := pure_ok.1 ran
    have no_leg : s.view (legId p index) = none := by
      unfold CwLock.view
      rw [absent]
      rfl
    have view : CwLock.view ((s.receive [coin]).setLeg (legId p index)
        ⟨env.sender, recipient, coin, saturatingAdd 64 env.seconds config.escapeHorizon, .locked⟩) =
        update s.view (legId p index) _ := view_update
    refine ⟨?_, ?_, ?_, ?_⟩
    · change Reach ⟨CwLock.view (CwLock.setLeg _ _ _), _, _⟩
      rw [view]
      exact .lock kept.machine index rfl no_leg
    · change Covered (CwLock.view (CwLock.setLeg _ _ _))
        (update s.held coin.denom (s.held coin.denom + coin.amount))
      rw [view]
      refine kept.covered.lock no_leg fun denom => ?_
      split_ifs with own
      · rw [← own, update_self]
      · rw [update_of_ne (Ne.symm own)]
        exact le_rfl
    · change reconStep s.acc p (legId p index) reconLocked coin.amount = accumulate (s.entries ++ [_])
      rw [accumulate_append, kept.acc]
    · change s.count + 1 = (s.entries ++ [_]).length
      rw [kept.count, length_append]
      rfl

theorem Kept.pay (kept : Kept s) {p : Word} {index : UInt8} {leg : CwLeg} {next : LegState}
    {cause : Cause} (found : s.legs (legId p index) = some leg) (locked : leg.stage = .locked)
    (allowed : cause.Allows p (⟨leg.payer, leg.recipient, leg.coin.denom, leg.coin.amount,
      leg.escapeAt⟩ : Terms String String) next)
    (ran : s.pay config p (legId p index) leg next cause = .ok s') : Kept s' := by
  set t : Terms String String := ⟨leg.payer, leg.recipient, leg.coin.denom, leg.coin.amount,
    leg.escapeAt⟩ with t_eq
  unfold CwLock.pay at ran
  obtain ⟨⟨dest, kind⟩, named, ran⟩ := bind_ok.1 ran
  obtain ⟨amount, exact_amount, ran⟩ := bind_ok.1 ran
  obtain rfl := amountOf_ok exact_amount
  obtain ⟨_, -, ran⟩ := bind_ok.1 ran
  obtain rfl := pure_ok.1 ran
  have payee : dest = t.payee next ∧ kind = next.kind := by
    cases next with
    | locked => cases named
    | released =>
      cases named
      exact ⟨rfl, rfl⟩
    | refunded =>
      cases named
      exact ⟨rfl, rfl⟩
  obtain ⟨rfl, rfl⟩ := payee
  have held : s.view (legId p index) = some ⟨t, .locked⟩ := by
    unfold CwLock.view
    rw [found, Option.map_some, locked]
  have view : CwLock.view (s.setLeg (legId p index) { leg with stage := next }) =
      update s.view (legId p index) (some ⟨t, next⟩) := view_update
  refine ⟨?_, ?_, ?_, ?_⟩
  · change Reach ⟨CwLock.view (CwLock.setLeg _ _ _), _, _⟩
    rw [view]
    exact .move kept.machine index rfl held allowed
  · change Covered (CwLock.view (CwLock.setLeg _ _ _)) (if t.payee next = config.self then s.held
      else update s.held t.asset (s.held t.asset - t.amount))
    rw [view]
    refine kept.covered.move allowed.moves held fun denom => ?_
    split_ifs with itself own own
    · exact Nat.le_add_right _ _
    · exact Nat.le_add_right _ _
    · rw [← own, update_self]
      omega
    · rw [update_of_ne (Ne.symm own)]
      exact Nat.le_add_right _ _
  · change reconStep s.acc p (legId p index) next.kind leg.coin.amount =
      accumulate (s.entries ++ [_])
    rw [accumulate_append, kept.acc]
  · change s.count + 1 = (s.entries ++ [_]).length
    rw [kept.count, length_append]
    rfl

omit [SchemeHash] in
theorem loadLeg_ok {id : Word} {leg : CwLeg} (ran : s.loadLeg id = .ok leg) :
    s.legs id = some leg := by
  unfold CwLock.loadLeg at ran
  cases found : s.legs id with
  | none =>
    rw [found] at ran
    cases ran
  | some l =>
    rw [found] at ran
    cases ran
    rfl

theorem Kept.step (kept : Kept s) (call : CwEnv × ExecuteMsg) : Kept (s.step config call) := by
  obtain ⟨env, msg⟩ := call
  unfold CwLock.step
  cases ran : s.execute config env msg with
  | error e => exact kept
  | ok s' =>
    have received := kept.receive env.funds
    cases msg with
    | lock planId index recipient => exact kept.lock ran
    | settle planId index checkpoint decision proof =>
      obtain ⟨p, -, ran⟩ := bind_ok.1 ran
      obtain ⟨leg, found, ran⟩ := bind_ok.1 ran
      cases answer : env.stateRoot checkpoint with
      | none =>
        simp only [answer] at ran
        cases ran
      | some root =>
        simp only [answer] at ran
        obtain ⟨w, -, ran⟩ := bind_ok.1 ran
        obtain ⟨next, moved, ran⟩ := bind_ok.1 ran
        have moved := mapError_ok.1 moved
        have locked := (settleLeg_ok moved).1
        rw [locked] at moved
        have allowed : (Cause.proven w decision proof).Allows p (⟨leg.payer, leg.recipient,
          leg.coin.denom, leg.coin.amount, leg.escapeAt⟩ : Terms String String) next := moved
        exact received.pay (loadLeg_ok found) locked allowed ran
    | escape planId index =>
      obtain ⟨p, -, ran⟩ := bind_ok.1 ran
      obtain ⟨leg, found, ran⟩ := bind_ok.1 ran
      obtain ⟨next, moved, ran⟩ := bind_ok.1 ran
      have moved := mapError_ok.1 moved
      have locked := (escapeLeg_ok.1 moved).1
      rw [locked] at moved
      have allowed : (Cause.escaped env.seconds).Allows p (⟨leg.payer, leg.recipient,
        leg.coin.denom, leg.coin.amount, leg.escapeAt⟩ : Terms String String) next := moved
      exact received.pay (loadLeg_ok found) locked allowed ran

theorem Kept.run (kept : Kept s) (calls : List (CwEnv × ExecuteMsg)) : Kept (s.run config calls) := by
  induction calls generalizing s with
  | nil => exact kept
  | cons call rest ih => exact ih (kept.step call)

theorem kept_start : Kept .start where
  machine := .empty
  covered _ := ⟨0, .zero, le_rfl⟩
  acc := rfl
  count := rfl

/-- What holds of the contract after every run. -/
structure CwSound (s : CwLock) : Prop where
  sound : LockSound s.view s.entries s.paid s.acc s.count
  covered : Covered s.view s.held
  paid : ∀ id leg, s.view id = some leg → leg.state ≠ .locked → ∃ p ∈ s.paid, p.leg = id

theorem cosmWasm_sound (config : CwConfig) (calls : List (CwEnv × ExecuteMsg)) :
    CwSound (CwLock.start.run config calls) := by
  have kept := (kept_start.run calls : Kept (CwLock.start.run config calls))
  refine ⟨?_, kept.covered, fun id leg held moved => kept.machine.legit.paid_moved held moved⟩
  rw [kept.acc, kept.count]
  exact kept.machine.legit.sound (by rw [append_nil])

end

end

end CosmWasm

open ByteCodec ProofVerifiers
open Solana (SolLock SolStep SolSound Pubkey ProgramAddresses Admissible)
open CosmWasm (CwLock CwConfig CwEnv ExecuteMsg CwSound)

/-- Every lock refines the machine, as long as no lock of a leg completes inside the token transfer
of another lock of it on an EVM chain. -/
theorem settlement_locks [SchemeHash] [ProgramAddresses] (params : LockParams)
    (actions : List LockAction) (fits : ∀ a ∈ actions, a.Fits)
    (alone : LockRun.start.Along params Undisturbed actions) (steps : List SolStep)
    (admissible : SolLock.start.Along Admissible steps) (account : Pubkey) (config : CwConfig)
    (calls : List (CwEnv × ExecuteMsg)) :
    EvmSound (LockRun.start.run params actions) ∧ SolSound (SolLock.start.run steps) account ∧
      CwSound (CwLock.start.run config calls) ∧
        ∀ acc plan leg kind amount, amount < 2 ^ 128 →
          packedEntry acc plan leg kind amount = reconBytes acc plan leg kind amount :=
  ⟨evm_sound params actions fits alone, Solana.solana_sound steps admissible account,
    CosmWasm.cosmWasm_sound config calls, fun _ _ _ _ _ small => packedEntry_eq small⟩

section

attribute [local instance] residueDigest

theorem length_onePlan : (replicate 32 (5 : UInt8)).length = 32 := length_replicate

def onePlan : Word := ⟨replicate 32 5, length_onePlan⟩

def lockOf (amount : ℕ) : LockCall :=
  ⟨1000, replicate 20 3, onePlan, 0, replicate 20 7, amount, 0, replicate 20 4⟩

def oneContract (escapeHorizon : ℕ) : LockParams := ⟨replicate 20 9, escapeHorizon⟩

def nestedLocks : List LockAction :=
  [.lock (lockOf 100), .lock (lockOf 50), .transferred, .returned true, .transferred, .returned true]

/-- The inner leg is paid before the outer lock completes, and the outer one after. -/
def nestedEscapes : List LockAction :=
  [.lock (lockOf 100), .lock (lockOf 50), .transferred, .returned true,
    .escape 1000 onePlan 0, .transferred, .returned true, .transferred, .returned true,
    .escape 1000 onePlan 0, .transferred, .returned true]

theorem nestedLocks_path :
    ((LockRun.start.run (oneContract 3600) nestedLocks).state.entries.filter
      fun e => e.leg = legId onePlan 0).map (fun e => (e.kind, e.amount)) = [(1, 50), (1, 100)] ∧
    (LockRun.start.run (oneContract 3600) nestedLocks).state.legs (legId onePlan 0) =
      some ⟨⟨replicate 20 3, replicate 20 4, replicate 20 7, 100, 4600⟩, .locked⟩ := by
  decide

/-- A leg is locked twice, and another pays twice. -/
theorem locked_twice :
    (¬ EvmSound (LockRun.start.run (oneContract 3600) nestedLocks)) ∧
      ((LockRun.start.run (oneContract 0) nestedEscapes).state.paid.filter
        fun p => p.leg = legId onePlan 0).length = 2 := by
  refine ⟨fun sound => ?_, by decide +kernel⟩
  have shape := sound.sound.path (legId onePlan 0)
  rw [nestedLocks_path.1, nestedLocks_path.2] at shape
  exact absurd shape (by decide)

/-- Leg accounts are named by their config and id. -/
@[reducible] def spelledAddresses : ProgramAddresses where
  program := [8]
  legAddress config id := (1 :: 255 :: (config ++ id.1), 255)
  createLegAddress config id bump := some (1 :: bump :: (config ++ id.1))
  created _ _ := rfl
  injective {config config' id id' bump bump' key} one two := by
    have same := one.trans two.symm
    simp only [Option.some.injEq, List.cons.injEq, true_and] at same
    obtain ⟨configs, ids⟩ := append_inj' same.2 (id.2.trans id'.2.symm)
    exact ⟨configs, Subtype.ext ids⟩

attribute [local instance] spelledAddresses

/-- A transaction that one payer and a new config sign. -/
def oneTx : Solana.Tx where
  signer key := decide (key = [2] ∨ key = [3])
  writable _ := true
  owner key := if key = [3] then [8] else []
  dataLen _ := 200
  finality _ := none
  staged _ := none
  unixTimestamp := 1000
  rent := 10

def oneSolanaLeg : List SolStep :=
  [.other (fun _ => 500) fun _ => none, .call oneTx (.initConfig [3] [6] [7] 3600),
    .call oneTx (.lock [3] (1 :: 255 :: ([3] ++ (legId onePlan 0).1)) [2] [2] Solana.systemProgram []
      onePlan 0 100 [4])]

def oneCwLeg : List (CwEnv × ExecuteMsg) :=
  [(⟨1000, "payer", [⟨"utnzo", 100⟩], fun _ => none, fun _ => true⟩, .lock onePlan.1 0 "recipient")]

theorem oneSolanaLeg_admissible : SolLock.start.Along Admissible oneSolanaLeg := by
  have keys : ∀ key, oneTx.signer key → ¬ Solana.IsLeg key := by
    rintro key signs ⟨config, id, rfl⟩
    have named : Solana.legKey config id = [2] ∨ Solana.legKey config id = [3] := of_decide_eq_true signs
    rcases named with same | same
    · cases (List.cons.inj same).2
    · cases (List.cons.inj same).2
  have no_mint : oneTx.owner Solana.systemProgram ≠ Solana.tokenProgram ∧
      oneTx.owner Solana.systemProgram ≠ Solana.token2022Program := by decide
  exact ⟨⟨fun key held => absurd rfl held, fun _ _ held => (nomatch held), fun _ _ held => nomatch held⟩,
    ⟨keys, no_mint⟩, ⟨keys, no_mint⟩, trivial⟩

/-- A leg locked on each chain. -/
theorem settlement_locks_oneLeg :
    EvmSound (LockRun.start.run (oneContract 3600) [.lock (lockOf 100), .transferred, .returned true]) ∧
      SolSound (SolLock.start.run oneSolanaLeg) [3] ∧
        CwSound (CwLock.start.run ⟨"lock", 3600⟩ oneCwLeg) ∧
          ∀ acc plan leg kind amount, amount < 2 ^ 128 →
            packedEntry acc plan leg kind amount = reconBytes acc plan leg kind amount := by
  refine settlement_locks (oneContract 3600) [.lock (lockOf 100), .transferred, .returned true] ?_ ?_
    oneSolanaLeg oneSolanaLeg_admissible [3] ⟨"lock", 3600⟩ oneCwLeg
  · intro a mem
    fin_cases mem
    · exact show 100 < 2 ^ 128 by decide
    · trivial
    · trivial
  · refine ⟨trivial, trivial, ?_, trivial⟩
    intro before c rest frames
    cases frames
    rfl

end

end Tenzro.Settlement
