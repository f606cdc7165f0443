import Tenzro.NativeBalance
import Tenzro.SettlementLegs

set_option autoImplicit false
set_option linter.dupNamespace false

/-!
# The settlement lock on Solana

A leg is an account at an address derived from its config and its id. An
instruction that fails changes nothing, and a program it calls cannot call it
back.
-/
namespace Tenzro.Settlement
open Function
namespace Solana
open ByteCodec ProofVerifiers Outcome FixedWidth
open NativeBalance (moved le_moved moved_dest moved_source moved_self)
open Book (SumsTo)

abbrev Pubkey := Bytes

def systemProgram : Pubkey := List.replicate 32 0

def tokenProgram : Pubkey :=
  beBytes 32 0x06ddf6e1d765a193d9cbe146ceeb79ac1cb485ed5f5b37913a8cf5857eff00a9

def token2022Program : Pubkey :=
  beBytes 32 0x06ddf6e1ee758fde18425dbce46ccddab61afc4d83b90d27febdf928d8a18bfc

/-- The lock program and the addresses it derives. -/
class ProgramAddresses where
  program : Pubkey
  /-- The address of a leg under a config, with the bump that was found. -/
  legAddress : Pubkey → Word → Pubkey × UInt8
  createLegAddress : Pubkey → Word → UInt8 → Option Pubkey
  created : ∀ config id, createLegAddress config id (legAddress config id).2 =
    some (legAddress config id).1
  injective : ∀ {config config' id id' bump bump' key}, createLegAddress config id bump = some key →
    createLegAddress config' id' bump' = some key → config = config' ∧ id = id'

/-! ### Accounts -/

structure TokenAccount where
  program : Pubkey
  mint : Pubkey
  owner : Pubkey
  delegate : Option Pubkey
  amount : ℕ
deriving DecidableEq, Repr

def lockedStage : UInt8 := 1

def releasedStage : UInt8 := 2

def refundedStage : UInt8 := 3

structure SolLeg where
  stage : UInt8
  payer : Pubkey
  recipient : Pubkey
  mint : Pubkey
  vault : Pubkey
  amount : ℕ
  escapeAt : ℕ
  bump : UInt8
deriving DecidableEq, Repr

def SolLeg.state (l : SolLeg) : LegState :=
  if l.stage = lockedStage then .locked else if l.stage = releasedStage then .released else .refunded

structure SolConfig where
  finalityProgram : Pubkey
  finalityState : Pubkey
  horizon : ℕ
  count : ℕ
  acc : Word
deriving DecidableEq, Repr

/-- The program's accounts, the balances, and what each config recorded and paid. -/
structure SolLock where
  configs : Pubkey → Option SolConfig
  legs : Pubkey → Option SolLeg
  lamports : Pubkey → ℕ
  tokens : Pubkey → Option TokenAccount
  entries : Pubkey → List Entry
  paid : Pubkey → List (Payout Pubkey Pubkey)

/-- What a transaction brings: signatures, the accounts outside the lock, the clock and the rent. -/
structure Tx where
  signer : Pubkey → Bool
  writable : Pubkey → Bool
  owner : Pubkey → Pubkey
  dataLen : Pubkey → ℕ
  /-- The latest final checkpoint of a finality client's account and its state root. -/
  finality : Pubkey → Option (Option (ℕ × Word))
  /-- The payload of a buffer of the program. -/
  staged : Pubkey → Option Bytes
  unixTimestamp : ℤ
  rent : ℕ

inductive SolError where
  | alreadyLocked
  | notLocked
  | badAmount
  | unproven
  | tooEarly
  | unknownCheckpoint
  | wrongDestination
  | wrongAccount
  | badBuffer
  | initialized
  | uninitialized
  | illegalOwner
  | missingSignature
  | dataTooSmall
  | notEnoughKeys
  /-- The system program or a token program refuses a move. -/
  | refused
deriving DecidableEq, Repr

inductive SolInstruction where
  | initConfig (config finalityProgram finalityState : Pubkey) (horizon : ℕ)
  | lock (config leg payer funder system : Pubkey) (token : List Pubkey) (plan : Word)
    (index : UInt8) (amount : ℕ) (recipient : Pubkey)
  | settle (config leg finality buffer dest : Pubkey) (token : List Pubkey) (plan : Word)
    (index : UInt8) (checkpoint : ℕ)
  | escape (config leg dest : Pubkey) (token : List Pubkey) (plan : Word) (index : UInt8)
deriving DecidableEq, Repr

def solLegErr : LegError → SolError
  | .notLocked => .notLocked
  | .unproven => .unproven
  | .tooEarly => .tooEarly

def configLen : ℕ := 113

def Tx.now (tx : Tx) : ℕ := (max tx.unixTimestamp 0).toNat

/-! ### Moves of value -/

def systemTransfer (lamports : Pubkey → ℕ) (source dest : Pubkey) (n : ℕ) :
    Except SolError (Pubkey → ℕ) := do
  ensure (n ≤ lamports source) SolError.refused
  return moved lamports source dest n

def createLeg (lamports : Pubkey → ℕ) (payer leg : Pubkey) (rent : ℕ) :
    Except SolError (Pubkey → ℕ) :=
  if lamports leg = 0 then systemTransfer lamports payer leg rent
  else
    let short := rent - lamports leg
    if 0 < short then systemTransfer lamports payer leg short else .ok lamports

def tokenAccount (tokens : Pubkey → Option TokenAccount) (program key : Pubkey) :
    Except SolError TokenAccount :=
  match tokens key with
  | none => .error .wrongAccount
  | some a => if a.program = program then .ok a else .error .wrongAccount

/-- A token program moves an amount for the source's owner or its delegate. -/
def transferChecked (tokens : Pubkey → Option TokenAccount)
    (program source mint dest authority : Pubkey) (n : ℕ) :
    Except SolError (Pubkey → Option TokenAccount) := do
  let a ← tokenAccount tokens program source
  let b ← tokenAccount tokens program dest
  ensure (a.mint = mint ∧ b.mint = mint) SolError.refused
  ensure (a.owner = authority ∨ a.delegate = some authority) SolError.refused
  ensure (n ≤ a.amount) SolError.refused
  if source = dest then return tokens
  else
    return update (update tokens source (some { a with amount := a.amount - n }))
      dest (some { b with amount := b.amount + n })

/-! ### The program -/

section
variable [ProgramAddresses]

open ProgramAddresses in
def legKey (config : Pubkey) (id : Word) : Pubkey := (legAddress config id).1

namespace SolLock
variable (s : SolLock) (tx : Tx)

def config (key : Pubkey) : Except SolError SolConfig :=
  match s.configs key with
  | some c => .ok c
  | none =>
    if s.legs key = none ∧ tx.owner key ≠ ProgramAddresses.program then .error .illegalOwner
    else .error .uninitialized

def initConfig (config finalityProgram finalityState : Pubkey) (horizon : ℕ) :
    Except SolError SolLock := do
  ensure (tx.owner config = ProgramAddresses.program ∧ tx.writable config) SolError.illegalOwner
  ensure (tx.signer config) SolError.missingSignature
  ensure (configLen ≤ tx.dataLen config) SolError.dataTooSmall
  ensure (s.configs config = none ∧ s.legs config = none ∧ tx.staged config = none)
    SolError.initialized
  let c : SolConfig := ⟨finalityProgram, finalityState, horizon, 0, ProofVerifiers.empty⟩
  return { s with configs := update s.configs config (some c) }

def deposit (leg payer funder : Pubkey) (token : List Pubkey) (amount : ℕ) :
    Except SolError (SolLock × Pubkey × Pubkey) :=
  match token with
  | [] => do
    let lamports ← createLeg s.lamports funder leg tx.rent
    let lamports ← systemTransfer lamports payer leg amount
    return ({ s with lamports }, systemProgram, systemProgram)
  | mint :: source :: vault :: program :: _ => do
    ensure (program = tokenProgram ∨ program = token2022Program) SolError.wrongAccount
    ensure (tx.owner mint = program) SolError.wrongAccount
    let before ← tokenAccount s.tokens program vault
    ensure (before.mint = mint ∧ before.owner = leg) SolError.wrongAccount
    let lamports ← createLeg s.lamports funder leg tx.rent
    let tokens ← transferChecked s.tokens program source mint vault payer amount
    let after ← tokenAccount tokens program vault
    ensure (before.amount ≤ after.amount ∧ after.amount - before.amount = amount) SolError.badAmount
    return ({ s with lamports, tokens }, mint, vault)
  | _ => .error .notEnoughKeys

def setLeg (key : Pubkey) (l : SolLeg) : SolLock :=
  { s with legs := update s.legs key (some l) }

section
variable [SchemeHash]

/-- Folds an entry into a config's running hash. -/
def record (config : Pubkey) (c : SolConfig) (plan id : Word) (kind : UInt8) (amount : ℕ) :
    Except SolError SolLock := do
  ensure (tx.writable config) SolError.wrongAccount
  let c := { c with count := c.count + 1, acc := reconStep c.acc plan id kind amount }
  return { s with
    configs := update s.configs config (some c)
    entries := update s.entries config (s.entries config ++ [⟨plan, id, kind, amount⟩]) }

open ProgramAddresses in
def lock (config leg payer funder system : Pubkey) (token : List Pubkey) (plan : Word)
    (index : UInt8) (amount : ℕ) (recipient : Pubkey) : Except SolError SolLock := do
  let c ← s.config tx config
  ensure (amount ≠ 0) SolError.badAmount
  ensure (tx.signer payer ∧ tx.signer funder) SolError.missingSignature
  ensure (system = systemProgram) SolError.wrongAccount
  let id := legId plan index
  let (address, bump) := legAddress config id
  ensure (leg = address) SolError.wrongAccount
  ensure (s.configs leg = none ∧ s.legs leg = none ∧ tx.owner leg ≠ program) SolError.alreadyLocked
  let (s, mint, vault) ← s.deposit tx leg payer funder token amount
  let escapeAt := saturatingAdd 64 tx.now c.horizon
  let l : SolLeg := ⟨lockedStage, payer, recipient, mint, vault, amount, escapeAt, bump⟩
  (s.setLeg leg l).record tx config c plan id reconLocked amount

def loadLeg (config leg : Pubkey) (plan : Word) (index : UInt8) :
    Except SolError (Word × SolLeg) :=
  match s.legs leg with
  | none => .error .notLocked
  | some l => do
    ensure (tx.writable leg) SolError.notLocked
    let id := legId plan index
    ensure (ProgramAddresses.createLegAddress config id l.bump = some leg) SolError.wrongAccount
    return (id, l)

def finalRoot (c : SolConfig) (finality : Pubkey) (checkpoint : ℕ) : Except SolError Word := do
  ensure (finality = c.finalityState ∧ tx.owner finality = c.finalityProgram) SolError.wrongAccount
  match tx.finality finality with
  | none => .error .wrongAccount
  | some none => .error .unknownCheckpoint
  | some (some (latest, root)) =>
    if latest = checkpoint then .ok root else .error .unknownCheckpoint

def target (l : SolLeg) : LegState → Except SolError (Pubkey × UInt8 × UInt8)
  | .released => .ok (l.recipient, releasedStage, reconReleased)
  | .refunded => .ok (l.payer, refundedStage, reconRefunded)
  | .locked => .error .notLocked

def payOut (config leg dest : Pubkey) (token : List Pubkey) (l : SolLeg)
    (p : Payout Pubkey Pubkey) : Except SolError SolLock :=
  let paid := update s.paid config (s.paid config ++ [p])
  if l.mint = systemProgram then do
    ensure (dest = p.dest) SolError.wrongDestination
    let lamports ← systemTransfer s.lamports leg dest l.amount
    return { s with lamports, paid }
  else
    match token with
    | mint :: vault :: program :: _ => do
      ensure (mint = l.mint ∧ vault = l.vault ∧
        (s.tokens vault).map TokenAccount.program = some program) SolError.wrongAccount
      let target ← tokenAccount s.tokens program dest
      ensure (target.mint = l.mint ∧ target.owner = p.dest) SolError.wrongDestination
      let tokens ← transferChecked s.tokens program vault mint dest leg l.amount
      return { s with tokens, paid }
    | _ => .error .notEnoughKeys

def pay (config leg dest : Pubkey) (c : SolConfig) (token : List Pubkey) (plan id : Word)
    (l : SolLeg) (next : LegState) (cause : Cause) : Except SolError SolLock := do
  let (wallet, stage, kind) ← target l next
  let s ← (s.setLeg leg { l with stage }).record tx config c plan id kind l.amount
  s.payOut config leg dest token l ⟨plan, id, wallet, l.mint, l.amount, cause⟩

def settle (config leg finality buffer dest : Pubkey) (token : List Pubkey) (plan : Word)
    (index : UInt8) (checkpoint : ℕ) : Except SolError SolLock := do
  let c ← s.config tx config
  let (id, l) ← s.loadLeg tx config leg plan index
  let root ← finalRoot tx c finality checkpoint
  match tx.staged buffer with
  | none => .error .badBuffer
  | some payload => do
    ensure (decisionLen ≤ payload.length) SolError.unproven
    let decision := payload.take decisionLen
    let proof := payload.drop decisionLen
    let next ← (settleLeg l.state root plan decision proof).mapError solLegErr
    s.pay tx config leg dest c token plan id l next (.proven root decision proof)

def escape (config leg dest : Pubkey) (token : List Pubkey) (plan : Word) (index : UInt8) :
    Except SolError SolLock := do
  let c ← s.config tx config
  let (id, l) ← s.loadLeg tx config leg plan index
  let next ← (escapeLeg l.state tx.now l.escapeAt).mapError solLegErr
  s.pay tx config leg dest c token plan id l next (.escaped tx.now)

def execute : SolInstruction → Except SolError SolLock
  | .initConfig config finalityProgram finalityState horizon =>
    s.initConfig tx config finalityProgram finalityState horizon
  | .lock config leg payer funder system token plan index amount recipient =>
    s.lock tx config leg payer funder system token plan index amount recipient
  | .settle config leg finality buffer dest token plan index checkpoint =>
    s.settle tx config leg finality buffer dest token plan index checkpoint
  | .escape config leg dest token plan index => s.escape tx config leg dest token plan index

end

end SolLock
end

/-- An instruction of the lock, or anything else that moves lamports and tokens. -/
inductive SolStep where
  | call (tx : Tx) (instruction : SolInstruction)
  | other (lamports : Pubkey → ℕ) (tokens : Pubkey → Option TokenAccount)

namespace SolLock
variable [ProgramAddresses]

section
variable [SchemeHash]

def step (s : SolLock) : SolStep → SolLock
  | .call tx instruction =>
    match s.execute tx instruction with
    | .ok s' => s'
    | .error _ => s
  | .other lamports tokens => { s with lamports, tokens }

def run (s : SolLock) (steps : List SolStep) : SolLock := steps.foldl step s

def Along (p : SolLock → SolStep → Prop) : SolLock → List SolStep → Prop
  | _, [] => True
  | s, a :: rest => p s a ∧ Along p (s.step a) rest

end

def start : SolLock :=
  ⟨fun _ => none, fun _ => none, fun _ => 0, fun _ => none, fun _ => [], fun _ => []⟩

def view (s : SolLock) (config : Pubkey) (id : Word) : Option (Leg Pubkey Pubkey) :=
  (s.legs (legKey config id)).map fun l =>
    ⟨⟨l.payer, l.recipient, l.mint, l.amount, l.escapeAt⟩, l.state⟩

def heldFor (s : SolLock) (config asset : Pubkey) (id : Word) : ℕ :=
  match s.legs (legKey config id) with
  | none => 0
  | some l =>
    if l.state = .locked ∧ l.mint = asset then
      if asset = systemProgram then s.lamports (legKey config id)
      else ((s.tokens l.vault).map TokenAccount.amount).getD 0
    else 0

end SolLock

/-! ### What the runtime and the token programs keep -/

section
variable [ProgramAddresses]

def IsLeg (key : Pubkey) : Prop := ∃ config id, key = legKey config id

def Admissible (s : SolLock) : SolStep → Prop
  | .call tx _ => (∀ key, tx.signer key → ¬ IsLeg key) ∧ tx.owner systemProgram ≠ tokenProgram ∧
      tx.owner systemProgram ≠ token2022Program
  | .other lamports tokens =>
    (∀ key, s.legs key ≠ none → s.lamports key ≤ lamports key) ∧
      (∀ key a, s.tokens key = some a → IsLeg a.owner → 0 < a.amount → ∃ a', tokens key = some a' ∧
        a'.owner = a.owner ∧ a'.mint = a.mint ∧ a.amount ≤ a'.amount) ∧
      ∀ key a, tokens key = some a → IsLeg a.owner → a.delegate = none

end

end Solana
end Tenzro.Settlement
