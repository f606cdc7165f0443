import Tenzro.ByteCodec
import Tenzro.FixedWidth
import Tenzro.Outcome

set_option autoImplicit false
set_option linter.dupNamespace false

/-!
# The token factory precompile

One slot per token and account, read and written by native transactions and by
the factory precompile. A function that refuses leaves no state: its
transaction is undone.
-/
namespace Tenzro.Token
open FixedWidth Function

/-! ### Powers -/

/-- Who may exercise one issuer power. -/
inductive Authority where
  | disabled
  | issuer
  | issuerCouncil (k : ℕ)
deriving DecidableEq, Repr

inductive Power where
  | mint
  | freeze
  | halt
  | force
  | policyChange
deriving DecidableEq, Repr

structure PowerManifest where
  mint : Authority
  freeze : Authority
  halt : Authority
  force : Authority
  policyChange : Authority
deriving DecidableEq, Repr

def PowerManifest.none : PowerManifest :=
  ⟨.disabled, .disabled, .disabled, .disabled, .disabled⟩

def PowerManifest.get (m : PowerManifest) : Power → Authority
  | .mint => m.mint
  | .freeze => m.freeze
  | .halt => m.halt
  | .force => m.force
  | .policyChange => m.policyChange

def Power.debug : Power → String
  | .mint => "Mint"
  | .freeze => "Freeze"
  | .halt => "Halt"
  | .force => "Force"
  | .policyChange => "PolicyChange"

/-! ### Rules -/

inductive HolderKind where
  | humanRoot
  | agentUnderTerms
  | machine
  | any
deriving DecidableEq, Repr

def HolderKind.debug : HolderKind → String
  | .humanRoot => "HumanRoot"
  | .agentUnderTerms => "AgentUnderTerms"
  | .machine => "Machine"
  | .any => "Any"

/-- A rule every recipient must satisfy; a lockup binds holders. -/
inductive Rule where
  | requireClaim (kind : String) (issuers : List String)
  | denyJurisdiction (blocs : List String)
  | allowJurisdiction (blocs : List String)
  | holderKind (kind : HolderKind)
  | maxHolders (max : ℕ)
  | maxBalanceBps (bps : ℕ)
  | lockup (untilMs : ℤ)
  | minTermsVerification (level : ℕ)
  | minKycTier (tier : ℕ)
deriving DecidableEq, Repr

structure TokenPolicy where
  eligibility : List Rule := []
  policyTimelockMs : ℕ := 0
deriving DecidableEq, Repr

/-- A token's definition, as far as the ledger reads it. -/
structure TokenRecord where
  name : String
  symbol : String
  decimals : ℕ
  totalSupply : ℕ
  /-- The issuer's ledger account. -/
  creator : Bytes
  maxSupply : Option ℕ
  powers : PowerManifest
  policy : TokenPolicy
deriving DecidableEq, Repr

def namedIssuers (record : TokenRecord) : List String :=
  record.policy.eligibility.foldl (fun out rule =>
    match rule with
    | .requireClaim _ issuers => issuers.foldl (fun out i => if i ∈ out then out else out ++ [i]) out
    | _ => out) []

/-! ### Identities -/

structure Claim where
  value : String
  expiresMs : ℤ
deriving DecidableEq, Repr

structure ServingNode where
  operatorDid : String
  keyCertification : String
deriving DecidableEq, Repr

structure AgentTerms where
  servingNodes : List ServingNode
  expiresAtMs : Option ℕ
deriving DecidableEq, Repr

/-- What the rule engine reads of the system storage: the identity registered for a wallet,
and an agent's terms. -/
structure SystemView where
  identityWallet : Bytes → Option String
  agentTerms : String → Option AgentTerms

/-- What kind of account holds a balance. -/
inductive HolderClass where
  | human
  | agent (level : ℕ)
  | unverified (level : ℕ)
  | machine
  | unknown
deriving DecidableEq, Repr

def humanDidPrefix : String := "did:tenzro:human:"

/-- 1 for live terms, 2 when every serving node's key is certified, 3 when two operators
serve it. -/
def termsLevel (terms : AgentTerms) : ℕ :=
  let nodes := terms.servingNodes
  if nodes = [] ∨ nodes.any (fun n => n.keyCertification = "") then 1
  else if 2 ≤ (nodes.map ServingNode.operatorDid).dedup.length then 3 else 2

/-- The identity is looked up under the account as it is spelled. -/
def holderClass (view : SystemView) (account : Bytes) (nowMs : ℤ) : HolderClass :=
  match (view.identityWallet account).filter (· ≠ "") with
  | none => .unknown
  | some did =>
    if humanDidPrefix.toList <+: did.toList then .human
    else
      match view.agentTerms did with
      | some t =>
        if t.expiresAtMs.all (fun e => nowMs < wrapSigned 64 e) then .agent (termsLevel t)
        else .unverified 0
      | none => .machine

def kycLevel (grade : String) : Option ℕ :=
  if grade = "basic" then some 1
  else if grade = "enhanced" then some 2
  else if grade = "full" then some 3
  else none

def eqIgnoreAsciiCase (a b : String) : Bool :=
  a.toList.map Char.toLower = b.toList.map Char.toLower

open Outcome

/-- The ids and addresses the factory derives by hashing. -/
class FactoryHash where
  /-- The id of the token the ledger account makes with its `nonce`-th creation. -/
  tokenId : Bytes → ℕ → Bytes
  tokenId_injective : ∀ {a b m n}, tokenId a m = tokenId b n → a = b ∧ m = n
  /-- The token id of native TNZO, which is no hash. -/
  tnzoId : Bytes
  tokenId_ne_tnzo : ∀ a n, tokenId a n ≠ tnzoId
  facadeAddress : Bytes → Bytes

def ledgerAccount (address : Bytes) : Bytes :=
  if address.length = 32 ∧ (address.drop 20).all (· = 0) then address.take 20 else address

/-- The word slots of the factory's storage. -/
inductive Slot where
  | balance (id account : Bytes)
  | frozen (id account : Bytes)
  | allowance (id owner spender : Bytes)
  | halted (id : Bytes)
  | holders (id : Bytes)
  | nonce (creator : Bytes)
  | count
deriving DecidableEq, Repr

/-- The factory's storage, the native balances, and what the rule engine reads beside them. -/
structure Ledger where
  word : Slot → ℕ
  record : Bytes → Option TokenRecord
  /-- The token id behind a facade address, zero where there is none. -/
  facade : Bytes → Bytes
  claim : Bytes → Bytes → String → String → Option Claim
  native : Bytes → ℕ
  system : SystemView

inductive VmError where
  | invalidTransaction (msg : String)
  | executionFailed (msg : String)
  | precompileFailed (msg : String)
  | internal (msg : String)
  | reverted (msg : String)
deriving DecidableEq, Repr

def refuse {α : Type} (msg : String) : Except VmError α := .error (.invalidTransaction msg)

/-- An addition that overflows stops the call. -/
def addOne (v : ℕ) : Except VmError ℕ :=
  if v < maxValue 128 then .ok (v + 1) else .error (.internal "attempt to add with overflow")

def checkedAdd (a b : ℕ) : Option ℕ := if a + b ≤ maxValue 128 then some (a + b) else none

/-! ### The arithmetic both views share -/

def holdersAfter (holders before after : ℕ) : ℕ :=
  if before = 0 ∧ after ≠ 0 then holders + 1
  else if before ≠ 0 ∧ after = 0 then holders - 1
  else holders

def initialSupplyWithin (total : ℕ) (max : Option ℕ) : Bool := max.all (fun m => total ≤ m)

def withinBalanceCeiling (held amount supply bps : ℕ) : Bool :=
  saturatingAdd 128 held amount ≤ saturatingMul 128 supply bps / 10000

def supplyAfterMint (total : ℕ) (max : Option ℕ) (amount : ℕ) : Option ℕ :=
  (checkedAdd total amount).filter fun s => max.all (fun m => s ≤ m)

/-- A freeze never exceeds what the holder keeps. -/
def frozenAfter (frozen left : ℕ) : ℕ := min frozen left

def freezeWithin (amount held : ℕ) : Option ℕ := if amount ≤ held then some amount else none

/-- What the holder may move past the freeze. -/
def spendable (held frozen : ℕ) : ℕ := held - min frozen held

namespace Ledger

def setWord (s : Ledger) (slot : Slot) (v : ℕ) : Ledger :=
  { s with word := update s.word slot v }

def writeToken (s : Ledger) (id : Bytes) (record : TokenRecord) : Ledger :=
  { s with record := update s.record id (some record) }

def frozen (s : Ledger) (id owner : Bytes) : ℕ := s.word (.frozen id (ledgerAccount owner))

def halted (s : Ledger) (id : Bytes) : Bool := s.word (.halted id) ≠ 0

def held (s : Ledger) (id owner : Bytes) : ℕ := s.word (.balance id (ledgerAccount owner))

def writeBalance (s : Ledger) (id owner : Bytes) (v : ℕ) : Ledger :=
  let before := s.held id owner
  let s := s.setWord (.balance id (ledgerAccount owner)) v
  let holders := s.word (.holders id)
  let next := holdersAfter holders before v
  if next ≠ holders then s.setWord (.holders id) next else s

/-! ### The rule engine -/

def liveClaim (s : Ledger) (token subject : Bytes) (kind issuer : String) (nowMs : ℤ) :
    Option String :=
  ((s.claim token (ledgerAccount subject) kind issuer).filter (fun c => nowMs < c.expiresMs)).map
    Claim.value

/-- The highest grade among the live claims of the issuers the policy names. -/
def kycTier (s : Ledger) (token : Bytes) (record : TokenRecord) (subject : Bytes) (nowMs : ℤ) : ℕ :=
  (namedIssuers record).foldl (fun best issuer =>
    max best (((s.liveClaim token subject "kyc" issuer nowMs).bind kycLevel).getD 0)) 0

end Ledger

/-- Why the rule engine refused a transfer. -/
inductive Refusal where
  | unknownToken
  | halted
  | frozen
  | lockup (untilMs : ℤ)
  | ineligible (why : String)
deriving DecidableEq, Repr

def Refusal.text : Refusal → String
  | .unknownToken => "unknown token"
  | .halted => "the issuer has halted transfers of this token"
  | .frozen => "the amount exceeds the sender's unfrozen balance"
  | .lockup untilMs => s!"the token is locked until {untilMs}"
  | .ineligible why => s!"the recipient is not eligible: {why}"

def ineligible (why : String) : Except Refusal Unit := .error (.ineligible why)

section
variable (s : Ledger) (token : Bytes) (record : TokenRecord) (recipient : Bytes) (amount : ℕ)
  (nowMs : ℤ)

/-- The jurisdictions the recipient's live claims name, in the order of the issuers. -/
def jurisdictions : List String :=
  (namedIssuers record).filterMap fun issuer =>
    s.liveClaim token recipient "jurisdiction" issuer nowMs

def checkRule : Rule → Except Refusal Unit
  | .requireClaim kind issuers =>
    if issuers.any (fun i => (s.liveClaim token recipient kind i nowMs).isSome) then .ok ()
    else ineligible s!"no live '{kind}' claim from an issuer the token accepts"
  | .denyJurisdiction blocs =>
    match (jurisdictions s token record recipient nowMs).find? (fun code =>
        blocs.any (eqIgnoreAsciiCase · code)) with
    | some code => ineligible s!"jurisdiction {code} is refused"
    | none => .ok ()
  | .allowJurisdiction blocs =>
    if (jurisdictions s token record recipient nowMs).any (fun code =>
        blocs.any (eqIgnoreAsciiCase · code)) then .ok ()
    else ineligible "no live jurisdiction claim in a jurisdiction the token serves"
  | .holderKind kind =>
    let ok := match kind, holderClass s.system recipient nowMs with
      | .any, _ => true
      | .humanRoot, .human => true
      | .agentUnderTerms, .agent _ => true
      | .machine, .machine => true
      | .machine, .agent _ => true
      | _, _ => false
    if ok then .ok () else ineligible s!"the token is held only by {kind.debug} accounts"
  | .maxHolders max =>
    let holders := s.word (.holders token)
    if s.held token recipient = 0 ∧ 0 < amount ∧ max ≤ holders then
      ineligible s!"the token already has {holders} holders"
    else .ok ()
  | .maxBalanceBps bps =>
    if withinBalanceCeiling (s.held token recipient) amount record.totalSupply bps then .ok ()
    else ineligible s!"the balance would exceed {bps} bps of the supply"
  | .lockup _ => .ok ()
  | .minTermsVerification level =>
    match holderClass s.system recipient nowMs with
    | .agent verified | .unverified verified =>
      if verified < level then
        ineligible s!"the agent's Terms verification level {verified} is below {level}"
      else .ok ()
    | .machine => ineligible s!"a machine without live Terms is below level {level}"
    | .unknown =>
      ineligible s!"an address with no registered identity has no Terms; level {level} is required"
    | .human => .ok ()
  | .minKycTier tier =>
    let graded := s.kycTier token record recipient nowMs
    if graded < tier then ineligible s!"the recipient's KYC tier {graded} is below {tier}"
    else .ok ()

/-- Whether the recipient satisfies every rule but the lockup. -/
def canReceive : Except Refusal Unit :=
  record.policy.eligibility.forM (checkRule s token record recipient amount nowMs)

end

def lockedUntil (record : TokenRecord) (nowMs : ℤ) : Option ℤ :=
  record.policy.eligibility.findSome? fun rule =>
    match rule with
    | .lockup untilMs => if nowMs < untilMs then some untilMs else none
    | _ => none

section
variable [FactoryHash]

def canTransfer (s : Ledger) (token sender recipient : Bytes) (amount : ℕ) (nowMs : ℤ) :
    Except Refusal Unit :=
  if token = FactoryHash.tnzoId then .ok ()
  else
    match s.record token with
    | none => .error .unknownToken
    | some record =>
      if s.halted token then .error .halted
      else
        let held := s.held token sender
        if amount ≤ held ∧ spendable held (s.frozen token sender) < amount then .error .frozen
        else
          match lockedUntil record nowMs with
          | some untilMs => .error (.lockup untilMs)
          | none => canReceive s token record recipient amount nowMs

def refuseWith (r : Except Refusal Unit) : Except VmError Unit :=
  match r with
  | .ok () => .ok ()
  | .error refusal => refuse refusal.text

/-! ### The native operations -/

namespace Ledger

def balance (s : Ledger) (token owner : Bytes) : ℕ :=
  if token = FactoryHash.tnzoId then s.native (ledgerAccount owner) else s.held token owner

def setBalance (s : Ledger) (token owner : Bytes) (v : ℕ) : Ledger :=
  if token = FactoryHash.tnzoId then
    { s with native := update s.native (ledgerAccount owner) v }
  else s.writeBalance token owner v

def knownToken (s : Ledger) (id : Bytes) : Except VmError TokenRecord :=
  match s.record id with
  | some record => .ok record
  | none => refuse "unknown token"

def maxTokenNameLen : ℕ := 64

def maxTokenDecimals : ℕ := 36

def create (s : Ledger) (creator : Bytes) (spec : TokenRecord) : Except VmError (Ledger × Bytes) := do
  ensure (spec.name ≠ "" ∧ spec.symbol ≠ "" ∧ spec.name.utf8ByteSize ≤ maxTokenNameLen ∧
      spec.symbol.utf8ByteSize ≤ maxTokenNameLen ∧ spec.decimals ≤ maxTokenDecimals)
    (VmError.invalidTransaction "a token needs a 1 to 64 byte name and symbol and at most 36 decimals")
  ensure (initialSupplyWithin spec.totalSupply spec.maxSupply = true)
    (VmError.invalidTransaction "the initial supply exceeds the maximum supply")
  let nonce := s.word (.nonce (ledgerAccount creator))
  let s := s.setWord (.nonce (ledgerAccount creator)) (← addOne nonce)
  let id := FactoryHash.tokenId (ledgerAccount creator) nonce
  let s := s.writeToken id { spec with creator := ledgerAccount creator }
  let s := { s with facade := update s.facade (FactoryHash.facadeAddress id) id }
  let s := s.writeBalance id creator spec.totalSupply
  let s := s.setWord .count (← addOne (s.word .count))
  return (s, id)

def mint (s : Ledger) (id recipient : Bytes) (amount : ℕ) (nowMs : ℤ) : Except VmError Ledger := do
  let record ← s.knownToken id
  refuseWith (canReceive s id record recipient amount nowMs)
  match supplyAfterMint record.totalSupply record.maxSupply amount with
  | none => refuse "the mint exceeds the token's maximum supply"
  | some supply =>
    let s := s.writeToken id { record with totalSupply := supply }
    match checkedAdd (s.held id recipient) amount with
    | none => .error (.executionFailed "token balance overflow")
    | some held => return s.writeBalance id recipient held

/-- Spends only the part of the balance that is not frozen. -/
def burn (s : Ledger) (id holder : Bytes) (amount : ℕ) : Except VmError Ledger := do
  let record ← s.knownToken id
  ensure (s.halted id = false) (VmError.invalidTransaction "the token is halted")
  let held := s.held id holder
  let free := spendable held (s.frozen id holder)
  ensure (amount ≤ free)
    (VmError.invalidTransaction s!"the holder has {free} free of {held}, the burn is {amount}")
  let s := s.writeBalance id holder (held - amount)
  return s.writeToken id { record with totalSupply := record.totalSupply - amount }

def setFrozen (s : Ledger) (id owner : Bytes) (amount : ℕ) : Except VmError Ledger :=
  let held := s.balance id owner
  match freezeWithin amount held with
  | none => refuse s!"the holder has {held}, the freeze is {amount}"
  | some amount => .ok (s.setWord (.frozen id (ledgerAccount owner)) amount)

def setHalted (s : Ledger) (id : Bytes) (halted : Bool) : Ledger :=
  s.setWord (.halted id) (if halted then 1 else 0)

/-- The debit, then the credit of the recipient as read after it, so that a transfer to oneself
nets to zero. None when the sender holds less. -/
def moveBalance (s : Ledger) (token sender recipient : Bytes) (amount : ℕ) :
    Except VmError (Option Ledger) :=
  let before := s.balance token sender
  if before < amount then .ok none
  else
    let s := s.setBalance token sender (before - amount)
    match checkedAdd (s.balance token recipient) amount with
    | none => .error (.executionFailed "token balance overflow")
    | some after => .ok (some (s.setBalance token recipient after))

/-- Moves past a halt, a lockup or a freeze, which is lowered to what is left. -/
def forcedTransfer (s : Ledger) (id sender recipient : Bytes) (amount : ℕ) (nowMs : ℤ) :
    Except VmError Ledger := do
  let record ← s.knownToken id
  refuseWith (canReceive s id record recipient amount nowMs)
  match ← s.moveBalance id sender recipient amount with
  | none => refuse "the holder has less than the forced transfer"
  | some s =>
    let left := s.balance id sender
    let frozen := s.frozen id sender
    if frozenAfter frozen left ≠ frozen then
      return s.setWord (.frozen id (ledgerAccount sender)) left
    else return s

def transfer (s : Ledger) (token sender recipient : Bytes) (amount : ℕ) (nowMs : ℤ) :
    Except VmError (Option Ledger) := do
  refuseWith (canTransfer s token sender recipient amount nowMs)
  s.moveBalance token sender recipient amount

end Ledger

end

open Outcome

/-- The calling frame and the block it runs in. -/
structure PrecompileEnv where
  caller : Bytes
  value : ℕ
  canWrite : Bool
  /-- In seconds. -/
  blockTimestamp : ℕ
deriving DecidableEq, Repr

def saturatingMulSigned (w : ℕ) (a b : ℤ) : ℤ := max (-2 ^ (w - 1)) (min (a * b) (2 ^ (w - 1) - 1))

def PrecompileEnv.nowMs (env : PrecompileEnv) : ℤ :=
  saturatingMulSigned 64 (wrapSigned 64 env.blockTimestamp) 1000

def revert {α : Type} (msg : String) : Except VmError α := .error (.reverted msg)

/-- A uint256 argument, refused unless it fits a u128. -/
def decodeUint256 (w : ℕ) : Except VmError ℕ :=
  if w ≤ maxValue 128 then .ok w else revert "token factory: bad arguments"

/-- The calls of the factory that write. -/
inductive FactoryCall where
  | createToken (name symbol : String) (decimals supply : ℕ)
  | transfer (id recipient : Bytes) (amount : ℕ)
  | approve (id spender : Bytes) (amount : ℕ)
  | transferFrom (id sender recipient : Bytes) (amount : ℕ)
  | setFrozenTokens (id account : Bytes) (amount : ℕ)
  | forcedTransfer (id sender recipient : Bytes) (amount : ℕ)
deriving DecidableEq, Repr

/-- The calls of a facade that write: the token id is the facade's. -/
inductive FacadeCall where
  | transfer (recipient : Bytes) (amount : ℕ)
  | approve (spender : Bytes) (amount : ℕ)
  | transferFrom (sender recipient : Bytes) (amount : ℕ)
  | setFrozenTokens (account : Bytes) (amount : ℕ)
  | forcedTransfer (sender recipient : Bytes) (amount : ℕ)
deriving DecidableEq, Repr

def FacadeCall.forward (id : Bytes) : FacadeCall → FactoryCall
  | .transfer recipient amount => .transfer id recipient amount
  | .approve spender amount => .approve id spender amount
  | .transferFrom sender recipient amount => .transferFrom id sender recipient amount
  | .setFrozenTokens account amount => .setFrozenTokens id account amount
  | .forcedTransfer sender recipient amount => .forcedTransfer id sender recipient amount

def noteHolder (s : Ledger) (id : Bytes) (before after : ℕ) : Ledger :=
  let holders := s.word (.holders id)
  let next := holdersAfter holders before after
  if next ≠ holders then s.setWord (.holders id) next else s

/-- The debit, then the credit of the recipient as read after it. -/
def moveHeld (s : Ledger) (id sender recipient : Bytes) (amount : ℕ) : Except VmError Ledger :=
  let fromBal := s.held id sender
  let s := s.setWord (.balance id (ledgerAccount sender)) (fromBal - amount)
  let s := noteHolder s id fromBal (fromBal - amount)
  let toBal := s.held id recipient
  match checkedAdd toBal amount with
  | none => .error (.precompileFailed "token balance overflow")
  | some newTo =>
    let s := s.setWord (.balance id (ledgerAccount recipient)) newTo
    .ok (noteHolder s id toBal newTo)

def issuerAlone (s : Ledger) (id : Bytes) (power : Power) (caller : Bytes) :
    Except VmError TokenRecord :=
  match s.record id with
  | none => revert "token factory: unknown token"
  | some record =>
    match record.powers.get power with
    | .issuer =>
      if record.creator = ledgerAccount caller then .ok record
      else revert "token factory: only the token's issuer may do this"
    | .disabled => revert s!"token factory: the token has no {power.debug} power"
    | .issuerCouncil k =>
      revert s!"token factory: this power needs {k} issuer-council approvals through the Token transaction"

section
variable [FactoryHash]

/-- A holder's transfer, by the holder or a spender it approved. -/
def moveTokens (s : Ledger) (env : PrecompileEnv) (id sender recipient : Bytes) (amount : ℕ) :
    Except VmError Ledger :=
  if s.held id sender < amount then revert "token factory: insufficient balance"
  else
    match canTransfer s id sender recipient amount env.nowMs with
    | .error refusal => revert s!"token factory: {refusal.text}"
    | .ok () => moveHeld s id sender recipient amount

def createToken (s : Ledger) (env : PrecompileEnv) (name symbol : String)
    (decimals supply : ℕ) : Except VmError Ledger := do
  let decimals ← decodeUint256 decimals
  let supply ← decodeUint256 supply
  ensure (name ≠ "" ∧ symbol ≠ "" ∧ name.utf8ByteSize ≤ 64 ∧ symbol.utf8ByteSize ≤ 64 ∧
      decimals ≤ 36)
    (VmError.reverted "token factory: invalid name, symbol or decimals")
  let creator := ledgerAccount env.caller
  let nonce := s.word (.nonce creator)
  let s := s.setWord (.nonce creator) (← addOne nonce)
  let id := FactoryHash.tokenId creator nonce
  let s := s.writeToken id
    { name, symbol, decimals, totalSupply := supply, creator := env.caller, maxSupply := some supply,
      powers := .none, policy := {} }
  let s := { s with facade := update s.facade (FactoryHash.facadeAddress id) id }
  let s := s.setWord (.balance id creator) supply
  let s := noteHolder s id 0 supply
  return s.setWord .count (← addOne (s.word .count))

def approve (s : Ledger) (env : PrecompileEnv) (id spender : Bytes) (amount : ℕ) :
    Except VmError Ledger := do
  let amount ← decodeUint256 amount
  return s.setWord (.allowance id env.caller spender) amount

def transferFrom (s : Ledger) (env : PrecompileEnv) (id sender recipient : Bytes) (amount : ℕ) :
    Except VmError Ledger := do
  let amount ← decodeUint256 amount
  let slot := Slot.allowance id sender env.caller
  let allowed := s.word slot
  ensure (amount ≤ allowed) (VmError.reverted "token factory: allowance exceeded")
  -- the largest allowance is never spent
  let s := if allowed ≠ maxValue 128 then s.setWord slot (allowed - amount) else s
  moveTokens s env id sender recipient amount

def setFrozenTokens (s : Ledger) (env : PrecompileEnv) (id account : Bytes) (amount : ℕ) :
    Except VmError Ledger := do
  let amount ← decodeUint256 amount
  let _ ← issuerAlone s id .freeze env.caller
  let held := s.held id account
  match freezeWithin amount held with
  | none => revert s!"token factory: the holder has {held}, the freeze is {amount}"
  | some amount => return s.setWord (.frozen id (ledgerAccount account)) amount

/-- The rule of the native forced transfer. What is left is read after the credit, so that a
forced transfer to the holder itself keeps its freeze. -/
def forcedTransfer (s : Ledger) (env : PrecompileEnv) (id sender recipient : Bytes) (amount : ℕ) :
    Except VmError Ledger := do
  let amount ← decodeUint256 amount
  let record ← issuerAlone s id .force env.caller
  match canReceive s id record recipient amount env.nowMs with
  | .error refusal => revert s!"token factory: {refusal.text}"
  | .ok () => do
    ensure (amount ≤ s.held id sender)
      (VmError.reverted "token factory: the holder has less than the forced transfer")
    let s ← moveHeld s id sender recipient amount
    let left := s.held id sender
    let frozen := s.frozen id sender
    if frozenAfter frozen left ≠ frozen then
      return s.setWord (.frozen id (ledgerAccount sender)) left
    else return s

def FactoryCall.run (s : Ledger) (env : PrecompileEnv) : FactoryCall → Except VmError Ledger
  | .createToken name symbol decimals supply => Token.createToken s env name symbol decimals supply
  | .transfer id recipient amount => do
    let amount ← decodeUint256 amount
    if s.record id = none then revert "token factory: unknown token"
    else moveTokens s env id env.caller recipient amount
  | .approve id spender amount => Token.approve s env id spender amount
  | .transferFrom id sender recipient amount => Token.transferFrom s env id sender recipient amount
  | .setFrozenTokens id account amount => Token.setFrozenTokens s env id account amount
  | .forcedTransfer id sender recipient amount => Token.forcedTransfer s env id sender recipient amount

def tokenFactoryPrecompile (s : Ledger) (env : PrecompileEnv) (call : FactoryCall) :
    Except VmError Ledger := do
  ensure (env.value = 0) (VmError.reverted "token factory: send no value")
  ensure (env.canWrite = true)
    (VmError.precompileFailed "state-changing precompile call in a static or read-only context")
  call.run s env

def tokenFacadePrecompile (s : Ledger) (env : PrecompileEnv) (address : Bytes) (call : FacadeCall) :
    Except VmError Ledger :=
  let id := s.facade address
  if id = List.replicate 32 0 then revert "token facade: no token at this address"
  else if s.record id = none then .error (.internal "facade names a missing token")
  else tokenFactoryPrecompile s env (call.forward id)

end
end Tenzro.Token
