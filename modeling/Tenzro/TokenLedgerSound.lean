import Tenzro.TokenSteps
import Tenzro.Books

set_option autoImplicit false
set_option linter.dupNamespace false

/-!
# The token ledger keeps its books

Over runs of native operations and factory calls, each token's words are a book of balances:
they sum to the supply, no freeze exceeds a balance, and the holders are counted.
-/
namespace Tenzro.Token
open FixedWidth Outcome Function List

/-- The ledger's words of a token are the book, and its record tells the supply. -/
structure TokenView.Keeps (v : TokenView) (b : Book Bytes) : Prop where
  balance : ∀ a, v.balance a = b.balance a
  frozen : ∀ a, v.frozen a = b.frozen a
  holders : v.holders = b.holders
  unknown : v.record = none → b.supply = 0
  supply : ∀ r, v.record = some r → r.totalSupply = b.supply
  fits : ∀ r, v.record = some r → r.totalSupply ≤ maxValue 128
  within : ∀ r, v.record = some r → ∀ m, r.maxSupply = some m → r.totalSupply ≤ m

/-- The words of a token but its record and freezes. -/
structure TokenView.Holds (v : TokenView) (f : Bytes →₀ ℕ) : Prop where
  balance : ∀ a, v.balance a = f a
  holders : v.holders = f.support.card

section
variable {v : TokenView} {b : Book Bytes} {f : Bytes →₀ ℕ} {a c : Bytes} {n : ℕ} {r : TokenRecord}

theorem TokenView.Holds.setBalance (h : v.Holds f) : (v.setBalance a n).Holds (f.update a n) where
  balance x := by
    by_cases same : x = a
    · subst same
      rw [Book.update_self]
      exact update_self ..
    · rw [Book.update_of_ne same, ← h.balance x]
      exact update_of_ne same ..
  holders := by
    rw [Book.card_support_update, ← h.balance a, ← h.holders]
    rfl

theorem TokenView.Holds.move (h : v.Holds f) : (v.move a c n).Holds (Book.moved f a c n) := by
  have debit := h.setBalance (a := a) (n := f a - n)
  have credit := debit.setBalance (a := c) (n := f.update a (f a - n) c + n)
  have read : (v.setBalance a (f a - n)).balance c = f.update a (f a - n) c := debit.balance c
  unfold TokenView.move Book.moved
  simp only [h.balance a, read]
  exact credit

theorem TokenView.Keeps.holds (h : v.Keeps b) : v.Holds b.balance := ⟨h.balance, h.holders⟩

theorem TokenView.Keeps.spendable (h : v.Keeps b) :
    Token.spendable (v.balance a) (v.frozen a) = b.free a := by
  have covered := b.covered a
  unfold Token.spendable Book.free
  rw [h.balance, h.frozen]
  omega

theorem TokenView.Keeps.step {v' : TokenView} (h : v.Keeps b) (step : TokenStep v v') :
    ∃ b' : Book Bytes, v'.Keeps b' := by
  cases step with
  | still => exact ⟨b, h⟩
  | mints a n r record fits within =>
    have holds := h.holds.setBalance (a := a) (n := v.balance a + n)
    have supply := h.supply r record
    rw [h.balance a] at holds
    refine ⟨b.issue a n, ⟨?_, h.frozen, ?_, by rintro ⟨⟩, ?_, ?_, ?_⟩⟩
    · rw [h.balance a]
      exact holds.balance
    · rw [h.balance a]
      exact holds.holders
    · rintro _ ⟨⟩
      rw [Book.supply_issue, ← supply]
    · rintro _ ⟨⟩
      exact fits
    · rintro _ ⟨⟩ m max
      exact within m max
  | burns a n r record free =>
    rw [h.spendable] at free
    have holds := h.holds.setBalance (a := a) (n := v.balance a - n)
    have supply := h.supply r record
    have left := Book.supply_retire free
    rw [h.balance a] at holds
    refine ⟨b.retire a n free, ⟨?_, h.frozen, ?_, by rintro ⟨⟩, ?_, ?_, ?_⟩⟩
    · rw [h.balance a]
      exact holds.balance
    · rw [h.balance a]
      exact holds.holders
    · rintro _ ⟨⟩
      change r.totalSupply - n = _
      omega
    · rintro _ ⟨⟩
      exact (Nat.sub_le _ _).trans (h.fits r record)
    · rintro _ ⟨⟩ m max
      exact (Nat.sub_le _ _).trans (h.within r record m max)
  | sends a c n free =>
    rw [h.spendable] at free
    have holds := h.holds.move (a := a) (c := c) (n := n)
    have supply : (b.send a c n free).supply = b.supply := Book.supply_send free
    refine ⟨b.send a c n free, ⟨holds.balance, h.frozen, holds.holders, ?_, ?_, h.fits, h.within⟩⟩
    · rw [supply]
      exact h.unknown
    · rw [supply]
      exact h.supply
  | seizes a c n enough =>
    have holds := h.holds.move (a := a) (c := c) (n := n)
    rw [h.balance a] at enough
    have supply : (b.seize a c n).supply = b.supply := Book.supply_seize enough
    refine ⟨b.seize a c n, ⟨holds.balance, fun x => ?_, holds.holders, ?_, ?_, h.fits, h.within⟩⟩
    · have frozen : v.frozen = b.frozen := funext h.frozen
      change update v.frozen a _ x = update b.frozen a _ x
      rw [frozen, holds.balance a]
    · rw [supply]
      exact h.unknown
    · rw [supply]
      exact h.supply
  | freezes a n enough =>
    rw [h.balance a] at enough
    refine ⟨b.freeze a n enough, ⟨h.balance, fun x => ?_, h.holders, h.unknown, h.supply, h.fits,
      h.within⟩⟩
    have frozen : v.frozen = b.frozen := funext h.frozen
    change update v.frozen a n x = update b.frozen a n x
    rw [frozen]

theorem TokenStep.record {v' : TokenView} (step : TokenStep v v') :
    v'.record = none ↔ v.record = none := by
  cases step with
  | mints a n r record => simp [TokenView.setBalance, TokenView.setRecord, record]
  | burns a n r record => simp [TokenView.setRecord, record]
  | _ => rfl

theorem TokenView.Keeps.create (h : v.Keeps b) (unknown : v.record = none)
    (fits : r.totalSupply ≤ maxValue 128) (within : ∀ m, r.maxSupply = some m → r.totalSupply ≤ m) :
    ((v.setRecord r).setBalance a r.totalSupply).Keeps (b.issue a r.totalSupply) := by
  have nothing := h.unknown unknown
  have none : b.balance a = 0 := Book.balance_eq_zero nothing a
  have holds := h.holds.setBalance (a := a) (n := r.totalSupply)
  have credited : b.balance.update a (b.balance a + r.totalSupply) =
      b.balance.update a r.totalSupply := by rw [none, Nat.zero_add]
  rw [← credited] at holds
  refine ⟨holds.balance, h.frozen, holds.holders, by rintro ⟨⟩, ?_, ?_, ?_⟩
  · rintro _ ⟨⟩
    rw [Book.supply_issue, nothing, Nat.zero_add]
  · rintro _ ⟨⟩
    exact fits
  · rintro _ ⟨⟩
    exact within

/-! ### What is recorded of a token -/

/-- What holds of a token's words and its record. -/
structure TokenSound (s : Ledger) (id : Bytes) (r : TokenRecord) : Prop where
  finite : (Function.support fun a => s.word (.balance id a)).Finite
  sum : ∑ᶠ a, s.word (.balance id a) = r.totalSupply
  fits : r.totalSupply ≤ maxValue 128
  within : ∀ m, r.maxSupply = some m → r.totalSupply ≤ m
  frozen : ∀ a, s.word (.frozen id a) ≤ s.word (.balance id a)
  holders : s.word (.holders id) = (Function.support fun a => s.word (.balance id a)).ncard

theorem TokenView.Keeps.sound {s : Ledger} {id : Bytes} {b : Book Bytes} {r : TokenRecord}
    (h : (s.token id).Keeps b) (record : s.record id = some r) : TokenSound s id r := by
  have balances : (fun a => s.word (.balance id a)) = b.balance := funext h.balance
  have support : (Function.support fun a => s.word (.balance id a)) = b.balance.support := by
    rw [balances, Finsupp.fun_support_eq]
  constructor
  case finite =>
    rw [support]
    exact b.balance.support.finite_toSet
  case sum =>
    rw [h.supply r record]
    exact finsum_eq_sum_of_support_subset _ support.subset |>.trans
      (Finset.sum_congr rfl fun a _ => h.balance a)
  case fits => exact h.fits r record
  case within => exact h.within r record
  case frozen =>
    intro a
    have covered := b.covered a
    rwa [← h.balance, ← h.frozen] at covered
  case holders =>
    rw [support, Set.ncard_coe_finset]
    exact h.holders

end

/-! ### The whole ledger -/

section
variable [FactoryHash]

/-- Every token has its book, and every known token is one some creator numbered. -/
structure Kept (s : Ledger) : Prop where
  books : ∀ id, id ≠ FactoryHash.tnzoId → ∃ b : Book Bytes, (s.token id).Keeps b
  ids : ∀ id, s.record id ≠ none →
    ∃ creator n, id = FactoryHash.tokenId creator n ∧ n < s.word (.nonce creator)

/-- What a call that goes through does: one token steps, only what is kept for native TNZO
changes, or a token is created. -/
inductive CallStep (s s' : Ledger) : Prop where
  | one (id : Bytes) (step : TokenStep (s.token id) (s'.token id)) (only : Only s s' id)
  | native (record : s'.record FactoryHash.tnzoId = s.record FactoryHash.tnzoId)
      (only : Only s s' FactoryHash.tnzoId)
  | created (creator : Bytes) (r : TokenRecord) (fits : r.totalSupply ≤ maxValue 128)
      (made : Created s s' creator r)

variable {s s' : Ledger}

theorem Kept.ids_of {id : Bytes} (h : Kept s) (record : s'.record id = none ↔ s.record id = none)
    (only : Only s s' id) (x : Bytes) (known : s'.record x ≠ none) :
    ∃ creator n, x = FactoryHash.tokenId creator n ∧ n < s'.word (.nonce creator) := by
  have before : s.record x ≠ none := by
    by_cases same : x = id
    · subst same
      exact fun unknown => known (record.2 unknown)
    · have kept : s'.record x = s.record x := congrArg TokenView.record (only.others x same)
      rwa [← kept]
  obtain ⟨creator, n, rfl, numbered⟩ := h.ids x before
  exact ⟨creator, n, rfl, by rwa [only.nonce]⟩

theorem Kept.step (h : Kept s) (step : CallStep s s') : Kept s' := by
  cases step with
  | one id step only =>
    refine ⟨fun x factory => ?_, h.ids_of step.record only⟩
    by_cases same : x = id
    · subst same
      obtain ⟨b, keeps⟩ := h.books x factory
      exact keeps.step step
    · rw [only.others x same]
      exact h.books x factory
  | native record only =>
    refine ⟨fun x factory => ?_, h.ids_of (by rw [record]) only⟩
    rw [only.others x factory]
    exact h.books x factory
  | created creator r fits made =>
    have nonce (c : Bytes) : s.word (.nonce c) ≤ s'.word (.nonce c) := by
      by_cases same : c = creator
      · subst same
        rw [made.nonce]
        omega
      · rw [made.nonces c same]
    have unknown : s.record (FactoryHash.tokenId creator (s.word (.nonce creator))) = none := by
      by_contra known
      obtain ⟨c, n, same, numbered⟩ := h.ids _ known
      obtain ⟨rfl, rfl⟩ := FactoryHash.tokenId_injective same
      exact lt_irrefl _ numbered
    constructor
    case books =>
      intro x factory
      by_cases same : x = FactoryHash.tokenId creator (s.word (.nonce creator))
      · subst same
        obtain ⟨b, keeps⟩ := h.books _ factory
        have nothing := keeps.unknown unknown
        have fresh := keeps.balance creator
        rw [Book.balance_eq_zero nothing] at fresh
        rw [made.token fresh]
        exact ⟨_, keeps.create unknown fits made.within⟩
      · rw [made.others x same]
        exact h.books x factory
    case ids =>
      intro x known
      by_cases same : x = FactoryHash.tokenId creator (s.word (.nonce creator))
      · subst same
        refine ⟨creator, _, rfl, ?_⟩
        rw [made.nonce]
        omega
      · have kept : s'.record x = s.record x := congrArg TokenView.record (made.others x same)
        rw [kept] at known
        obtain ⟨c, n, rfl, numbered⟩ := h.ids x known
        exact ⟨c, n, rfl, numbered.trans_le (nonce c)⟩

/-! ### Calls and runs -/

inductive NativeOp where
  | create (creator : Bytes) (spec : TokenRecord)
  | mint (id recipient : Bytes) (amount : ℕ)
  | burn (id holder : Bytes) (amount : ℕ)
  | transfer (id sender recipient : Bytes) (amount : ℕ)
  | forcedTransfer (id sender recipient : Bytes) (amount : ℕ)
  | setFrozen (id owner : Bytes) (amount : ℕ)
  | setHalted (id : Bytes) (halted : Bool)
deriving DecidableEq, Repr

def NativeOp.run (s : Ledger) (nowMs : ℤ) : NativeOp → Except VmError Ledger
  | .create creator spec => Prod.fst <$> s.create creator spec
  | .mint id recipient amount => s.mint id recipient amount nowMs
  | .burn id holder amount => s.burn id holder amount
  | .transfer id sender recipient amount => do
    match ← s.transfer id sender recipient amount nowMs with
    | none => refuse "the sender holds less than the transfer"
    | some s => return s
  | .forcedTransfer id sender recipient amount =>
    s.forcedTransfer id sender recipient amount nowMs
  | .setFrozen id owner amount => s.setFrozen id owner amount
  | .setHalted id halted => .ok (s.setHalted id halted)

inductive Call where
  | native (nowMs : ℤ) (op : NativeOp)
  | factory (env : PrecompileEnv) (call : FactoryCall)
  | facade (env : PrecompileEnv) (address : Bytes) (call : FacadeCall)
deriving DecidableEq, Repr

def Call.run (s : Ledger) : Call → Except VmError Ledger
  | .native nowMs op => op.run s nowMs
  | .factory env call => tokenFactoryPrecompile s env call
  | .facade env address call => tokenFacadePrecompile s env address call

def Call.perform (s : Ledger) (c : Call) : Ledger :=
  match c.run s with
  | .ok s' => s'
  | .error _ => s

def Call.Typed : Call → Prop
  | .native _ (.create _ spec) => spec.totalSupply ≤ maxValue 128
  | _ => True

def FactoryCall.spends (env : PrecompileEnv) : FactoryCall → Option (Bytes × Bytes × ℕ)
  | .transfer id _ amount => some (id, env.caller, amount)
  | .transferFrom id sender _ amount => some (id, sender, amount)
  | _ => none

def Call.spends (s : Ledger) : Call → Option (Bytes × Bytes × ℕ)
  | .native _ (.burn id holder amount) => some (id, holder, amount)
  | .native _ (.transfer id sender _ amount) => some (id, sender, amount)
  | .factory env call => call.spends env
  | .facade env address call => (call.forward (s.facade address)).spends env
  | _ => none

/-- Nothing is recorded. -/
structure Ledger.Genesis (s : Ledger) : Prop where
  word : ∀ slot, s.word slot = 0
  record : ∀ id, s.record id = none

/-- The runs of calls. Beside them the claims, the identities and the native balances change
as they like. -/
inductive Run : Ledger → Prop where
  | genesis {s : Ledger} (nothing : s.Genesis) : Run s
  | call {s : Ledger} (run : Run s) (c : Call) (typed : c.Typed) : Run (c.perform s)
  | beside {s : Ledger} (run : Run s)
      (claim : Bytes → Bytes → String → String → Option Claim) (native : Bytes → ℕ)
      (system : SystemView) : Run { s with claim, native, system }

theorem Kept.tnzo_unknown (h : Kept s) : s.record FactoryHash.tnzoId = none := by
  by_contra known
  obtain ⟨creator, n, same, -⟩ := h.ids _ known
  exact FactoryHash.tokenId_ne_tnzo creator n same.symm

theorem Kept.factory {id : Bytes} (h : Kept s) (known : s.record id ≠ none) :
    id ≠ FactoryHash.tnzoId := by
  rintro rfl
  exact known h.tnzo_unknown

theorem moveBalance_native {a c : Bytes} {n : ℕ}
    (ok : s.moveBalance FactoryHash.tnzoId a c n = .ok (some s')) :
    s'.word = s.word ∧ s'.record = s.record := by
  unfold Ledger.moveBalance at ok
  simp only [Ledger.setBalance, if_true] at ok
  split_ifs at ok with short
  · cases ok
  · split at ok
    · cases ok
    · cases ok
      exact ⟨rfl, rfl⟩

theorem NativeOp.step {op : NativeOp} {nowMs : ℤ} (h : Kept s)
    (typed : (Call.native nowMs op).Typed) (ok : op.run s nowMs = .ok s') : CallStep s s' := by
  cases op with
  | create creator spec =>
    obtain ⟨⟨s₁, id⟩, made, rfl⟩ := map_ok.1 ok
    exact .created _ { spec with creator := ledgerAccount creator } typed (create_ok made)
  | mint id recipient amount =>
    obtain ⟨r, record, fits, within, token, only⟩ := Ledger.mint_ok ok
    refine .one id ?_ only
    rw [token]
    exact .mints _ _ r record fits within
  | burn id holder amount =>
    obtain ⟨r, record, free, token, only⟩ := Ledger.burn_ok ok
    refine .one id ?_ only
    rw [token]
    exact .burns _ _ r record free
  | transfer id sender recipient amount =>
    obtain ⟨moved, transfer, ok⟩ := bind_ok.1 ok
    cases moved with
    | none => cases ok
    | some s₁ =>
      cases pure_ok.1 ok
      by_cases factory : id = FactoryHash.tnzoId
      · subst factory
        obtain ⟨⟨⟩, -, move⟩ := bind_ok.1 transfer
        obtain ⟨word, record⟩ := moveBalance_native move
        refine .native (by rw [record]) ⟨fun other _ => ?_, fun c => by rw [word]⟩
        simp only [Ledger.token, word, record]
      · obtain ⟨free, token, only⟩ := Ledger.transfer_ok factory transfer
        refine .one id ?_ only
        rw [token]
        exact .sends _ _ _ free
  | forcedTransfer id sender recipient amount =>
    have known : s.record id ≠ none := by
      obtain ⟨r, known, -⟩ := bind_ok.1 ok
      simp [knownToken_ok.1 known]
    obtain ⟨-, step, only⟩ := Ledger.forcedTransfer_ok (h.factory known) ok
    exact .one id step only
  | setFrozen id owner amount =>
    obtain ⟨enough, token, only⟩ := Ledger.setFrozen_ok ok
    by_cases factory : id = FactoryHash.tnzoId
    · subst factory
      have record : s'.record FactoryHash.tnzoId = s.record FactoryHash.tnzoId :=
        congrArg TokenView.record token
      exact .native record only
    · rw [balance_eq factory] at enough
      refine .one id ?_ only
      rw [token]
      exact .freezes _ _ enough
  | setHalted id halted =>
    cases ok
    have beside : (Slot.halted id).Beside := trivial
    refine .one id ?_ (only_setWord beside)
    rw [Ledger.setHalted, token_setWord beside]
    exact .still

theorem FactoryCall.step {call : FactoryCall} {env : PrecompileEnv} (h : Kept s)
    (ok : call.run s env = .ok s') : CallStep s s' := by
  cases call with
  | createToken name symbol decimals supply =>
    obtain ⟨fits, r, rfl, made⟩ := createToken_ok ok
    exact .created _ r fits made
  | transfer id recipient amount =>
    obtain ⟨m, decoded, ok⟩ := bind_ok.1 ok
    obtain ⟨rfl, -⟩ := decodeUint256_ok decoded
    unfold revert at ok
    split_ifs at ok with known
    obtain ⟨free, token, only⟩ := moveTokens_ok ok
    refine .one id ?_ only
    rw [token]
    exact .sends _ _ _ (free (h.factory known))
  | approve id spender amount =>
    obtain ⟨token, only⟩ := approve_ok ok
    refine .one id ?_ only
    rw [token]
    exact .still
  | transferFrom id sender recipient amount =>
    obtain ⟨free, token, only⟩ := transferFrom_ok ok
    by_cases factory : id = FactoryHash.tnzoId
    · subst factory
      have record : s'.record FactoryHash.tnzoId = s.record FactoryHash.tnzoId :=
        congrArg TokenView.record token
      exact .native record only
    · refine .one id ?_ only
      rw [token]
      exact .sends _ _ _ (free factory)
  | setFrozenTokens id account amount =>
    obtain ⟨-, enough, token, only⟩ := setFrozenTokens_ok ok
    refine .one id ?_ only
    rw [token]
    exact .freezes _ _ enough
  | forcedTransfer id sender recipient amount =>
    obtain ⟨-, step, only⟩ := forcedTransfer_ok ok
    exact .one id step only

theorem tokenFactoryPrecompile_ok {call : FactoryCall} {env : PrecompileEnv}
    (ok : tokenFactoryPrecompile s env call = .ok s') : call.run s env = .ok s' := by
  obtain ⟨⟨⟩, -, ok⟩ := bind_ok.1 ok
  obtain ⟨⟨⟩, -, ok⟩ := bind_ok.1 ok
  exact ok

theorem tokenFacadePrecompile_ok {call : FacadeCall} {env : PrecompileEnv} {address : Bytes}
    (ok : tokenFacadePrecompile s env address call = .ok s') :
    (call.forward (s.facade address)).run s env = .ok s' := by
  unfold tokenFacadePrecompile revert at ok
  simp only at ok
  split_ifs at ok
  exact tokenFactoryPrecompile_ok ok

theorem Call.step {c : Call} (h : Kept s) (typed : c.Typed) (ok : c.run s = .ok s') :
    CallStep s s' := by
  cases c with
  | native nowMs op => exact NativeOp.step h typed ok
  | factory env call => exact FactoryCall.step h (tokenFactoryPrecompile_ok ok)
  | facade env address call => exact FactoryCall.step h (tokenFacadePrecompile_ok ok)

theorem Run.kept (run : Run s) : Kept s := by
  induction run with
  | genesis nothing =>
    refine ⟨fun id _ => ⟨.empty, ?_⟩, fun id known => absurd (nothing.record id) known⟩
    have record := nothing.record id
    refine ⟨fun a => nothing.word _, fun a => nothing.word _, nothing.word _, fun _ => rfl, ?_, ?_, ?_⟩
    all_goals
      intro r known
      simp [Ledger.token, record] at known
  | @call s run c typed ih =>
    unfold Call.perform
    cases result : c.run s with
    | error e => exact ih
    | ok s' => exact ih.step (Call.step ih typed result)
  | beside run claim native system ih => exact ⟨ih.books, ih.ids⟩

/-! ### Holders -/

/-- What a holder moved or burned was free, and no freeze changed. -/
structure Spends (s s' : Ledger) (id holder : Bytes) (amount : ℕ) : Prop where
  free : amount + s.frozen id holder ≤ s.held id holder
  frozen : ∀ a, s'.frozen id a = s.frozen id a

theorem Spends.of {id holder : Bytes} {amount : ℕ} {v : TokenView} (h : Kept s)
    (factory : id ≠ FactoryHash.tnzoId) (token : s'.token id = v)
    (same : v.frozen = (s.token id).frozen)
    (free : amount ≤ spendable (s.held id holder) (s.frozen id holder)) :
    Spends s s' id holder amount := by
  obtain ⟨b, keeps⟩ := h.books id factory
  have covered := b.covered (ledgerAccount holder)
  rw [← keeps.balance, ← keeps.frozen, ← held_eq, ← frozen_eq] at covered
  constructor
  case free =>
    unfold spendable at free
    omega
  case frozen =>
    intro a
    rw [frozen_eq, token, same, ← frozen_eq]

theorem FactoryCall.spends_free {call : FactoryCall} {env : PrecompileEnv} {id holder : Bytes}
    {amount : ℕ} (h : Kept s) (factory : id ≠ FactoryHash.tnzoId) (ok : call.run s env = .ok s')
    (spends : call.spends env = some (id, holder, amount)) : Spends s s' id holder amount := by
  cases call with
  | transfer _ recipient _ =>
    cases spends
    obtain ⟨m, decoded, ok⟩ := bind_ok.1 ok
    obtain ⟨rfl, -⟩ := decodeUint256_ok decoded
    unfold revert at ok
    split_ifs at ok
    obtain ⟨free, token, -⟩ := moveTokens_ok ok
    exact .of h factory token rfl (free factory)
  | transferFrom _ sender recipient _ =>
    cases spends
    obtain ⟨free, token, -⟩ := transferFrom_ok ok
    exact .of h factory token rfl (free factory)
  | _ => cases spends

theorem Call.spends_free {c : Call} {id holder : Bytes} {amount : ℕ} (h : Kept s)
    (factory : id ≠ FactoryHash.tnzoId) (ok : c.run s = .ok s')
    (spends : c.spends s = some (id, holder, amount)) : Spends s s' id holder amount := by
  cases c with
  | native nowMs op =>
    cases op with
    | burn _ _ _ =>
      cases spends
      obtain ⟨r, -, free, token, -⟩ := Ledger.burn_ok ok
      exact .of h factory token rfl free
    | transfer _ _ recipient _ =>
      cases spends
      obtain ⟨moved, transfer, ok⟩ := bind_ok.1 ok
      cases moved with
      | none => cases ok
      | some s₁ =>
        cases pure_ok.1 ok
        obtain ⟨free, token, -⟩ := Ledger.transfer_ok factory transfer
        exact .of h factory token rfl free
    | _ => cases spends
  | factory env call =>
    exact FactoryCall.spends_free h factory (tokenFactoryPrecompile_ok ok) spends
  | facade env address call =>
    exact FactoryCall.spends_free h factory (tokenFacadePrecompile_ok ok) spends

/-- In every run balances sum to the supply, within its maximum; no freeze exceeds a balance;
holders are counted; and no holder's own transfer or burn reaches its frozen part. -/
theorem token_ledger_sound (run : Run s) :
    (∀ id r, s.record id = some r → TokenSound s id r) ∧
      ∀ (c : Call) s' id holder amount, c.run s = .ok s' → c.spends s = some (id, holder, amount) →
        s.record id ≠ none → Spends s s' id holder amount := by
  have kept := run.kept
  constructor
  · intro id r record
    have known : s.record id ≠ none := by simp [record]
    obtain ⟨b, keeps⟩ := kept.books id (kept.factory known)
    exact keeps.sound record
  · intro c s' id holder amount ok spends known
    exact Call.spends_free kept (kept.factory known) ok spends

end

/-! ### A token in both views -/

namespace BothViews

theorem replicate_injective {a b : Bytes} {m n : ℕ}
    (h : replicate m (1 : UInt8) ++ 0 :: a = replicate n 1 ++ 0 :: b) : a = b ∧ m = n := by
  induction m generalizing n with
  | zero =>
    cases n with
    | zero => simpa using h
    | succ n => simp [replicate_succ] at h
  | succ m ih =>
    cases n with
    | zero => simp [replicate_succ] at h
    | succ n =>
      simp only [replicate_succ, cons_append, List.cons.injEq, true_and] at h
      obtain ⟨same, count⟩ := ih h
      exact ⟨same, congrArg Nat.succ count⟩

@[reducible] def hash : FactoryHash where
  tokenId a n := replicate n 1 ++ 0 :: a
  tokenId_injective := replicate_injective
  tnzoId := []
  tokenId_ne_tnzo a n := by simp
  facadeAddress := id

attribute [local instance] hash

def genesis : Ledger where
  word _ := 0
  record _ := none
  facade _ := replicate 32 0
  claim _ _ _ _ := none
  native _ := 0
  system := ⟨fun _ => none, fun _ => none⟩

def issuer : Bytes := replicate 20 7

def buyer : Bytes := replicate 20 8

/-- A native creation under the issuer's 32-byte spelling. -/
def create : Call :=
  .native 0 (.create (issuer ++ replicate 12 0)
    ⟨"Coin", "COIN", 6, 100, [], some 100, .none, {}⟩)

def token : Bytes := 0 :: issuer

def pay : Call := .facade ⟨issuer, 0, true, 1⟩ token (.transfer buyer 40)

def after : Ledger := pay.perform (create.perform genesis)

theorem run : Run after :=
  ((Run.genesis ⟨fun _ => rfl, fun _ => rfl⟩).call create
    (show (100 : ℕ) ≤ maxValue 128 by decide)).call pay trivial

def record : TokenRecord := ⟨"Coin", "COIN", 6, 100, issuer, some 100, .none, {}⟩

/-- The native supply of 100, of which the facade moved 40. -/
theorem token_ledger_sound_both : TokenSound after token record ∧ after.held token issuer = 60 ∧
    after.held token buyer = 40 :=
  ⟨(token_ledger_sound run).1 token record (by decide), by decide,
    by decide⟩

end BothViews
end Tenzro.Token
