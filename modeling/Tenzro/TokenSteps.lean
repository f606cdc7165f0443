import Tenzro.TokenLedger

set_option autoImplicit false
set_option linter.dupNamespace false

/-!
# What an operation does to its token

Each native operation and each factory call that goes through is one step of one token, and
leaves every other token alone.
-/
namespace Tenzro.Token
open FixedWidth Outcome Function

structure TokenView where
  balance : Bytes → ℕ
  frozen : Bytes → ℕ
  holders : ℕ
  record : Option TokenRecord

def Ledger.token (s : Ledger) (id : Bytes) : TokenView where
  balance a := s.word (.balance id a)
  frozen a := s.word (.frozen id a)
  holders := s.word (.holders id)
  record := s.record id

namespace TokenView

def setBalance (v : TokenView) (a : Bytes) (n : ℕ) : TokenView :=
  { v with balance := update v.balance a n,
           holders := holdersAfter v.holders (v.balance a) n }

def setFrozen (v : TokenView) (a : Bytes) (n : ℕ) : TokenView :=
  { v with frozen := update v.frozen a n }

def setRecord (v : TokenView) (r : TokenRecord) : TokenView := { v with record := some r }

def move (v : TokenView) (a c : Bytes) (n : ℕ) : TokenView :=
  let w := v.setBalance a (v.balance a - n)
  w.setBalance c (w.balance c + n)

end TokenView

/-- What an operation may do to a token. -/
inductive TokenStep (v : TokenView) : TokenView → Prop where
  | still : TokenStep v v
  | mints (a : Bytes) (n : ℕ) (r : TokenRecord) (record : v.record = some r)
      (fits : r.totalSupply + n ≤ maxValue 128)
      (within : ∀ m, r.maxSupply = some m → r.totalSupply + n ≤ m) :
      TokenStep v ((v.setRecord { r with totalSupply := r.totalSupply + n }).setBalance a
        (v.balance a + n))
  | burns (a : Bytes) (n : ℕ) (r : TokenRecord) (record : v.record = some r)
      (free : n ≤ spendable (v.balance a) (v.frozen a)) :
      TokenStep v ((v.setBalance a (v.balance a - n)).setRecord
        { r with totalSupply := r.totalSupply - n })
  | sends (a c : Bytes) (n : ℕ) (free : n ≤ spendable (v.balance a) (v.frozen a)) :
      TokenStep v (v.move a c n)
  | seizes (a c : Bytes) (n : ℕ) (enough : n ≤ v.balance a) :
      TokenStep v ((v.move a c n).setFrozen a (min (v.frozen a) ((v.move a c n).balance a)))
  | freezes (a : Bytes) (n : ℕ) (enough : n ≤ v.balance a) : TokenStep v (v.setFrozen a n)

/-- Only the token moved, and no creation was counted. -/
structure Only (s s' : Ledger) (id : Bytes) : Prop where
  others : ∀ other, other ≠ id → s'.token other = s.token other
  nonce : ∀ c, s'.word (.nonce c) = s.word (.nonce c)

/-! ### Writes -/

section
variable {s s₁ s₂ : Ledger} {id other a c : Bytes} {n : ℕ} {r : TokenRecord}

theorem Only.refl : Only s s id := ⟨fun _ _ => rfl, fun _ => rfl⟩

theorem Only.trans (first : Only s s₁ id) (second : Only s₁ s₂ id) : Only s s₂ id :=
  ⟨fun x h => (second.others x h).trans (first.others x h),
    fun x => (second.nonce x).trans (first.nonce x)⟩

theorem token_writeToken : (s.writeToken id r).token id = (s.token id).setRecord r := by
  simp [Ledger.token, Ledger.writeToken, TokenView.setRecord]

theorem only_writeToken : Only s (s.writeToken id r) id where
  others x h := by simp [Ledger.token, Ledger.writeToken, h]
  nonce _ := rfl

theorem token_setFrozen :
    (s.setWord (.frozen id a) n).token id = (s.token id).setFrozen a n := by
  simp only [Ledger.token, Ledger.setWord, TokenView.setFrozen, TokenView.mk.injEq]
  refine ⟨by simp, ?_, by simp, trivial⟩
  funext x
  by_cases same : x = a <;> simp [same]

theorem only_setFrozen : Only s (s.setWord (.frozen id a) n) id where
  others x h := by simp [Ledger.token, Ledger.setWord, h]
  nonce _ := by simp [Ledger.setWord]

theorem token_setBalance : (s.setWord (.balance id a) n).token id =
    { s.token id with balance := update (s.token id).balance a n } := by
  simp only [Ledger.token, Ledger.setWord, TokenView.mk.injEq]
  refine ⟨?_, by simp, by simp, trivial⟩
  funext x
  by_cases same : x = a <;> simp [same]

theorem only_setBalance : Only s (s.setWord (.balance id a) n) id where
  others x h := by simp [Ledger.token, Ledger.setWord, h]
  nonce _ := by simp [Ledger.setWord]

theorem token_noteHolder {before after : ℕ} : (noteHolder s id before after).token id =
    { s.token id with holders := holdersAfter (s.token id).holders before after } := by
  unfold noteHolder
  simp only
  split_ifs with moved
  · simp [Ledger.token, Ledger.setWord]
  · simp only [Ledger.token, TokenView.mk.injEq]
    exact ⟨trivial, trivial, (not_not.1 moved).symm, trivial⟩

theorem only_noteHolder {before after : ℕ} : Only s (noteHolder s id before after) id where
  others x h := by
    unfold noteHolder
    simp only
    split_ifs <;> simp [Ledger.token, Ledger.setWord, h]
  nonce x := by
    unfold noteHolder
    simp only
    split_ifs <;> simp [Ledger.setWord]

theorem writeBalance_eq : s.writeBalance id a n =
    noteHolder (s.setWord (.balance id (ledgerAccount a)) n) id (s.held id a) n := rfl

theorem token_writeBalance : (s.writeBalance id a n).token id =
    (s.token id).setBalance (ledgerAccount a) n := by
  rw [writeBalance_eq, token_noteHolder, token_setBalance]
  rfl

theorem only_writeBalance : Only s (s.writeBalance id a n) id :=
  only_setBalance.trans only_noteHolder

def Slot.Beside : Slot → Prop
  | .allowance .. | .halted _ | .count => True
  | _ => False

theorem token_setWord {slot : Slot} (beside : slot.Beside) :
    (s.setWord slot n).token id = s.token id := by
  cases slot <;> simp_all [Slot.Beside, Ledger.token, Ledger.setWord]

theorem only_setWord {slot : Slot} (beside : slot.Beside) : Only s (s.setWord slot n) id where
  others _ _ := token_setWord beside
  nonce _ := by cases slot <;> simp_all [Slot.Beside, Ledger.setWord]

theorem checkedAdd_some {x y z : ℕ} (h : checkedAdd x y = some z) :
    z = x + y ∧ x + y ≤ maxValue 128 := by
  unfold checkedAdd at h
  split_ifs at h with fits
  exact ⟨(Option.some.inj h).symm, fits⟩

theorem held_eq : s.held id a = (s.token id).balance (ledgerAccount a) := rfl

theorem frozen_eq : s.frozen id a = (s.token id).frozen (ledgerAccount a) := rfl

theorem token_move : ((s.writeBalance id a (s.held id a - n)).writeBalance id c
      ((s.writeBalance id a (s.held id a - n)).held id c + n)).token id =
    (s.token id).move (ledgerAccount a) (ledgerAccount c) n := by
  simp only [token_writeBalance, held_eq]
  rfl

theorem moveHeld_ok {s' : Ledger} (ok : moveHeld s id a c n = .ok s') :
    s'.token id = (s.token id).move (ledgerAccount a) (ledgerAccount c) n ∧ Only s s' id := by
  simp only [moveHeld, ← writeBalance_eq] at ok
  split at ok
  · cases ok
  · rename_i newTo added
    cases ok
    obtain ⟨rfl, -⟩ := checkedAdd_some added
    exact ⟨token_move, only_writeBalance.trans only_writeBalance⟩

theorem refuseWith_ok {x : Except Refusal Unit} : refuseWith x = .ok () ↔ x = .ok () := by
  unfold refuseWith refuse
  rcases x with _ | ⟨⟩ <;> simp

theorem knownToken_ok {record : TokenRecord} :
    s.knownToken id = .ok record ↔ s.record id = some record := by
  unfold Ledger.knownToken refuse
  cases s.record id <;> simp

/-! ### Native operations -/

namespace Ledger
variable {s' : Ledger} {nowMs : ℤ}

theorem mint_ok (ok : s.mint id a n nowMs = .ok s') :
    ∃ r, s.record id = some r ∧ r.totalSupply + n ≤ maxValue 128 ∧
      (∀ m, r.maxSupply = some m → r.totalSupply + n ≤ m) ∧
      s'.token id = ((s.token id).setRecord { r with totalSupply := r.totalSupply + n }).setBalance
        (ledgerAccount a) ((s.token id).balance (ledgerAccount a) + n) ∧ Only s s' id := by
  obtain ⟨r, known, ok⟩ := bind_ok.1 ok
  obtain ⟨⟨⟩, -, ok⟩ := bind_ok.1 ok
  have record := knownToken_ok.1 known
  split at ok
  · cases ok
  · rename_i supply minted
    simp only [supplyAfterMint, Option.filter_eq_some_iff] at minted
    obtain ⟨summed, within⟩ := minted
    obtain ⟨rfl, fits⟩ := checkedAdd_some summed
    simp only at ok
    split at ok
    · cases ok
    · rename_i held added
      obtain ⟨rfl, -⟩ := checkedAdd_some added
      cases pure_ok.1 ok
      refine ⟨r, record, fits, ?_, ?_, only_writeToken.trans only_writeBalance⟩
      · intro m max
        simpa [max] using within
      · rw [token_writeBalance, held_eq, token_writeToken]
        rfl

theorem burn_ok (ok : s.burn id a n = .ok s') :
    ∃ r, s.record id = some r ∧ n ≤ spendable (s.held id a) (s.frozen id a) ∧
      s'.token id = ((s.token id).setBalance (ledgerAccount a)
        ((s.token id).balance (ledgerAccount a) - n)).setRecord
          { r with totalSupply := r.totalSupply - n } ∧ Only s s' id := by
  obtain ⟨r, known, ok⟩ := bind_ok.1 ok
  obtain ⟨⟨⟩, -, ok⟩ := bind_ok.1 ok
  obtain ⟨⟨⟩, free, ok⟩ := bind_ok.1 ok
  cases pure_ok.1 ok
  refine ⟨r, knownToken_ok.1 known, ensure_ok.1 free, ?_, only_writeBalance.trans only_writeToken⟩
  rw [token_writeToken, token_writeBalance]
  rfl

theorem lower_ok (ok : (if frozenAfter (s.frozen id a) (s.held id a) ≠ s.frozen id a then
      pure (s.setWord (.frozen id (ledgerAccount a)) (s.held id a)) else pure s :
        Except VmError Ledger) = .ok s') :
    s'.token id = (s.token id).setFrozen (ledgerAccount a)
      (min ((s.token id).frozen (ledgerAccount a)) ((s.token id).balance (ledgerAccount a))) ∧
      Only s s' id := by
  split_ifs at ok with lowered
  · cases pure_ok.1 ok
    have reached : min (s.frozen id a) (s.held id a) = s.held id a := by
      unfold frozenAfter at lowered
      omega
    rw [← frozen_eq, ← held_eq, reached]
    exact ⟨token_setFrozen, only_setFrozen⟩
  · cases pure_ok.1 ok
    have kept : min (s.frozen id a) (s.held id a) = s.frozen id a := not_not.1 lowered
    rw [← frozen_eq, ← held_eq, kept]
    refine ⟨?_, Only.refl⟩
    rw [frozen_eq, TokenView.setFrozen, update_eq_self]

end Ledger

/-! ### Factory calls -/

section
variable {s' : Ledger} {env : PrecompileEnv}

theorem decodeUint256_ok {w m : ℕ} (h : decodeUint256 w = .ok m) : w = m ∧ w ≤ maxValue 128 := by
  unfold decodeUint256 revert at h
  split_ifs at h with fits
  cases h
  exact ⟨rfl, fits⟩

theorem issuerAlone_ok {power : Power} {caller : Bytes}
    (ok : issuerAlone s id power caller = .ok r) : s.record id = some r := by
  unfold issuerAlone revert at ok
  cases record : s.record id with
  | none =>
    simp only [record] at ok
    cases ok
  | some r' =>
    simp only [record] at ok
    split at ok
    · split_ifs at ok
      cases ok
      rfl
    · cases ok
    · cases ok

theorem approve_ok {spender : Bytes} (ok : approve s env id spender n = .ok s') :
    s'.token id = s.token id ∧ Only s s' id := by
  obtain ⟨m, -, ok⟩ := bind_ok.1 ok
  cases pure_ok.1 ok
  exact ⟨token_setWord trivial, only_setWord trivial⟩

theorem setFrozenTokens_ok (ok : setFrozenTokens s env id a n = .ok s') :
    s.record id ≠ none ∧ n ≤ s.held id a ∧
      s'.token id = (s.token id).setFrozen (ledgerAccount a) n ∧ Only s s' id := by
  obtain ⟨m, decoded, ok⟩ := bind_ok.1 ok
  obtain ⟨rfl, -⟩ := decodeUint256_ok decoded
  obtain ⟨r, alone, ok⟩ := bind_ok.1 ok
  have record := issuerAlone_ok alone
  unfold freezeWithin revert at ok
  simp only at ok
  split_ifs at ok with enough
  cases pure_ok.1 ok
  exact ⟨by simp [record], enough, token_setFrozen, only_setFrozen⟩

theorem forcedTransfer_ok (ok : forcedTransfer s env id a c n = .ok s') :
    n ≤ s.held id a ∧ TokenStep (s.token id) (s'.token id) ∧ Only s s' id := by
  obtain ⟨m, decoded, ok⟩ := bind_ok.1 ok
  obtain ⟨rfl, -⟩ := decodeUint256_ok decoded
  obtain ⟨r, -, ok⟩ := bind_ok.1 ok
  unfold revert at ok
  split at ok
  · cases ok
  · obtain ⟨⟨⟩, held, ok⟩ := bind_ok.1 ok
    have enough := ensure_ok.1 held
    obtain ⟨s₁, move, ok⟩ := bind_ok.1 ok
    obtain ⟨step, only⟩ := moveHeld_ok move
    obtain ⟨lowered, only'⟩ := Ledger.lower_ok ok
    refine ⟨enough, ?_, only.trans only'⟩
    rw [lowered, step]
    exact .seizes _ _ _ enough

end

theorem addOne_ok {v w : ℕ} (h : addOne v = .ok w) : v + 1 = w := by
  unfold addOne at h
  split_ifs at h
  exact Except.ok.inj h

theorem token_setNonce : (s.setWord (.nonce a) n).token id = s.token id := rfl

theorem token_setFacade {facade : Bytes → Bytes} :
    Ledger.token { s with facade } id = s.token id := rfl

theorem only_setFacade {facade : Bytes → Bytes} : Only s { s with facade } id :=
  ⟨fun _ _ => rfl, fun _ => rfl⟩

/-! ### Transfers -/

section
variable [FactoryHash]

theorem balance_eq (factory : id ≠ FactoryHash.tnzoId) : s.balance id a = s.held id a :=
  if_neg factory

theorem moveBalance_ok {s' : Ledger} (factory : id ≠ FactoryHash.tnzoId)
    (ok : s.moveBalance id a c n = .ok (some s')) :
    n ≤ s.held id a ∧
      s'.token id = (s.token id).move (ledgerAccount a) (ledgerAccount c) n ∧ Only s s' id := by
  unfold Ledger.moveBalance at ok
  simp only [balance_eq factory, Ledger.setBalance, if_neg factory] at ok
  split_ifs at ok with short
  · cases ok
  · split at ok
    · cases ok
    · rename_i after added
      cases ok
      obtain ⟨rfl, -⟩ := checkedAdd_some added
      exact ⟨not_lt.1 short, token_move, only_writeBalance.trans only_writeBalance⟩

theorem canTransfer_ok {token sender recipient : Bytes} {amount : ℕ} {nowMs : ℤ}
    (factory : token ≠ FactoryHash.tnzoId) (enough : amount ≤ s.held token sender)
    (ok : canTransfer s token sender recipient amount nowMs = .ok ()) :
    amount ≤ spendable (s.held token sender) (s.frozen token sender) := by
  unfold canTransfer at ok
  rw [if_neg factory] at ok
  split at ok
  · cases ok
  · simp only at ok
    split_ifs at ok with halt reaches
    by_contra short
    exact reaches ⟨enough, not_le.1 short⟩

namespace Ledger
variable {s' : Ledger} {nowMs : ℤ}

theorem setFrozen_ok (ok : s.setFrozen id a n = .ok s') :
    n ≤ s.balance id a ∧ s'.token id = (s.token id).setFrozen (ledgerAccount a) n ∧
      Only s s' id := by
  unfold setFrozen freezeWithin refuse at ok
  simp only at ok
  split_ifs at ok with enough
  cases ok
  exact ⟨enough, token_setFrozen, only_setFrozen⟩

theorem transfer_ok (factory : id ≠ FactoryHash.tnzoId)
    (ok : s.transfer id a c n nowMs = .ok (some s')) :
    n ≤ spendable (s.held id a) (s.frozen id a) ∧
      s'.token id = (s.token id).move (ledgerAccount a) (ledgerAccount c) n ∧ Only s s' id := by
  obtain ⟨⟨⟩, allowed, ok⟩ := bind_ok.1 ok
  obtain ⟨enough, step, only⟩ := moveBalance_ok factory ok
  exact ⟨canTransfer_ok factory enough (refuseWith_ok.1 allowed), step, only⟩

theorem forcedTransfer_ok (factory : id ≠ FactoryHash.tnzoId)
    (ok : s.forcedTransfer id a c n nowMs = .ok s') :
    n ≤ s.held id a ∧
      TokenStep (s.token id) (s'.token id) ∧ Only s s' id := by
  obtain ⟨r, -, ok⟩ := bind_ok.1 ok
  obtain ⟨⟨⟩, -, ok⟩ := bind_ok.1 ok
  obtain ⟨moved, move, ok⟩ := bind_ok.1 ok
  cases moved with
  | none => cases ok
  | some s₁ =>
    obtain ⟨enough, step, only⟩ := moveBalance_ok factory move
    simp only [balance_eq factory] at ok
    obtain ⟨lowered, only'⟩ := lower_ok ok
    refine ⟨enough, ?_, only.trans only'⟩
    rw [lowered, step]
    exact .seizes _ _ _ enough

end Ledger

variable {s' : Ledger} {env : PrecompileEnv}

theorem moveTokens_ok (ok : moveTokens s env id a c n = .ok s') :
    (id ≠ FactoryHash.tnzoId → n ≤ spendable (s.held id a) (s.frozen id a)) ∧
      s'.token id = (s.token id).move (ledgerAccount a) (ledgerAccount c) n ∧ Only s s' id := by
  unfold moveTokens revert at ok
  split_ifs at ok with short
  split at ok
  · cases ok
  · rename_i allowed
    refine ⟨fun factory => canTransfer_ok factory (not_lt.1 short) allowed, ?_⟩
    exact moveHeld_ok ok

theorem transferFrom_ok (ok : transferFrom s env id a c n = .ok s') :
    (id ≠ FactoryHash.tnzoId → n ≤ spendable (s.held id a) (s.frozen id a)) ∧
      s'.token id = (s.token id).move (ledgerAccount a) (ledgerAccount c) n ∧ Only s s' id := by
  obtain ⟨m, decoded, ok⟩ := bind_ok.1 ok
  obtain ⟨rfl, -⟩ := decodeUint256_ok decoded
  simp only at ok
  obtain ⟨⟨⟩, -, ok⟩ := bind_ok.1 ok
  have beside : (Slot.allowance id a env.caller).Beside := trivial
  split_ifs at ok
  · obtain ⟨free, step, only⟩ := moveTokens_ok ok
    rw [held_eq, frozen_eq, token_setWord beside] at free
    rw [token_setWord beside] at step
    exact ⟨free, step, (only_setWord beside).trans only⟩
  · exact moveTokens_ok ok

/-! ### Creations -/

/-- What a creation leaves: the token of the creator's next number, as it was recorded. -/
structure Created (s s' : Ledger) (creator : Bytes) (r : TokenRecord) : Prop where
  token : (s.token (FactoryHash.tokenId creator (s.word (.nonce creator)))).balance creator = 0 →
    s'.token (FactoryHash.tokenId creator (s.word (.nonce creator))) =
      ((s.token (FactoryHash.tokenId creator (s.word (.nonce creator)))).setRecord r).setBalance
        creator r.totalSupply
  others : ∀ other, other ≠ FactoryHash.tokenId creator (s.word (.nonce creator)) →
    s'.token other = s.token other
  nonce : s'.word (.nonce creator) = s.word (.nonce creator) + 1
  nonces : ∀ c, c ≠ creator → s'.word (.nonce c) = s.word (.nonce c)
  within : ∀ m, r.maxSupply = some m → r.totalSupply ≤ m

theorem Created.of {creator : Bytes}
    (only : Only (s.setWord (.nonce creator) (s.word (.nonce creator) + 1)) s'
      (FactoryHash.tokenId creator (s.word (.nonce creator))))
    (token : (s.token (FactoryHash.tokenId creator (s.word (.nonce creator)))).balance creator = 0 →
      s'.token (FactoryHash.tokenId creator (s.word (.nonce creator))) =
        ((s.token (FactoryHash.tokenId creator (s.word (.nonce creator)))).setRecord r).setBalance
          creator r.totalSupply)
    (within : ∀ m, r.maxSupply = some m → r.totalSupply ≤ m) : Created s s' creator r where
  token := token
  others other h := (only.others other h).trans token_setNonce
  nonce := by simp [only.nonce, Ledger.setWord]
  nonces c h := by simp [only.nonce, Ledger.setWord, h]
  within := within

theorem create_ok {spec : TokenRecord} (ok : s.create a spec = .ok (s', id)) :
    Created s s' (ledgerAccount a) { spec with creator := ledgerAccount a } := by
  obtain ⟨⟨⟩, -, ok⟩ := bind_ok.1 ok
  obtain ⟨⟨⟩, supply, ok⟩ := bind_ok.1 ok
  simp only at ok
  obtain ⟨nonce, next, ok⟩ := bind_ok.1 ok
  obtain rfl := addOne_ok next
  obtain ⟨count, -, ok⟩ := bind_ok.1 ok
  cases pure_ok.1 ok
  have counted : Slot.count.Beside := trivial
  refine Created.of (only_writeToken.trans (only_setFacade.trans
    (only_writeBalance.trans (only_setWord counted)))) (fun _ => ?_) fun m max => ?_
  · rw [token_setWord counted, token_writeBalance, token_setFacade, token_writeToken,
      token_setNonce]
  · have limit : spec.maxSupply = some m := max
    have within := ensure_ok.1 supply
    simpa [initialSupplyWithin, limit] using within

theorem createToken_ok {name symbol : String} {decimals supply : ℕ}
    (ok : createToken s env name symbol decimals supply = .ok s') :
    supply ≤ maxValue 128 ∧ ∃ r : TokenRecord, r.totalSupply = supply ∧
      Created s s' (ledgerAccount env.caller) r := by
  obtain ⟨decimals, -, ok⟩ := bind_ok.1 ok
  obtain ⟨supply, decoded, ok⟩ := bind_ok.1 ok
  obtain ⟨rfl, fits⟩ := decodeUint256_ok decoded
  obtain ⟨⟨⟩, -, ok⟩ := bind_ok.1 ok
  simp only at ok
  obtain ⟨nonce, next, ok⟩ := bind_ok.1 ok
  obtain rfl := addOne_ok next
  obtain ⟨count, -, ok⟩ := bind_ok.1 ok
  cases pure_ok.1 ok
  have counted : Slot.count.Beside := trivial
  refine ⟨fits, ⟨name, symbol, decimals, supply, env.caller, some supply, .none, {}⟩, rfl, Created.of (only_writeToken.trans (only_setFacade.trans
    (only_setBalance.trans (only_noteHolder.trans (only_setWord counted))))) (fun fresh => ?_)
      fun m max => ?_⟩
  · rw [token_setWord counted, token_noteHolder, token_setBalance, token_setFacade,
      token_writeToken, token_setNonce, TokenView.setBalance]
    simp only [TokenView.setRecord, fresh]
  · exact (Option.some.inj max).le

end

end
end Tenzro.Token
