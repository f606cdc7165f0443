import Tenzro.BitcoinCodec
import Tenzro.RouteState

set_option autoImplicit false

/-!
# Which outputs a withdrawal can reach

A withdrawal spends the oldest outputs and at most 64 of them, so what it can
pay depends on the oldest 64 alone, whatever else is held.
-/
namespace Tenzro.Bridge
open ByteCodec FixedWidth Outcome List

def totalValue (utxos : List Utxo) : ℕ := (utxos.map Utxo.value).sum

@[simp]
theorem totalValue_append (a b : List Utxo) : totalValue (a ++ b) = totalValue a + totalValue b := by
  simp [totalValue]

theorem totalValue_take_drop (n : ℕ) (utxos : List Utxo) :
    totalValue (utxos.take n) + totalValue (utxos.drop n) = totalValue utxos := by
  rw [← totalValue_append, take_append_drop]

/-! ### Coin selection -/

theorem selectInputs_ok {amount spent taken total count : ℕ} {utxos : List Utxo}
    (fits : spent ≤ maxValue 64) (h : selectInputs amount utxos spent taken = .ok (total, count)) :
    ∃ k, k ≤ utxos.length ∧ count = taken + k ∧ total = spent + totalValue (utxos.take k) ∧
      amount ≤ total ∧ total ≤ maxValue 64 ∧ (spent < amount → 0 < k) := by
  induction utxos generalizing spent taken with
  | nil =>
    unfold selectInputs at h
    split_ifs at h with enough
    cases h
    exact ⟨0, by simp, by simp, by simp [totalValue], enough, fits, by omega⟩
  | cons u rest ih =>
    unfold selectInputs at h
    split_ifs at h with enough overflow
    · cases h
      exact ⟨0, by simp, by simp, by simp [totalValue], enough, fits, by omega⟩
    · obtain ⟨k, short, rfl, rfl, covers, small, -⟩ := ih (by omega) h
      refine ⟨k + 1, by simp; omega, by omega, ?_, covers, small, by omega⟩
      simp [totalValue]
      omega

/-! ### The plan -/

theorem length_standard {script : Bytes} (h : isStandardDestination script = true) :
    script.length ≤ 34 := by
  simp only [isStandardDestination, Bool.or_eq_true, Bool.and_eq_true, decide_eq_true_eq] at h
  omega

theorem length_withdrawalTx (spent : List Utxo) (recipient depositScript : Bytes) (pay pay' change : ℕ) :
    (withdrawalTx spent recipient depositScript pay change).encode.length =
      (withdrawalTx spent recipient depositScript pay' change).encode.length := by
  simp [withdrawalTx, BitcoinTx.encode, TxOut.encode]

section
variable [RouteCrypto] {desc : DepositDescriptor} {utxos remaining : List Utxo} {recipient : Bytes}
  {amount feeRate : ℕ} {withdrawal : Withdrawal}

/-- A withdrawal of the amount that takes the first `taken` outputs. -/
structure Plan (desc : DepositDescriptor) (utxos : List Utxo) (recipient : Bytes)
    (amount feeRate : ℕ) (withdrawal : Withdrawal) (remaining : List Utxo) (depositScript : Bytes)
    (taken fee pay change : ℕ) : Prop where
  script : desc.scriptPubkey = .ok depositScript
  standard : isStandardDestination recipient = true
  held : taken ≤ utxos.length
  some_taken : 0 < taken
  few : taken ≤ maxInputs
  /-- The inputs are the first outputs held, one for each. -/
  tx : withdrawal.tx = withdrawalTx (utxos.take taken) recipient depositScript pay change
  values : withdrawal.values = (utxos.take taken).map Utxo.value
  /-- What they hold is paid out, down to the satoshi. -/
  balance : totalValue (utxos.take taken) = pay + fee + change
  paid : pay + fee = amount
  spentFits : pay + fee + change ≤ maxValue 64
  fee : fee = (withdrawal.tx.encode.length * 4 + 2 + taken * desc.witnessLen + 3) / 4 * feeRate
  notDust : dust ≤ pay
  changeNotDust : change = 0 ∨ dust ≤ change
  kept : remaining = utxos.drop taken ++ if 0 < change then [⟨withdrawal.txid, 1, change⟩] else []

theorem planWithdrawal_ok
    (h : planWithdrawal desc utxos recipient amount feeRate = .ok (withdrawal, remaining)) :
    ∃ depositScript taken fee pay change, Plan desc utxos recipient amount feeRate withdrawal
      remaining depositScript taken fee pay change := by
  simp only [planWithdrawal, bind_ok, pure_ok, ensure_ok, exists_const] at h
  obtain ⟨depositScript, script, ⟨standard, -⟩, ⟨spent, taken⟩, selected, few, changeNotDust, -,
    ⟨covers, notDust⟩, same⟩ := h
  obtain ⟨k, held, rfl, rfl, enough, fits, positive⟩ := selectInputs_ok (by simp) selected
  simp only [Nat.zero_add] at *
  have floor : 0 < dust := by decide
  generalize charged : ((withdrawalTx (utxos.take k) recipient depositScript 0
    (totalValue (utxos.take k) - amount)).encode.length * 4 + 2 + k * desc.witnessLen + 3) / 4 *
      feeRate = fee at covers notDust same
  cases same
  exact ⟨depositScript, k, fee, amount - fee, totalValue (utxos.take k) - amount,
    { script := script
      standard := standard
      held := held
      some_taken := positive (by omega)
      few := few
      tx := rfl
      values := rfl
      balance := by omega
      paid := by omega
      spentFits := by omega
      fee := by
        rw [length_withdrawalTx _ _ _ 0 (amount - fee)] at charged
        exact charged.symm
      notDust := notDust
      changeNotDust := changeNotDust
      kept := rfl }⟩

/-! ### What is stored of it -/

theorem length_scriptPubkey {script : Bytes} (h : desc.scriptPubkey = .ok script) :
    script.length = 34 := by
  simp only [DepositDescriptor.scriptPubkey, bind_ok, pure_ok] at h
  obtain ⟨⟨x, odd⟩, key, rfl⟩ := h
  have size := RouteCrypto.length_outputKey _ _ _ _ key
  simp [size]

theorem length_txid : withdrawal.txid.length = 32 := RouteCrypto.length_sha256 _

section
variable {depositScript : Bytes} {taken fee pay change : ℕ}

theorem Plan.fits (p : Plan desc utxos recipient amount feeRate withdrawal remaining depositScript
    taken fee pay change) (fit : ∀ u ∈ utxos, u.Fits) : withdrawal.tx.Fits := by
  have recipientShort := length_standard p.standard
  have scriptShort := length_scriptPubkey p.script
  have spentFits := p.spentFits
  have few := p.few
  have held := p.held
  have positive := p.some_taken
  unfold maxValue at spentFits
  unfold maxInputs at few
  rw [p.tx]
  constructor
  case version => simp [withdrawalTx]
  case inputs =>
    simp only [withdrawalTx, forall_mem_map]
    intro u mem
    have size := (fit u (mem_of_mem_take mem)).txid
    refine ⟨by simp [Utxo.prevout, size], by simp, ?_⟩
    change inputSequence < 2 ^ 32
    decide
  case some_input =>
    simp only [withdrawalTx, ne_eq, map_eq_nil_iff, take_eq_nil_iff]
    rintro (none | none)
    · omega
    · simp [none] at held
      omega
  case few_inputs =>
    simp only [withdrawalTx, length_map, length_take, maxTxLen]
    omega
  case outputs =>
    intro o mem
    simp only [withdrawalTx, mem_cons] at mem
    rcases mem with rfl | mem
    · exact ⟨by simp; omega, by simp [maxTxLen]; omega⟩
    · split_ifs at mem with some
      · obtain rfl := mem_singleton.1 mem
        exact ⟨by simp; omega, by simp [maxTxLen]; omega⟩
      · simp at mem
  case few_outputs =>
    simp only [withdrawalTx]
    split_ifs <;> simp [maxTxLen]
  case lockTime => simp [withdrawalTx]

theorem Plan.length_tx (p : Plan desc utxos recipient amount feeRate withdrawal remaining
    depositScript taken fee pay change) (fit : ∀ u ∈ utxos, u.Fits) :
    withdrawal.tx.encode.length ≤ 2800 := by
  have recipientShort := length_standard p.standard
  have scriptShort := length_scriptPubkey p.script
  have few := p.few
  unfold maxInputs at few
  have inputs := length_inputs fun u mem => fit u (mem_of_mem_take (i := taken) mem)
  have short : ∀ o ∈ withdrawal.tx.outputs, o.script.length ≤ 34 := by
    rw [p.tx]
    intro o mem
    simp only [withdrawalTx, mem_cons] at mem
    rcases mem with rfl | mem
    · exact recipientShort
    · split_ifs at mem
      · obtain rfl := mem_singleton.1 mem
        exact scriptShort.le
      · simp at mem
  have outputs := length_outputs short
  have two : withdrawal.tx.outputs.length ≤ 2 := by
    rw [p.tx]
    simp only [withdrawalTx]
    split_ifs <;> simp
  have spent : (withdrawal.tx.inputs.flatMap TxIn.encode).length ≤ 41 * taken := by
    rw [p.tx]
    refine inputs.trans_le ?_
    rw [length_take]
    omega
  have counts := length_compactSize_le withdrawal.tx.inputs.length
  have counts' := length_compactSize_le withdrawal.tx.outputs.length
  simp only [BitcoinTx.encode, length_append, length_leBytes]
  omega

theorem Plan.withdrawal_fits (p : Plan desc utxos recipient amount feeRate withdrawal remaining
    depositScript taken fee pay change) (fit : ∀ u ∈ utxos, u.Fits) : withdrawal.Fits where
  tx := p.fits fit
  short := (p.length_tx fit).trans (by decide)
  one_each := by simp [p.values, p.tx, withdrawalTx]
  values := by
    rw [p.values, forall_mem_map]
    exact fun u mem => (fit u (mem_of_mem_take mem)).value

theorem Plan.remaining_fits (p : Plan desc utxos recipient amount feeRate withdrawal remaining
    depositScript taken fee pay change) (fit : ∀ u ∈ utxos, u.Fits) : ∀ u ∈ remaining, u.Fits := by
  have small := p.spentFits
  unfold maxValue at small
  rw [p.kept]
  intro u mem
  rcases mem_append.1 mem with mem | mem
  · exact fit u (mem_of_mem_drop mem)
  · split_ifs at mem
    · obtain rfl := mem_singleton.1 mem
      exact ⟨length_txid, by norm_num, by simp only; omega⟩
    · simp at mem

theorem Plan.remaining_value (p : Plan desc utxos recipient amount feeRate withdrawal remaining
    depositScript taken fee pay change) : totalValue remaining + amount = totalValue utxos := by
  have balance := p.balance
  have paid := p.paid
  have parts := totalValue_take_drop taken utxos
  rw [p.kept, totalValue_append]
  split_ifs with some
  · simp only [totalValue, map_cons, map_nil, sum_cons, sum_nil] at *
    omega
  · simp only [totalValue, map_nil, sum_nil] at *
    omega

theorem Plan.remaining_length (p : Plan desc utxos recipient amount feeRate withdrawal remaining
    depositScript taken fee pay change) : remaining.length ≤ utxos.length := by
  have held := p.held
  have positive := p.some_taken
  rw [p.kept, length_append, length_drop]
  split_ifs <;> simp only [length_singleton, length_nil] <;> omega

end

end

/-! ### The fee of a withdrawal -/

def withdrawalLen (inputs : ℕ) (scripts : List Bytes) : ℕ :=
  8 + (compactSize inputs).length + 41 * inputs + (compactSize scripts.length).length +
    (scripts.map fun s => 8 + (compactSize s.length).length + s.length).sum

def withdrawalFee (desc : DepositDescriptor) (inputs : ℕ) (scripts : List Bytes) (feeRate : ℕ) : ℕ :=
  (withdrawalLen inputs scripts * 4 + 2 + inputs * desc.witnessLen + 3) / 4 * feeRate

theorem length_outputs_eq (outputs : List TxOut) :
    (outputs.flatMap TxOut.encode).length =
      ((outputs.map TxOut.script).map fun s => 8 + (compactSize s.length).length + s.length).sum := by
  induction outputs with
  | nil => rfl
  | cons o outputs ih =>
    simp only [flatMap_cons, length_append, ih, map_cons, sum_cons,
      TxOut.encode, length_leBytes]
    omega

theorem length_withdrawalTx_eq {spent : List Utxo} (fit : ∀ u ∈ spent, u.Fits)
    (recipient depositScript : Bytes) (pay change : ℕ) :
    (withdrawalTx spent recipient depositScript pay change).encode.length =
      withdrawalLen spent.length (recipient :: if 0 < change then [depositScript] else []) := by
  have inputs := length_inputs fit
  simp only [BitcoinTx.encode, withdrawalTx, length_append, length_leBytes, inputs,
    length_outputs_eq, length_map]
  split_ifs <;> simp only [withdrawalLen, map_cons, map_nil, length_cons,
    length_nil] <;> omega

theorem length_compactSize_small {n : ℕ} (h : n ≤ 252) : (compactSize n).length = 1 := by
  simp [compactSize, h]

theorem withdrawalFee_mono (desc : DepositDescriptor) {j k : ℕ} (recipient : Bytes)
    (more : List Bytes) (feeRate : ℕ) (few : j ≤ k) (small : k ≤ maxInputs)
    (short : more.length ≤ 1) :
    withdrawalFee desc j [recipient] feeRate ≤ withdrawalFee desc k (recipient :: more) feeRate := by
  unfold maxInputs at small
  have first := length_compactSize_small (n := j) (by omega)
  have second := length_compactSize_small (n := k) (by omega)
  have one := length_compactSize_small (n := 1) (by omega)
  have outs := length_compactSize_small (n := more.length + 1) (by omega)
  have len : withdrawalLen j [recipient] ≤ withdrawalLen k (recipient :: more) := by
    simp only [withdrawalLen, length_cons, length_nil, Nat.zero_add, map_cons,
      map_nil, sum_cons, sum_nil, first, second, one, outs]
    omega
  have witnesses := Nat.mul_le_mul_right desc.witnessLen few
  unfold withdrawalFee
  refine Nat.mul_le_mul_right _ (Nat.div_le_div_right ?_)
  omega

/-! ### Amounts that go through -/

theorem totalValue_take_le {j k : ℕ} (h : j ≤ k) (utxos : List Utxo) :
    totalValue (utxos.take j) ≤ totalValue (utxos.take k) := by
  have parts := totalValue_take_drop j (utxos.take k)
  rw [take_take, Nat.min_eq_left h] at parts
  omega

theorem selectInputs_take {utxos : List Utxo} {k spent taken : ℕ} (held : k ≤ utxos.length)
    (fits : spent + totalValue (utxos.take k) ≤ maxValue 64) :
    ∃ j ≤ k, selectInputs (spent + totalValue (utxos.take k)) utxos spent taken =
      .ok (spent + totalValue (utxos.take k), taken + j) := by
  induction utxos generalizing k spent taken with
  | nil =>
    obtain rfl : k = 0 := by simpa using held
    exact ⟨0, le_refl _, by simp [selectInputs, totalValue]⟩
  | cons u utxos ih =>
    cases k with
    | zero => exact ⟨0, le_refl _, by simp [selectInputs, totalValue]⟩
    | succ k =>
      have worth : totalValue ((u :: utxos).take (k + 1)) = u.value + totalValue (utxos.take k) := by
        simp [totalValue]
      rw [worth, ← Nat.add_assoc] at fits ⊢
      by_cases enough : spent + u.value + totalValue (utxos.take k) ≤ spent
      · refine ⟨0, Nat.zero_le _, ?_⟩
        rw [selectInputs, if_pos enough]
        exact congrArg (fun n => Except.ok (n, taken)) (by omega)
      · obtain ⟨j, few, selected⟩ := ih (by simpa using held) fits
        refine ⟨j + 1, by omega, ?_⟩
        have count : taken + 1 + j = taken + (j + 1) := by omega
        rw [selectInputs, if_neg enough, if_neg (by omega), selected, count]

section
variable [RouteCrypto] {desc : DepositDescriptor} {utxos : List Utxo}
  {recipient depositScript : Bytes} {feeRate : ℕ}

theorem planWithdrawal_isOk {k : ℕ} (fit : ∀ u ∈ utxos, u.Fits)
    (script : desc.scriptPubkey = .ok depositScript)
    (standard : isStandardDestination recipient = true) (other : recipient ≠ depositScript)
    (few : k ≤ maxInputs) (held : k ≤ utxos.length)
    (fits : totalValue (utxos.take k) ≤ maxValue 64)
    (covers : withdrawalFee desc k [recipient] feeRate + dust ≤ totalValue (utxos.take k)) :
    ∃ plan, planWithdrawal desc utxos recipient (totalValue (utxos.take k)) feeRate = .ok plan := by
  obtain ⟨j, fewer, selected⟩ := selectInputs_take held
    (show 0 + totalValue (utxos.take k) ≤ maxValue 64 by omega)
  rw [Nat.zero_add, Nat.zero_add] at selected
  have cheaper := withdrawalFee_mono desc recipient [] feeRate
    fewer few (by simp)
  have spends : (utxos.take j).length = j := by
    rw [length_take]
    omega
  have charged : ((withdrawalTx (utxos.take j) recipient depositScript 0 0).encode.length * 4 + 2 +
      j * desc.witnessLen + 3) / 4 * feeRate = withdrawalFee desc j [recipient] feeRate := by
    rw [length_withdrawalTx_eq fun u mem => fit u (mem_of_mem_take mem), spends]
    rfl
  simp only [planWithdrawal, script, selected, Bind.bind, Except.bind, Nat.sub_self, charged]
  rw [ensure, if_pos ⟨standard, other⟩]
  simp only [ensure]
  rw [if_pos (by omega), if_pos (.inl trivial), if_pos (by omega), if_pos (by omega)]
  exact ⟨_, rfl⟩

/-- The tracked outputs deposits and withdrawals can lead to. -/
inductive Held (desc : DepositDescriptor) (feeRate : ℕ) : List Utxo → Prop where
  | start : Held desc feeRate []
  | deposit {utxos : List Utxo} {u : Utxo} (held : Held desc feeRate utxos) (fits : u.Fits)
      (positive : 0 < u.value) : Held desc feeRate (utxos ++ [u])
  | withdraw {utxos remaining : List Utxo} {recipient : Bytes} {amount : ℕ}
      {withdrawal : Withdrawal} (held : Held desc feeRate utxos)
      (planned : planWithdrawal desc utxos recipient amount feeRate = .ok (withdrawal, remaining)) :
      Held desc feeRate remaining

theorem Held.fits (held : Held desc feeRate utxos) : ∀ u ∈ utxos, u.Fits := by
  induction held with
  | start => simp
  | deposit held fits positive ih =>
    intro u mem
    rcases mem_append.1 mem with mem | mem
    · exact ih u mem
    · rwa [mem_singleton.1 mem]
  | withdraw held planned ih =>
    obtain ⟨depositScript, taken, fee, pay, change, plan⟩ := planWithdrawal_ok planned
    exact plan.remaining_fits ih

/-- A withdrawal that goes through is paid by the oldest outputs it spends. -/
theorem planWithdrawal_covers {amount : ℕ} {withdrawal : Withdrawal} {remaining : List Utxo}
    (fit : ∀ u ∈ utxos, u.Fits)
    (planned : planWithdrawal desc utxos recipient amount feeRate = .ok (withdrawal, remaining)) :
    ∃ k ≤ maxInputs, k ≤ utxos.length ∧ totalValue (utxos.take k) ≤ maxValue 64 ∧
      withdrawalFee desc k [recipient] feeRate + dust ≤ totalValue (utxos.take k) := by
  obtain ⟨depositScript, k, fee, pay, change, plan⟩ := planWithdrawal_ok planned
  have balance := plan.balance
  have spentFits := plan.spentFits
  have notDust := plan.notDust
  have charged := plan.fee
  have spends : (utxos.take k).length = k := by
    rw [length_take]
    exact Nat.min_eq_left plan.held
  rw [plan.tx, length_withdrawalTx_eq fun u mem => fit u (mem_of_mem_take mem),
    spends] at charged
  have cheaper := withdrawalFee_mono desc recipient
    (if 0 < change then [depositScript] else []) feeRate (le_refl k) plan.few
    (by split_ifs <;> simp)
  change fee = withdrawalFee desc k _ feeRate at charged
  exact ⟨k, plan.few, plan.held, by omega, by omega⟩

/-- Some amount can be withdrawn exactly when some of the oldest 64 outputs, taken from the
oldest on, pay for being spent and leave a payment that is no dust. -/
theorem withdrawable_iff (held : Held desc feeRate utxos)
    (script : desc.scriptPubkey = .ok depositScript)
    (standard : isStandardDestination recipient = true) (other : recipient ≠ depositScript) :
    (∃ amount ≤ totalValue utxos, ∃ plan,
        planWithdrawal desc utxos recipient amount feeRate = .ok plan) ↔
      ∃ k ≤ maxInputs, k ≤ utxos.length ∧ totalValue (utxos.take k) ≤ maxValue 64 ∧
        withdrawalFee desc k [recipient] feeRate + dust ≤ totalValue (utxos.take k) := by
  constructor
  · rintro ⟨amount, -, ⟨withdrawal, remaining⟩, planned⟩
    exact planWithdrawal_covers held.fits planned
  · rintro ⟨k, few, held', fits, covers⟩
    refine ⟨_, ?_, planWithdrawal_isOk held.fits script standard other few held' fits covers⟩
    have parts := totalValue_take_drop k utxos
    omega

end

/-! ### Sixty-four deposits of one satoshi -/

namespace DustDeposits

@[reducible] def crypto : RouteCrypto where
  sha256 _ := beBytes 32 0
  length_sha256 _ := length_beBytes ..
  keccak256 _ := beBytes 32 0
  length_keccak256 _ := length_beBytes ..
  outputKey _ _ := .ok (beBytes 32 77, false)
  length_outputKey := by
    rintro signers threshold key odd ⟨⟩
    exact length_beBytes ..

attribute [local instance] crypto

def desc : DepositDescriptor := ⟨[beBytes 32 1], 1⟩

def depositScript : Bytes := 0x51 :: 0x20 :: beBytes 32 77

/-- Pays to a witness key hash. -/
def recipient : Bytes := 0x00 :: 0x14 :: beBytes 20 5

def utxo (value : ℕ) : Utxo := ⟨beBytes 32 9, 0, value⟩

theorem held_replicate (n : ℕ) : Held desc 1 (replicate n (utxo 1)) := by
  induction n with
  | zero => exact .start
  | succ n ih =>
    rw [replicate_succ']
    exact ih.deposit ⟨length_beBytes .., by norm_num [utxo], by norm_num [utxo]⟩ (by simp [utxo])

def utxos : List Utxo := replicate 64 (utxo 1) ++ [utxo 1000000000]

theorem held : Held desc 1 utxos :=
  (held_replicate 64).deposit ⟨length_beBytes .., by norm_num [utxo], by norm_num [utxo]⟩
    (by simp [utxo])

/-- Ten bitcoin are held, far more than the dearest fee, and no amount can be withdrawn. -/
theorem jammed : Held desc 1 utxos ∧ desc.scriptPubkey = .ok depositScript ∧
    isStandardDestination recipient = true ∧ recipient ≠ depositScript ∧
    withdrawalFee desc maxInputs [recipient, depositScript] 1 + 2 * dust ≤ totalValue utxos ∧
    ¬ ∃ amount ≤ totalValue utxos, ∃ plan,
      planWithdrawal desc utxos recipient amount 1 = .ok plan := by
  refine ⟨held, rfl, by decide, by decide, by decide, ?_⟩
  rintro ⟨amount, -, ⟨withdrawal, remaining⟩, planned⟩
  obtain ⟨k, few, -, -, covers⟩ := planWithdrawal_covers held.fits planned
  have less := totalValue_take_le few utxos
  have all : totalValue (utxos.take maxInputs) = 64 := by decide
  have floor : dust = 330 := rfl
  omega

/-- The single large output alone can be withdrawn. -/
theorem withdrawable_iff_large : ∃ amount ≤ totalValue [utxo 1000000000], ∃ plan,
    planWithdrawal desc [utxo 1000000000] recipient amount 1 = .ok plan :=
  (withdrawable_iff
    (Held.start.deposit (u := utxo 1000000000)
      ⟨length_beBytes .., by norm_num [utxo], by norm_num [utxo]⟩ (by simp [utxo])) rfl
    (by decide) (by decide)).2 ⟨1, by decide, by decide, by decide, by decide⟩

end DustDeposits
end Tenzro.Bridge
