import Tenzro.BridgeRoute
import Tenzro.FixedWidth

set_option autoImplicit false

/-!
# What is stored for a deposit route reads back

Transactions without witness data, the deposit a delivery's body names, the outputs the
deposit descriptor holds, and the withdrawal planned from the oldest of them.
-/
namespace Tenzro.Bridge
open ByteCodec FixedWidth Outcome List

def maxTxLen : ℕ := 60 * 1024

/-! ### Transactions -/

def compactSize (v : ℕ) : Bytes :=
  if v ≤ 0xfc then leBytes 1 v
  else if v ≤ 0xffff then 0xfd :: leBytes 2 v
  else 0xfe :: leBytes 4 v

def readCompactSize (max : ℕ) : Read ℕ := do
  let first ← readLe 1
  let (v, least) ←
    (if first = 0xfd then (fun v => (v, 0xfd)) <$> readLe 2
      else if first = 0xfe then (fun v => (v, 0x10000)) <$> readLe 4
      else if first = 0xff then (fun v => (v, 0x100000000)) <$> readLe 8
      else pure (first, 0) : Read (ℕ × ℕ))
  require (least ≤ v) "bitcoin deposit: non-minimal compact size"
  require (v ≤ max) s!"bitcoin deposit: count {v} exceeds {max}"
  return v

structure TxIn where
  prevout : Bytes
  scriptSig : Bytes
  sequence : ℕ
deriving DecidableEq, Repr

structure TxOut where
  value : ℕ
  script : Bytes
deriving DecidableEq, Repr

structure BitcoinTx where
  version : ℕ
  inputs : List TxIn
  outputs : List TxOut
  lockTime : ℕ
deriving DecidableEq, Repr

def TxIn.encode (i : TxIn) : Bytes :=
  i.prevout ++ (compactSize i.scriptSig.length ++ (i.scriptSig ++ leBytes 4 i.sequence))

def TxOut.encode (o : TxOut) : Bytes :=
  leBytes 8 o.value ++ (compactSize o.script.length ++ o.script)

def readTxIn : Read TxIn := do
  let prevout ← take 36
  let len ← readCompactSize maxTxLen
  let scriptSig ← take len
  let sequence ← readLe 4
  return ⟨prevout, scriptSig, sequence⟩

def readTxOut : Read TxOut := do
  let value ← readLe 8
  let len ← readCompactSize maxTxLen
  let script ← take len
  return ⟨value, script⟩

namespace BitcoinTx

def encode (tx : BitcoinTx) : Bytes :=
  leBytes 4 tx.version ++ (compactSize tx.inputs.length ++ (tx.inputs.flatMap TxIn.encode ++
    (compactSize tx.outputs.length ++ (tx.outputs.flatMap TxOut.encode ++ leBytes 4 tx.lockTime))))

def read : Read BitcoinTx := do
  let version ← readLe 4
  let n ← readCompactSize (maxTxLen / 41)
  require (n ≠ 0) "bitcoin deposit: a transaction without inputs (or with witness data)"
  let inputs ← repeated readTxIn n
  let n ← readCompactSize (maxTxLen / 9)
  let outputs ← repeated readTxOut n
  let lockTime ← readLe 4
  return ⟨version, inputs, outputs, lockTime⟩

def decode (b : Bytes) : Except String BitcoinTx := decodeWith read b

end BitcoinTx

section
variable [RouteCrypto]

def sha256d (b : Bytes) : Bytes := sha256 (sha256 b)

/-! ### Deposits -/

/-- A transaction and where it was mined. -/
structure Deposit where
  height : ℕ
  index : ℕ
  tx : Bytes
deriving DecidableEq, Repr

namespace Deposit

def read : Read Deposit := do
  let height ← readBe 8
  let index ← readBe 4
  let tx ← readBeBytes maxTxLen
  require (index < 2 ^ 20 ∧ height < 2 ^ 44) "bitcoin deposit: height or index out of range"
  require (tx.length ≠ 64) "bitcoin deposit: a 64-byte transaction"
  return ⟨height, index, tx⟩

def encode (d : Deposit) : Bytes := beBytes 8 d.height ++ (beBytes 4 d.index ++ writeBeBytes d.tx)

def txid (d : Deposit) : Bytes := sha256d d.tx

def sequence (d : Deposit) : ℕ := d.height * 2 ^ 20 + d.index

end Deposit

/-! ### The outputs the descriptor holds -/

structure Utxo where
  txid : Bytes
  vout : ℕ
  value : ℕ
deriving DecidableEq, Repr

namespace Utxo

def encode (u : Utxo) : Bytes := u.txid ++ (beBytes 4 u.vout ++ beBytes 8 u.value)

def read : Read Utxo := do
  let txid ← take 32
  let vout ← readBe 4
  let value ← readBe 8
  return ⟨txid, vout, value⟩

/-- The outpoint a spending input names. -/
def prevout (u : Utxo) : Bytes := u.txid ++ leBytes 4 u.vout

end Utxo

/-- The descriptor's outputs, oldest first, after their count as a u32. -/
def encodeUtxos (utxos : List Utxo) : Bytes :=
  beBytes 4 utxos.length ++ utxos.flatMap Utxo.encode

def decodeUtxos (b : Bytes) : Except String (List Utxo) :=
  decodeWith (do
    let n ← readBe 4
    require (n ≤ b.length / 44) "bitcoin withdrawal: the output set is truncated"
    repeated Utxo.read n) b

/-! ### The deposit descriptor -/

structure DepositDescriptor where
  signers : List Bytes
  threshold : ℕ
deriving DecidableEq, Repr

def trimScriptNumber : Bytes → Bytes
  | a :: b :: l => if a = 0 ∧ b < 0x80 then trimScriptNumber (b :: l) else a :: b :: l
  | l => l

namespace DepositDescriptor

def pushThreshold (n : ℕ) : Bytes :=
  if 1 ≤ n ∧ n ≤ 16 then [UInt8.ofNat (0x50 + n)]
  else
    let trimmed := trimScriptNumber (beBytes 4 n)
    let signed := if trimmed.head?.any (fun b => 0x80 ≤ b) then 0 :: trimmed else trimmed
    UInt8.ofNat signed.length :: signed.reverse

/-- Each key checked in turn, the valid signatures counted and compared with the threshold. -/
def leafScript (d : DepositDescriptor) : Bytes :=
  (d.signers.zipIdx.flatMap fun k => 32 :: k.1 ++ [if k.2 = 0 then 0xac else 0xba]) ++
    pushThreshold d.threshold ++ [0x9c]

def scriptPubkey (d : DepositDescriptor) : Except String Bytes := do
  let (x, _) ← RouteCrypto.outputKey d.signers d.threshold
  return 0x51 :: 0x20 :: x

/-- Witness bytes one input carries once `threshold` signers signed. -/
def witnessLen (d : DepositDescriptor) : ℕ :=
  let script := d.leafScript.length
  (compactSize (d.signers.length + 2)).length + d.threshold * 65 +
    (d.signers.length - d.threshold) + (compactSize script).length + script + 1 + 33

end DepositDescriptor

/-! ### Withdrawals -/

def dust : ℕ := 330

def maxInputs : ℕ := 64

def inputSequence : ℕ := 0xfffffffd

structure Withdrawal where
  tx : BitcoinTx
  values : List ℕ
deriving DecidableEq, Repr

namespace Withdrawal

def encode (w : Withdrawal) : Bytes := writeBeBytes w.tx.encode ++ w.values.flatMap (beBytes 8)

def decode (b : Bytes) : Except String Withdrawal :=
  decodeWith (do
    let bytes ← readBeBytes maxTxLen
    let tx ← (fun r => (BitcoinTx.decode bytes).map fun tx => (tx, r) : Read BitcoinTx)
    let values ← repeated (readBe 8) tx.inputs.length
    return ⟨tx, values⟩) b

def txid (w : Withdrawal) : Bytes := sha256d w.tx.encode

end Withdrawal

/-- P2PKH, P2SH, P2WPKH, P2WSH or P2TR. -/
def isStandardDestination (script : Bytes) : Bool :=
  (script.length = 25 && script.take 3 = [0x76, 0xa9, 0x14] && script.drop 23 = [0x88, 0xac]) ||
    (script.length = 23 && script.take 2 = [0xa9, 0x14] && script.drop 22 = [0x87]) ||
    (script.length = 22 && script.take 2 = [0x00, 0x14]) ||
    (script.length = 34 && script.take 2 = [0x00, 0x20]) ||
    (script.length = 34 && script.take 2 = [0x51, 0x20])

def badWithdrawal (what : String) : String := "bitcoin withdrawal: " ++ what

/-- Takes outputs until they cover the amount: what they hold and how many they are. -/
def selectInputs (amount : ℕ) : List Utxo → ℕ → ℕ → Except String (ℕ × ℕ)
  | [], spent, taken =>
    if amount ≤ spent then .ok (spent, taken)
    else .error (badWithdrawal "the descriptor holds less than the amount")
  | u :: rest, spent, taken =>
    if amount ≤ spent then .ok (spent, taken)
    else if maxValue 64 < spent + u.value then .error (badWithdrawal "value overflow")
    else selectInputs amount rest (spent + u.value) (taken + 1)

def withdrawalTx (spent : List Utxo) (recipient depositScript : Bytes) (pay change : ℕ) :
    BitcoinTx where
  version := 2
  inputs := spent.map fun u => ⟨u.prevout, [], inputSequence⟩
  outputs := ⟨pay, recipient⟩ :: if 0 < change then [⟨change, depositScript⟩] else []
  lockTime := 0

/-- The transaction that withdraws `amount`, and the outputs held once it is made: those it
did not spend, then its change. -/
def planWithdrawal (desc : DepositDescriptor) (utxos : List Utxo) (recipient : Bytes)
    (amount feeRate : ℕ) : Except String (Withdrawal × List Utxo) := do
  let depositScript ← desc.scriptPubkey
  ensure (isStandardDestination recipient = true ∧ recipient ≠ depositScript)
    (badWithdrawal "the recipient must be a standard output script other than the deposit script")
  let (spent, taken) ← selectInputs amount utxos 0 0
  ensure (taken ≤ maxInputs)
    (badWithdrawal s!"the withdrawal would spend more than {maxInputs} outputs; withdraw less")
  let change := spent - amount
  ensure (change = 0 ∨ dust ≤ change)
    (badWithdrawal s!"the change of {change} satoshis would be dust")
  -- the base serialization counts four times, marker, flag and witnesses once each
  let draft := withdrawalTx (utxos.take taken) recipient depositScript 0 change
  let weight := draft.encode.length * 4 + 2 + taken * desc.witnessLen
  let fee := (weight + 3) / 4 * feeRate
  ensure (fee ≤ maxValue 64) (badWithdrawal "fee overflow")
  ensure (fee ≤ amount ∧ dust ≤ amount - fee)
    (badWithdrawal s!"the amount does not cover the fee of {fee} satoshis and a non-dust payment")
  let withdrawal : Withdrawal :=
    { tx := withdrawalTx (utxos.take taken) recipient depositScript (amount - fee) change,
      values := (utxos.take taken).map Utxo.value }
  let kept := if 0 < change then [⟨withdrawal.txid, 1, change⟩] else []
  return (withdrawal, utxos.drop taken ++ kept)

end

section
variable {v max : ℕ}

theorem reads_compactSize_tail {least : ℕ} (le : least ≤ v) (small : v ≤ max) :
    Reads (do
      require (least ≤ v) "bitcoin deposit: non-minimal compact size"
      require (v ≤ max) s!"bitcoin deposit: count {v} exceeds {max}"
      return v) [] v := by
  refine Reads.seq (Reads.require le _) rfl ?_
  refine Reads.seq (Reads.require small _) rfl ?_
  exact Reads.pure v

theorem reads_compactSize (small : v ≤ max) (fits : v < 2 ^ 32) :
    Reads (readCompactSize max) (compactSize v) v := by
  unfold compactSize readCompactSize
  split_ifs with one two
  · refine Reads.seq (Reads.readLe (by omega)) (append_nil _).symm ?_
    rw [if_neg (by omega), if_neg (by omega), if_neg (by omega)]
    refine Reads.seq (Reads.pure _) rfl ?_
    exact reads_compactSize_tail (Nat.zero_le v) small
  · refine Reads.seq (Reads.readLe (w := 1) (n := 0xfd) (by norm_num)) rfl ?_
    rw [if_pos rfl]
    refine Reads.seq ((Reads.readLe (by omega)).map (g := fun v => (v, 0xfd)))
      (append_nil _).symm ?_
    exact reads_compactSize_tail (by omega) small
  · refine Reads.seq (Reads.readLe (w := 1) (n := 0xfe) (by norm_num)) rfl ?_
    rw [if_neg (by norm_num), if_pos rfl]
    refine Reads.seq ((Reads.readLe (by omega)).map (g := fun v => (v, 0x10000)))
      (append_nil _).symm ?_
    exact reads_compactSize_tail (by omega) small

end

/-! ### Transactions -/

structure TxIn.Fits (i : TxIn) : Prop where
  prevout : i.prevout.length = 36
  scriptSig : i.scriptSig.length ≤ maxTxLen
  sequence : i.sequence < 2 ^ 32

structure TxOut.Fits (o : TxOut) : Prop where
  value : o.value < 2 ^ 64
  script : o.script.length ≤ maxTxLen

structure BitcoinTx.Fits (tx : BitcoinTx) : Prop where
  version : tx.version < 2 ^ 32
  inputs : ∀ i ∈ tx.inputs, i.Fits
  some_input : tx.inputs ≠ []
  few_inputs : tx.inputs.length ≤ maxTxLen / 41
  outputs : ∀ o ∈ tx.outputs, o.Fits
  few_outputs : tx.outputs.length ≤ maxTxLen / 9
  lockTime : tx.lockTime < 2 ^ 32

theorem TxIn.Fits.reads {i : TxIn} (h : i.Fits) : Reads readTxIn i.encode i := by
  have short := h.scriptSig
  unfold maxTxLen at short
  refine Reads.seq (Reads.take h.prevout) rfl ?_
  refine Reads.seq (reads_compactSize h.scriptSig (by omega)) rfl ?_
  refine Reads.seq (Reads.take rfl) rfl ?_
  refine Reads.seq (Reads.readLe h.sequence) (append_nil _).symm ?_
  exact Reads.pure i

theorem TxOut.Fits.reads {o : TxOut} (h : o.Fits) : Reads readTxOut o.encode o := by
  have short := h.script
  unfold maxTxLen at short
  refine Reads.seq (Reads.readLe h.value) rfl ?_
  refine Reads.seq (reads_compactSize h.script (by omega)) rfl ?_
  refine Reads.seq (Reads.take rfl) (append_nil _).symm ?_
  exact Reads.pure o

theorem BitcoinTx.Fits.reads {tx : BitcoinTx} (h : tx.Fits) : Reads BitcoinTx.read tx.encode tx := by
  have few := h.few_inputs
  have few' := h.few_outputs
  unfold maxTxLen at few few'
  refine Reads.seq (Reads.readLe h.version) rfl ?_
  refine Reads.seq (reads_compactSize h.few_inputs (by omega)) rfl ?_
  refine Reads.seq (Reads.require (by simp [h.some_input]) _) rfl ?_
  refine Reads.seq (Reads.repeated fun i mem => (h.inputs i mem).reads) rfl ?_
  refine Reads.seq (reads_compactSize h.few_outputs (by omega)) rfl ?_
  refine Reads.seq (Reads.repeated fun o mem => (h.outputs o mem).reads) rfl ?_
  refine Reads.seq (Reads.readLe h.lockTime) (append_nil _).symm ?_
  exact Reads.pure tx

theorem BitcoinTx.decode_encode {tx : BitcoinTx} (h : tx.Fits) :
    BitcoinTx.decode tx.encode = .ok tx :=
  h.reads.decodeWith

theorem length_compactSize_le (v : ℕ) : (compactSize v).length ≤ 5 := by
  unfold compactSize
  split_ifs <;> simp

theorem length_outputs {outputs : List TxOut} (short : ∀ o ∈ outputs, o.script.length ≤ 34) :
    (outputs.flatMap TxOut.encode).length ≤ 47 * outputs.length := by
  induction outputs with
  | nil => simp
  | cons o outputs ih =>
    have size := short o (by simp)
    have rest := ih fun v mem => short v (by simp [mem])
    have front := length_compactSize_le o.script.length
    simp only [flatMap_cons, length_append, length_cons, TxOut.encode,
      length_leBytes]
    omega

theorem readTxOut_ok {o : TxOut} {r r' : Reader} (h : readTxOut r = .ok (o, r')) :
    o.value < 2 ^ 64 := by
  obtain ⟨value, r₁, read, h⟩ := read_bind_ok.1 h
  obtain ⟨len, r₂, -, h⟩ := read_bind_ok.1 h
  obtain ⟨script, r₃, -, h⟩ := read_bind_ok.1 h
  obtain ⟨rfl, -⟩ := read_pure_ok.1 h
  exact readLe_ok read

theorem readCompactSize_ok {max n : ℕ} {r r' : Reader} (h : readCompactSize max r = .ok (n, r')) :
    n ≤ max := by
  obtain ⟨first, r₁, -, h⟩ := read_bind_ok.1 h
  obtain ⟨⟨v, least⟩, r₂, -, h⟩ := read_bind_ok.1 h
  obtain ⟨⟨⟩, r₃, -, h⟩ := read_bind_ok.1 h
  obtain ⟨⟨⟩, r₄, small, h⟩ := read_bind_ok.1 h
  obtain ⟨rfl, -⟩ := read_pure_ok.1 h
  exact (require_ok.1 small).1

theorem BitcoinTx.decode_outputs {b : Bytes} {tx : BitcoinTx} (h : BitcoinTx.decode b = .ok tx) :
    tx.outputs.length ≤ maxTxLen / 9 ∧ ∀ o ∈ tx.outputs, o.value < 2 ^ 64 := by
  obtain ⟨r, h, -⟩ := decodeWith_ok.1 h
  obtain ⟨version, r₁, -, h⟩ := read_bind_ok.1 h
  obtain ⟨n, r₂, -, h⟩ := read_bind_ok.1 h
  obtain ⟨⟨⟩, r₃, -, h⟩ := read_bind_ok.1 h
  obtain ⟨inputs, r₄, -, h⟩ := read_bind_ok.1 h
  obtain ⟨m, r₅, few, h⟩ := read_bind_ok.1 h
  obtain ⟨outputs, r₆, listed, h⟩ := read_bind_ok.1 h
  obtain ⟨lockTime, r₇, -, h⟩ := read_bind_ok.1 h
  obtain ⟨rfl, -⟩ := read_pure_ok.1 h
  obtain ⟨size, each⟩ := repeated_ok listed
  refine ⟨by simpa [size] using readCompactSize_ok few, fun o mem => ?_⟩
  obtain ⟨r₈, r₉, read⟩ := each o mem
  exact readTxOut_ok read

/-! ### Deposits -/

/-- What a deposit body needs to read back. -/
structure Deposit.Fits (d : Deposit) : Prop where
  height : d.height < 2 ^ 44
  index : d.index < 2 ^ 20
  short : d.tx.length ≤ maxTxLen
  not64 : d.tx.length ≠ 64

theorem Deposit.Fits.reads {d : Deposit} (h : d.Fits) : Reads Deposit.read d.encode d := by
  have height := h.height
  have index := h.index
  have short := h.short
  unfold maxTxLen at short
  refine Reads.seq (Reads.readBe (by omega)) rfl ?_
  refine Reads.seq (Reads.readBe (by omega)) rfl ?_
  refine Reads.seq (Reads.readBeBytes (by omega) h.short) (append_nil _).symm ?_
  refine Reads.seq (Reads.require ⟨index, height⟩ _) rfl ?_
  refine Reads.seq (Reads.require h.not64 _) rfl ?_
  exact Reads.pure d

/-! ### Output sets -/

structure Utxo.Fits (u : Utxo) : Prop where
  txid : u.txid.length = 32
  vout : u.vout < 2 ^ 32
  value : u.value < 2 ^ 64

theorem Utxo.Fits.reads {u : Utxo} (h : u.Fits) : Reads Utxo.read u.encode u := by
  refine Reads.seq (Reads.take h.txid) rfl ?_
  refine Reads.seq (Reads.readBe h.vout) rfl ?_
  refine Reads.seq (Reads.readBe h.value) (append_nil _).symm ?_
  exact Reads.pure u

theorem Utxo.Fits.length_encode {u : Utxo} (h : u.Fits) : u.encode.length = 44 := by
  simp [Utxo.encode, h.txid]

theorem length_inputs {spent : List Utxo} (fit : ∀ u ∈ spent, u.Fits) :
    ((spent.map fun u => (⟨u.prevout, [], inputSequence⟩ : TxIn)).flatMap TxIn.encode).length =
      41 * spent.length := by
  induction spent with
  | nil => rfl
  | cons u spent ih =>
    have size := (fit u (by simp)).txid
    have rest := ih fun v mem => fit v (by simp [mem])
    simp only [map_cons, flatMap_cons, length_append, rest, length_cons]
    simp [TxIn.encode, Utxo.prevout, size, compactSize]
    omega

theorem length_flatMap_encode {utxos : List Utxo} (fit : ∀ u ∈ utxos, u.Fits) :
    (utxos.flatMap Utxo.encode).length = 44 * utxos.length := by
  induction utxos with
  | nil => rfl
  | cons u utxos ih =>
    have first := (fit u (by simp)).length_encode
    have rest := ih fun v mem => fit v (by simp [mem])
    simp only [flatMap_cons, length_append, length_cons]
    omega

theorem decodeUtxos_encodeUtxos {utxos : List Utxo} (fit : ∀ u ∈ utxos, u.Fits)
    (few : utxos.length < 2 ^ 32) : decodeUtxos (encodeUtxos utxos) = .ok utxos := by
  have size := length_flatMap_encode fit
  unfold decodeUtxos
  refine Reads.decodeWith (x := encodeUtxos utxos) ?_
  refine Reads.seq (Reads.readBe (w := 4) (by omega)) rfl ?_
  refine Reads.seq (Reads.require ?_ _) rfl (Reads.repeated fun u mem => (fit u mem).reads)
  rw [encodeUtxos, length_append, length_beBytes, size]
  omega

/-! ### Withdrawals -/

/-- What a withdrawal record needs to read back. -/
structure Withdrawal.Fits (w : Withdrawal) : Prop where
  tx : w.tx.Fits
  short : w.tx.encode.length ≤ maxTxLen
  one_each : w.values.length = w.tx.inputs.length
  values : ∀ v ∈ w.values, v < 2 ^ 64

theorem Withdrawal.decode_encode {w : Withdrawal} (h : w.Fits) :
    Withdrawal.decode w.encode = .ok w := by
  have short := h.short
  unfold maxTxLen at short
  unfold Withdrawal.decode
  refine Reads.decodeWith (x := w.encode) ?_
  refine Reads.seq (Reads.readBeBytes (by omega) h.short) rfl ?_
  refine Reads.seq (Reads.lift (BitcoinTx.decode_encode h.tx)) rfl ?_
  rw [← h.one_each]
  refine Reads.seq (Reads.repeated fun v mem => Reads.readBe (h.values v mem))
    (append_nil _).symm ?_
  exact Reads.pure w

/-- From 2^32 outputs on the count no longer tells how many follow, and the set does not read
back. -/
theorem decodeUtxos_encodeUtxos_many {utxos : List Utxo} (fit : ∀ u ∈ utxos, u.Fits)
    (many : 2 ^ 32 ≤ utxos.length) : ∃ e, decodeUtxos (encodeUtxos utxos) = .error e := by
  cases read : decodeUtxos (encodeUtxos utxos) with
  | error e => exact ⟨e, rfl⟩
  | ok l =>
    exfalso
    obtain ⟨r, h, done⟩ := decodeWith_ok.1 read
    obtain ⟨n, r₁, count, h⟩ := read_bind_ok.1 h
    obtain ⟨⟨⟩, r₂, small, h⟩ := read_bind_ok.1 h
    have counted := Reads.readBe_mod 4 utxos.length 0 (utxos.flatMap Utxo.encode)
    rw [encodeUtxos, counted] at count
    cases count
    obtain ⟨-, rfl⟩ := require_ok.1 small
    have fewer : utxos.length % 256 ^ 4 < utxos.length := by omega
    have first : Reads (repeated Utxo.read (utxos.take (utxos.length % 256 ^ 4)).length)
        ((utxos.take (utxos.length % 256 ^ 4)).flatMap Utxo.encode)
        (utxos.take (utxos.length % 256 ^ 4)) :=
      Reads.repeated fun u mem => (fit u (mem_of_mem_take mem)).reads
    rw [length_take, Nat.min_eq_left fewer.le] at first
    have split : utxos.flatMap Utxo.encode =
        (utxos.take (utxos.length % 256 ^ 4)).flatMap Utxo.encode ++
          (utxos.drop (utxos.length % 256 ^ 4)).flatMap Utxo.encode := by
      rw [← flatMap_append, take_append_drop]
    rw [split, first] at h
    cases h
    have later : ∀ u ∈ utxos.drop (utxos.length % 256 ^ 4), u.Fits :=
      fun u mem => fit u (mem_of_mem_drop mem)
    have size := length_flatMap_encode later
    simp only at done
    rw [done, length_drop] at size
    simp at size
    omega

/-! ### Witness sizes -/

theorem length_trimScriptNumber (l : Bytes) : (trimScriptNumber l).length ≤ l.length := by
  induction l with
  | nil => simp [trimScriptNumber]
  | cons a l ih =>
    cases l with
    | nil => simp [trimScriptNumber]
    | cons b l =>
      unfold trimScriptNumber
      split_ifs
      · exact ih.trans (by simp)
      · exact le_refl _

theorem length_pushThreshold (n : ℕ) : (DepositDescriptor.pushThreshold n).length ≤ 6 := by
  have trimmed := length_trimScriptNumber (beBytes 4 n)
  rw [length_beBytes] at trimmed
  simp only [DepositDescriptor.pushThreshold]
  split_ifs <;> simp only [length_cons, length_reverse, length_nil] <;> omega

theorem DepositDescriptor.length_leafScript {d : DepositDescriptor}
    (keys : ∀ k ∈ d.signers, k.length = 32) : d.leafScript.length ≤ 34 * d.signers.length + 7 := by
  have pushes (l : List (Bytes × ℕ)) (size : ∀ k ∈ l, k.1.length = 32) :
      (l.flatMap fun k => 32 :: k.1 ++ [if k.2 = 0 then (0xac : UInt8) else 0xba]).length =
        34 * l.length := by
    induction l with
    | nil => rfl
    | cons k l ih =>
      have first := size k (by simp)
      have rest := ih fun x mem => size x (by simp [mem])
      simp only [flatMap_cons, length_append, length_cons, length_nil, rest,
        first]
      omega
  have each := pushes d.signers.zipIdx fun k mem => keys _ (fst_mem_of_mem_zipIdx mem)
  have threshold := length_pushThreshold d.threshold
  simp only [leafScript, length_append, each, length_zipIdx, length_singleton]
  omega

theorem DepositDescriptor.witnessLen_le {d : DepositDescriptor}
    (keys : ∀ k ∈ d.signers, k.length = 32) (few : d.signers.length ≤ 32)
    (enough : d.threshold ≤ d.signers.length) : d.witnessLen ≤ 4000 := by
  have script := d.length_leafScript keys
  have counts := length_compactSize_le (d.signers.length + 2)
  have counts' := length_compactSize_le d.leafScript.length
  simp only [witnessLen]
  omega

end Tenzro.Bridge
