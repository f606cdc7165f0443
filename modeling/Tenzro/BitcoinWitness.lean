import Tenzro.CoinsKept
import Tenzro.Tapscript

set_option autoImplicit false
set_option linter.dupNamespace false

/-!
# Completing a withdrawal

The digest each input is signed over, the witnesses assembled from the signers' signatures, and
when the descriptor's script accepts them.
-/
namespace Tenzro
open List Option
namespace Bridge
open ByteCodec FixedWidth Outcome
open Tapscript (Op number counted)

/-- Verification of one signature by a key over a digest. -/
class Schnorr where
  verifySchnorr : Bytes → Bytes → Bytes → Except String Unit

export Schnorr (verifySchnorr)

/-- The provably unspendable internal key. -/
def nums : Bytes :=
  [0x50, 0x92, 0x9b, 0x74, 0xc1, 0xa0, 0x49, 0x54, 0xb7, 0x8b, 0x4b, 0x60, 0x35, 0xe9, 0x7a, 0x5e,
    0x07, 0x8a, 0x5a, 0x0f, 0x28, 0xec, 0x96, 0xd5, 0x47, 0xbf, 0xee, 0x9a, 0xce, 0x80, 0x3a, 0xc0]

def leafVersion : UInt8 := 0xc0

/-! ### The threshold -/

def thresholdBytes (n : ℕ) : Bytes :=
  if 1 ≤ n ∧ n ≤ 16 then [UInt8.ofNat n]
  else
    let trimmed := trimScriptNumber (beBytes 4 n)
    (if trimmed.head?.any (fun b => 0x80 ≤ b) then 0 :: trimmed else trimmed).reverse

theorem ofBeBytes_cons (b : UInt8) (l : Bytes) :
    ofBeBytes (b :: l) = b.toNat * 256 ^ l.length + ofBeBytes l := by
  have append (x : Bytes) : ofLeBytes (x ++ [b]) = ofLeBytes x + 256 ^ x.length * b.toNat := by
    induction x with
    | nil => simp [ofLeBytes]
    | cons c x ih =>
      rw [cons_append, ofLeBytes, ofLeBytes, ih, length_cons, Nat.pow_succ']
      ring
  rw [ofBeBytes, reverse_cons, append, length_reverse, ofBeBytes]
  ring

/-- Trimming keeps the value, and a zero byte only before one that needs it. -/
theorem trim_spec {l : Bytes} (some : l ≠ []) : ∃ top below, trimScriptNumber l = top :: below ∧
    ofBeBytes (top :: below) = ofBeBytes l ∧ below.length < l.length ∧
    (top.toNat = 0 → ∀ c ∈ below.head?, 128 ≤ c.toNat) := by
  induction l using trimScriptNumber.induct with
  | case1 a b l small ih =>
    obtain ⟨top, below, trimmed, value, short, least⟩ := ih (cons_ne_nil _ _)
    refine ⟨top, below, ?_, ?_, short.trans (Nat.lt_succ_self _), least⟩
    · rw [trimScriptNumber, if_pos small, trimmed]
    · rw [value, small.1, ofBeBytes_cons 0]
      simp
  | case2 a b l other =>
    refine ⟨a, b :: l, by rw [trimScriptNumber, if_neg other], rfl, Nat.lt_succ_self _, ?_⟩
    rintro zero c ⟨⟩
    by_contra low
    exact other ⟨UInt8.toNat_inj.1 zero, UInt8.lt_iff_toNat_lt.2 (not_le.1 low)⟩
  | case3 l none =>
    obtain ⟨a, l, rfl⟩ := exists_cons_of_ne_nil some
    cases l with
    | nil => exact ⟨a, [], rfl, rfl, Nat.zero_lt_one, by simp⟩
    | cons b l => exact absurd rfl (none a b l)

theorem number_threshold {n : ℕ} (some_signer : 1 ≤ n) (fits : n < 2 ^ 32) :
    number (thresholdBytes n) = if n < 2 ^ 31 then some (n : ℤ) else none := by
  unfold thresholdBytes
  by_cases few : n ≤ 16
  · have value := Tapscript.number_encode n
    obtain ⟨m, rfl⟩ : ∃ m, n = m + 1 := ⟨n - 1, by omega⟩
    change number (Tapscript.unsigned (m + 1)) = _ at value
    rw [if_pos ⟨some_signer, few⟩]
    rwa [Tapscript.unsigned_small (by omega)] at value
  · rw [if_neg (by omega)]
    obtain ⟨top, below, trimmed, value, short, least⟩ :=
      trim_spec (l := beBytes 4 n) (by simp [← length_pos_iff])
    rw [ofBeBytes_beBytes (by omega)] at value
    rw [length_beBytes] at short
    simp only [trimmed, head?_cons, any_some, decide_eq_true_eq,
      UInt8.le_iff_toNat_le]
    have lead := ofBeBytes_cons top below
    have rest := ofBeBytes_lt below
    have byte := top.toNat_lt
    rw [value] at lead
    by_cases high : 128 ≤ top.toNat
    · rw [if_pos (show (0x80 : UInt8).toNat ≤ top.toNat from high),
        Tapscript.number_reverse (by decide) fun _ => ⟨top, rfl, high⟩, length_cons]
      have whole : ofBeBytes (0 :: top :: below) = n := by
        rw [ofBeBytes_cons, value]
        simp
      rw [whole]
      refine if_congr ?_ rfl rfl
      interval_cases below.length <;> omega
    · rw [if_neg (show ¬ (0x80 : UInt8).toNat ≤ top.toNat from high),
        Tapscript.number_reverse (not_le.1 high) fun zero => ?_, if_pos (by omega), value, if_pos]
      · interval_cases below.length <;> omega
      · cases below with
        | nil =>
          rw [zero] at lead
          simp [ofBeBytes, ofLeBytes] at lead
          omega
        | cons c l => exact ⟨c, rfl, least zero c rfl⟩

section
variable [RouteCrypto]

def tagged (tag : String) (b : Bytes) : Bytes :=
  let t := sha256 (utf8 tag)
  sha256 (t ++ (t ++ b))

namespace DepositDescriptor

def leafHash (d : DepositDescriptor) : Bytes :=
  tagged "TapLeaf" (leafVersion :: (compactSize d.leafScript.length ++ d.leafScript))

/-- Reveals the leaf when spending. -/
def controlBlock (d : DepositDescriptor) : Except String Bytes := do
  let (_, odd) ← RouteCrypto.outputKey d.signers d.threshold
  return (leafVersion ||| if odd then 1 else 0) :: nums

end DepositDescriptor

namespace Withdrawal

/-- The digest of a script-path spend of the descriptor's leaf. -/
def sighash (w : Withdrawal) (desc : DepositDescriptor) (index : ℕ) : Except String Bytes := do
  ensure (index < w.tx.inputs.length ∧ w.values.length = w.tx.inputs.length)
    (badWithdrawal "no such input")
  let spk ← desc.scriptPubkey
  let prevouts := sha256 (w.tx.inputs.flatMap TxIn.prevout)
  let amounts := sha256 (w.values.flatMap (leBytes 8))
  let scripts := sha256 (w.values.flatMap fun _ => compactSize spk.length ++ spk)
  let sequences := sha256 (w.tx.inputs.flatMap fun i => leBytes 4 i.sequence)
  let outputs := sha256 (w.tx.outputs.flatMap TxOut.encode)
  let m := [0x00, 0x00] ++ leBytes 4 w.tx.version ++ leBytes 4 w.tx.lockTime ++ prevouts ++
    amounts ++ scripts ++ sequences ++ outputs ++ [0x02] ++ leBytes 4 index ++ desc.leafHash ++
    [0x00] ++ leBytes 4 0xffffffff
  return tagged "TapSighash" m

end Withdrawal

section
variable [Schnorr]

def encodeWitness (items : List Bytes) : Bytes :=
  compactSize items.length ++ items.flatMap fun item => compactSize item.length ++ item

def signKey (digest : Bytes) (sigs : List (Bytes × Bytes)) (s : List Bytes × ℕ) (key : Bytes) :
    Except String (List Bytes × ℕ) :=
  match sigs.find? (fun p => p.1 = key) with
  | some (_, sig) => do
    verifySchnorr key digest sig
    return (s.1 ++ [sig], s.2 + 1)
  | none => return (s.1 ++ [[]], s.2)

namespace Withdrawal

def witness (w : Withdrawal) (desc : DepositDescriptor) (control : Bytes)
    (input : List (Bytes × Bytes) × ℕ) : Except String (List Bytes) := do
  let digest ← w.sighash desc input.2
  let (items, valid) ← desc.signers.reverse.foldlM (signKey digest input.1) ([], 0)
  ensure (desc.threshold ≤ valid) (badWithdrawal
    s!"input {input.2} has {valid} of the {desc.threshold} signatures it needs")
  return items ++ [desc.leafScript, control]

def signed (w : Withdrawal) (witnesses : List (List Bytes)) : Bytes :=
  let base := w.tx.encode
  base.take 4 ++ ([0x00, 0x01] ++ ((base.take (base.length - 4)).drop 4 ++
    (witnesses.flatMap encodeWitness ++ base.drop (base.length - 4))))

/-- The signed transaction, ready to broadcast. -/
def assemble (w : Withdrawal) (desc : DepositDescriptor)
    (signatures : List (List (Bytes × Bytes))) : Except String Bytes := do
  ensure (signatures.length = w.tx.inputs.length)
    (badWithdrawal "one set of signatures per input")
  let control ← desc.controlBlock
  let witnesses ← signatures.zipIdx.mapM (w.witness desc control)
  return w.signed witnesses

end Withdrawal

/-! ### What the script reads -/

section
variable {w : Withdrawal} {desc : DepositDescriptor} {sigs : List (Bytes × Bytes)}
  {digest control : Bytes}

def itemOf (sigs : List (Bytes × Bytes)) (key : Bytes) : Bytes :=
  ((sigs.find? (fun p => p.1 = key)).map Prod.snd).getD []

/-- How many of the descriptor's signers have a signature. -/
def signedBy (desc : DepositDescriptor) (sigs : List (Bytes × Bytes)) : ℕ :=
  desc.signers.countP fun key => (sigs.find? (fun p => p.1 = key)).isSome

omit [RouteCrypto] in
theorem signKeys_ok {keys items items' : List Bytes} {valid valid' : ℕ}
    (ran : keys.foldlM (signKey digest sigs) (items, valid) = .ok (items', valid')) :
    items' = items ++ keys.map (itemOf sigs) ∧
      valid' = valid + keys.countP (fun key => (sigs.find? (fun p => p.1 = key)).isSome) ∧
      ∀ key ∈ keys, ∀ p, sigs.find? (fun p => p.1 = key) = some p →
        verifySchnorr key digest p.2 = .ok () := by
  induction keys generalizing items valid with
  | nil =>
    obtain ⟨rfl, rfl⟩ := Prod.mk.inj (pure_ok.1 ran)
    simp
  | cons key keys ih =>
    rw [foldlM_cons] at ran
    obtain ⟨⟨more, count⟩, first, ran⟩ := bind_ok.1 ran
    obtain ⟨rfl, rfl, verified⟩ := ih ran
    unfold signKey at first
    rw [map_cons, countP_cons, forall_mem_cons, itemOf]
    cases found : sigs.find? (fun p => p.1 = key) with
    | none =>
      rw [found] at first
      obtain ⟨rfl, rfl⟩ := Prod.mk.inj (pure_ok.1 first)
      exact ⟨by simp, by simp, nofun, verified⟩
    | some p =>
      rw [found] at first
      obtain ⟨⟨⟩, good, first⟩ := bind_ok.1 first
      obtain ⟨rfl, rfl⟩ := Prod.mk.inj (pure_ok.1 first)
      refine ⟨by simp, by simp; omega, ?_, verified⟩
      rintro q ⟨⟩
      exact good

omit [RouteCrypto] [Schnorr] in
theorem parse_threshold (n : ℕ) : Tapscript.parse (DepositDescriptor.pushThreshold n ++ [0x9c]) =
    some [.push (thresholdBytes n), .numEqual] := by
  unfold DepositDescriptor.pushThreshold thresholdBytes
  split_ifs with few
  · have op : (UInt8.ofNat (0x50 + n)).toNat = 0x50 + n := Tapscript.toNat_ofNat (by omega)
    have same : UInt8.ofNat (0x50 + n) - 0x50 = UInt8.ofNat n := by
      obtain ⟨low, high⟩ := few
      interval_cases n <;> rfl
    rw [singleton_append, Tapscript.parse, if_neg (by omega), if_pos (by omega), same,
      Tapscript.parse_numEqual]
    rfl
  · obtain ⟨top, below, trimmed, -, short, -⟩ :=
      trim_spec (l := beBytes 4 n) (by simp [← length_pos_iff])
    rw [length_beBytes] at short
    simp only [trimmed]
    generalize pushed : (if ((top :: below).head?.any fun b => decide (0x80 ≤ b)) = true then
      0 :: top :: below else top :: below) = signed
    have size : 0 < signed.length ∧ signed.length ≤ 5 := by
      rw [← pushed]
      split_ifs <;> simp only [length_cons] <;> omega
    rw [cons_append, Tapscript.parse_push (by
      rw [Tapscript.toNat_ofNat (by omega), length_reverse]) (by
      simpa [← length_pos_iff] using size.1) (by rw [length_reverse]; omega),
      Tapscript.parse_numEqual]
    rfl

omit [RouteCrypto] [Schnorr] in
theorem parse_leafScript (keys : ∀ key ∈ desc.signers, key.length = 32) :
    Tapscript.parse desc.leafScript =
      some (Tapscript.multi desc.signers (thresholdBytes desc.threshold)) := by
  have each (l : List Bytes) (size : ∀ key ∈ l, key.length = 32) (k : ℕ) (tail : Bytes) :
      Tapscript.parse (((l.zipIdx k).flatMap fun k =>
        32 :: (k.1 ++ [if k.2 = 0 then 0xac else 0xba])) ++ tail) =
        (Tapscript.parse tail).map (((l.zipIdx k).flatMap fun k =>
          [Op.push k.1, if k.2 = 0 then .checkSig else .checkSigAdd]) ++ ·) := by
    induction l generalizing k with
    | nil => simp
    | cons key l ih =>
      obtain ⟨first, rest⟩ := forall_mem_cons.1 size
      simp only [zipIdx_cons, flatMap_cons, append_assoc, cons_append,
        nil_append]
      have op : (32 : UInt8).toNat = key.length := first.symm
      have some : key ≠ [] := by
        rintro rfl
        cases first
      rw [Tapscript.parse_push op some (by omega)]
      split_ifs
      · rw [Tapscript.parse_checkSig, ih rest]
        simp [Function.comp_def]
      · rw [Tapscript.parse_checkSigAdd, ih rest]
        simp [Function.comp_def]
  rw [DepositDescriptor.leafScript, append_assoc]
  refine (each desc.signers keys 0 _).trans ?_
  rw [parse_threshold]
  rfl

def Spends (w : Withdrawal) (desc : DepositDescriptor) (index : ℕ) (witness : List Bytes) : Prop :=
  ∃ digest, w.sighash desc index = .ok digest ∧
    match witness.reverse with
    | _ :: script :: stack =>
      Tapscript.accepts (fun key sig => (verifySchnorr key digest sig).isOk) script stack = true
    | _ => False

omit [RouteCrypto] [Schnorr] in
theorem itemOf_ne_nil (sized : ∀ p ∈ sigs, p.2.length = 64) (key : Bytes) :
    itemOf sigs key ≠ [] ↔ ∃ p, sigs.find? (fun p => p.1 = key) = some p := by
  unfold itemOf
  cases found : sigs.find? (fun p => p.1 = key) with
  | none => simp
  | some p =>
    have size := sized p (mem_of_find?_eq_some found)
    refine iff_of_true (fun empty => ?_) ⟨p, rfl⟩
    have none : p.2 = [] := empty
    rw [none] at size
    cases size

omit [RouteCrypto] [Schnorr] in
theorem counted_itemOf (sized : ∀ p ∈ sigs, p.2.length = 64) :
    counted (itemOf sigs) desc.signers = signedBy desc sigs := by
  refine countP_congr fun key _ => ?_
  rw [decide_eq_true_eq, itemOf_ne_nil sized, isSome_iff_exists]

omit [RouteCrypto] [Schnorr] in
theorem length_items (sized : ∀ p ∈ sigs, p.2.length = 64) (keys : List Bytes) :
    ((keys.map (itemOf sigs)).flatMap fun item => compactSize item.length ++ item).length =
      keys.length + 64 * counted (itemOf sigs) keys := by
  induction keys with
  | nil => rfl
  | cons key keys ih =>
    rw [map_cons, flatMap_cons, length_append, ih, counted, counted,
      countP_cons, length_cons, length_append]
    by_cases empty : itemOf sigs key = []
    · simp [empty, compactSize]
      omega
    · obtain ⟨p, found⟩ := (itemOf_ne_nil sized key).1 empty
      have size : (itemOf sigs key).length = 64 := by
        rw [itemOf, found]
        exact sized p (mem_of_find?_eq_some found)
      simp [empty, size, compactSize]
      omega

theorem spends_iff {index : ℕ} {witness : List Bytes}
    (keys : ∀ key ∈ desc.signers, key.length = 32) (sized : ∀ p ∈ sigs, p.2.length = 64)
    (some_signer : 1 ≤ desc.threshold) (u32 : desc.threshold < 2 ^ 32)
    (length_control : control.length = 33)
    (made : w.witness desc control (sigs, index) = .ok witness) :
    (Spends w desc index witness ∧ (encodeWitness witness).length ≤ desc.witnessLen) ↔
      desc.threshold < 2 ^ 31 ∧ signedBy desc sigs = desc.threshold := by
  unfold Withdrawal.witness at made
  dsimp only at made
  obtain ⟨digest, hashed, made⟩ := bind_ok.1 made
  obtain ⟨⟨items, valid⟩, signed, made⟩ := bind_ok.1 made
  obtain ⟨⟨⟩, enough, made⟩ := bind_ok.1 made
  obtain rfl := pure_ok.1 made
  obtain ⟨rfl, rfl, verified⟩ := signKeys_ok signed
  have enough := ensure_ok.1 enough
  dsimp only at enough ⊢
  rw [countP_reverse, Nat.zero_add] at enough
  change desc.threshold ≤ signedBy desc sigs at enough
  have some_key : desc.signers ≠ [] := by
    rintro none
    rw [signedBy, none, countP_nil] at enough
    omega
  have checks : ∀ key ∈ desc.signers,
      Tapscript.Checks (fun key sig => (verifySchnorr key digest sig).isOk) (itemOf sigs) key := by
    refine fun key mem => ⟨keys key mem, fun some => ?_⟩
    obtain ⟨p, found⟩ := (itemOf_ne_nil sized key).1 some
    have good := verified key (mem_reverse.2 mem) p found
    simp only [itemOf, found, map_some, getD_some, good]
    rfl
  have spends : Spends w desc index
      ([] ++ desc.signers.reverse.map (itemOf sigs) ++ [desc.leafScript, control]) ↔
        desc.threshold < 2 ^ 31 ∧ signedBy desc sigs = desc.threshold := by
    have leaves := Tapscript.multi_leaves some_key checks (thresholdBytes desc.threshold)
    rw [← Tapscript.accepts_iff (parse_leafScript keys), number_threshold some_signer u32,
      counted_itemOf sized] at leaves
    have stack : ([] ++ desc.signers.reverse.map (itemOf sigs) ++ [desc.leafScript, control]).reverse =
        control :: desc.leafScript :: desc.signers.map (itemOf sigs) := by
      simp
    have same : (signedBy desc sigs < 2 ^ 31 ∧
        (if desc.threshold < 2 ^ 31 then some (desc.threshold : ℤ) else none) =
          some (signedBy desc sigs : ℤ)) ↔
        desc.threshold < 2 ^ 31 ∧ signedBy desc sigs = desc.threshold := by
      split_ifs <;> simp <;> omega
    rw [same] at leaves
    unfold Spends
    rw [stack, ← leaves]
    refine ⟨fun ⟨digest', hashed', accepted⟩ => ?_, fun accepted => ⟨digest, hashed, accepted⟩⟩
    obtain rfl := Except.ok.inj (hashed.symm.trans hashed')
    exact accepted
  have length : (encodeWitness ([] ++ desc.signers.reverse.map (itemOf sigs) ++
      [desc.leafScript, control])).length + 64 * desc.threshold =
        desc.witnessLen + 64 * signedBy desc sigs := by
    have few : signedBy desc sigs ≤ desc.signers.length := countP_le_length
    have items := length_items sized desc.signers.reverse
    rw [counted, countP_reverse] at items
    change _ = _ + 64 * counted (itemOf sigs) desc.signers at items
    rw [counted_itemOf sized, length_reverse] at items
    simp only [encodeWitness, nil_append, flatMap_append, flatMap_cons,
      flatMap_nil, length_append, length_map, length_reverse, length_cons,
      length_nil, items, length_control, DepositDescriptor.witnessLen]
    have one : (compactSize 33).length = 1 := rfl
    have two : desc.signers.length + (0 + 1 + 1) = desc.signers.length + 2 := rfl
    rw [two]
    omega
  rw [spends]
  omega

omit [Schnorr] in
theorem length_controlBlock (revealed : desc.controlBlock = .ok control) : control.length = 33 := by
  obtain ⟨key, -, revealed⟩ := bind_ok.1 revealed
  obtain rfl := pure_ok.1 revealed
  rfl

/-- An assembled transaction spends every input within the bytes the fee was computed from when
each input is signed by exactly the threshold. -/
theorem assemble_spendable {signatures : List (List (Bytes × Bytes))} {raw : Bytes}
    (keys : ∀ key ∈ desc.signers, key.length = 32)
    (sized : ∀ sigs ∈ signatures, ∀ p ∈ sigs, p.2.length = 64)
    (some_signer : 1 ≤ desc.threshold) (u32 : desc.threshold < 2 ^ 32)
    (assembled : w.assemble desc signatures = .ok raw) :
    ∃ control witnesses, desc.controlBlock = .ok control ∧
      signatures.zipIdx.mapM (w.witness desc control) = .ok witnesses ∧
      raw = w.signed witnesses ∧ signatures.length = w.tx.inputs.length ∧
      ((∀ (i : ℕ) (witness : List Bytes), witnesses[i]? = some witness →
          Spends w desc i witness ∧ (encodeWitness witness).length ≤ desc.witnessLen) ↔
        ∀ sigs ∈ signatures, desc.threshold < 2 ^ 31 ∧ signedBy desc sigs = desc.threshold) := by
  obtain ⟨⟨⟩, count, assembled⟩ := bind_ok.1 assembled
  obtain ⟨control, revealed, assembled⟩ := bind_ok.1 assembled
  obtain ⟨witnesses, made, assembled⟩ := bind_ok.1 assembled
  obtain rfl := pure_ok.1 assembled
  refine ⟨control, witnesses, revealed, made, rfl, ensure_ok.1 count, ?_⟩
  obtain ⟨length, each⟩ := forall₂_iff_get.1 (mapM_ok.1 made)
  rw [length_zipIdx] at length
  have input (i : ℕ) (here : i < signatures.length) (there : i < witnesses.length) :
      (Spends w desc i witnesses[i] ∧ (encodeWitness witnesses[i]).length ≤ desc.witnessLen) ↔
        desc.threshold < 2 ^ 31 ∧ signedBy desc signatures[i] = desc.threshold := by
    have one := each i (by rwa [length_zipIdx]) there
    rw [get_eq_getElem, get_eq_getElem, getElem_zipIdx, Nat.zero_add] at one
    exact spends_iff keys (sized _ (getElem_mem here)) some_signer u32
      (length_controlBlock revealed) one
  constructor
  · intro all sigs mem
    obtain ⟨i, here, rfl⟩ := getElem_of_mem mem
    have there : i < witnesses.length := length ▸ here
    exact (input i here there).1 (all i _ (getElem?_eq_getElem there))
  · intro all i witness at_i
    obtain ⟨there, rfl⟩ := List.getElem?_eq_some_iff.1 at_i
    have here : i < signatures.length := length ▸ there
    exact (input i here there).2 (all _ (getElem_mem here))

end
end
end

/-! ### More signatures than the threshold -/

namespace OneOfTwo

open AssetMint (id32)
open RaisedConfirmations (crypto)

attribute [local instance] crypto

def sign (key digest : Bytes) : Bytes := beBytes 64 (ofBeBytes (key ++ digest) % (2 ^ 256 - 189))

@[reducible] def schnorr : Schnorr where
  verifySchnorr key digest sig := ensure (sig = sign key digest) "the signature does not verify"

attribute [local instance] schnorr

def desc : DepositDescriptor := ⟨[id32 1, id32 2], 1⟩

def w : Withdrawal := ⟨⟨2, [⟨beBytes 36 0, [], 0xffffffff⟩], [⟨5, [0x51]⟩], 0⟩, [7]⟩

/-- What the signers send when each of them signs. -/
def sigs : List (Bytes × Bytes) :=
  match w.sighash desc 0 with
  | .ok digest => [(id32 1, sign (id32 1) digest), (id32 2, sign (id32 2) digest)]
  | .error _ => []

def control : Bytes := leafVersion :: nums

def both : List Bytes := sigs.reverse.map Prod.snd ++ [desc.leafScript, control]

/-- The transaction with the first signer's alone. -/
def raw : Bytes := w.signed [[] :: (sigs.take 1).map Prod.snd ++ [desc.leafScript, control]]

theorem sized : ∀ p ∈ sigs, p.2.length = 64 := by decide +kernel

/-- One signer's signature spends. -/
theorem assemble_spendable_first : ∃ control witnesses, desc.controlBlock = .ok control ∧
    raw = w.signed witnesses ∧ ∀ (i : ℕ) (witness : List Bytes), witnesses[i]? = some witness →
      Spends w desc i witness ∧ (encodeWitness witness).length ≤ desc.witnessLen := by
  have assembled : w.assemble desc [sigs.take 1] = .ok raw := by decide +kernel
  obtain ⟨control, witnesses, revealed, -, built, -, spends⟩ :=
    assemble_spendable (by decide) (by decide +kernel) (by decide) (by decide) assembled
  exact ⟨control, witnesses, revealed, built,
    spends.2 fun sigs mem => ⟨by decide, by
      obtain rfl := mem_singleton.1 mem
      decide +kernel⟩⟩

/-- With both signatures the count is above the threshold and the witness above its bound. -/
theorem assemble_both : w.assemble desc [sigs] = .ok (w.signed [both]) ∧
    ¬ Spends w desc 0 both ∧ desc.witnessLen < (encodeWitness both).length := by
  refine ⟨by decide +kernel, ?_, by decide +kernel⟩
  rintro ⟨digest, hashed, accepted⟩
  have checked : (match w.sighash desc 0 with
      | .ok digest => Tapscript.accepts (fun key sig => (verifySchnorr key digest sig).isOk)
          desc.leafScript (sigs.map Prod.snd)
      | .error _ => true) = false := by decide +kernel
  rw [hashed] at checked
  exact absurd accepted (Bool.eq_false_iff.1 checked)

end OneOfTwo

end Bridge
end Tenzro
