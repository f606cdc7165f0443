import Tenzro.Outcome
import Tenzro.PrefixKeys
import Tenzro.Rlp
import Tenzro.SortedMap

set_option autoImplicit false
set_option linter.dupNamespace false

/-!
# The walk finds what the trie holds

A receipt's encoding, the trie built over every entry at once, and the walk
along a proof of one receipt from the root.
-/
namespace Tenzro.Receipt
open RlpCodec PrefixKeys List

/-- The 32-byte hash of the trie, and the root it gives a trie with no entries. -/
class KeccakHash where
  keccak : Bytes → Bytes
  length_keccak : ∀ b, (keccak b).length = 32
  emptyTrieRoot : Bytes

abbrev Nibble := Fin 16

def nibblesOf (b : UInt8) : List Nibble :=
  [⟨b.toNat / 16, by have := b.toNat_lt; omega⟩, ⟨b.toNat % 16, by omega⟩]

section
variable [RlpCodec] [KeccakHash]
open KeccakHash

def receiptKey (index : ℕ) : List Nibble := (uint index).flatMap nibblesOf

/-! ### Receipts -/

structure LogRef where
  address : Bytes
  topics : List Bytes
  data : Bytes
deriving DecidableEq, Repr

def accrue (bloom : Bytes) (item : Bytes) : Bytes :=
  let h := keccak item
  [0, 2, 4].foldl (fun bloom i =>
    let bit := ((h.getD i 0).toNat * 256 + (h.getD (i + 1) 0).toNat) % 2048
    bloom.modify (255 - bit / 8) fun b => b ||| (1 <<< UInt8.ofNat (bit % 8))) bloom

def accrueLog (bloom : Bytes) (log : LogRef) : Bytes :=
  log.topics.foldl accrue (accrue bloom log.address)

def encodeLog (log : LogRef) : Bytes :=
  list [string log.address, list (log.topics.map string), string log.data]

def encodeReceipt (txType : UInt8) (success : Bool) (cumulativeGasUsed : ℕ) (logs : List LogRef) :
    Bytes :=
  let bloom := logs.foldl accrueLog (replicate 256 0)
  let body := list [if success then uint 1 else string [], uint cumulativeGasUsed, string bloom,
    list (logs.map encodeLog)]
  if txType = 0 then body else txType :: body

/-! ### The trie -/

def pack (high low : ℕ) : UInt8 := UInt8.ofNat (high * 16 + low)

def packPairs : List Nibble → Bytes
  | a :: b :: rest => pack a b :: packPairs rest
  | _ => []

/-- The hex-prefix encoding of a path. -/
def hp (nibbles : List Nibble) (leaf : Bool) : Bytes :=
  let flag := if leaf then 2 else 0
  match nibbles.length % 2, nibbles with
  | 1, n :: rest => pack (flag + 1) n :: packPairs rest
  | _, _ => pack flag 0 :: packPairs nibbles

abbrev Entries := List (List Nibble × Bytes)

def reference (child : Bytes) (onPath : Bool) : Bytes × List Bytes :=
  if 32 ≤ child.length then (string (keccak child), if onPath then [child] else [])
  else (child, [])

/-- The node over the entries, keys relative to it, with the hashed nodes below it on the path to
`target`, deepest first. The longest key bounds the depth. -/
def node : ℕ → Entries → Option (List Nibble) → Bytes × List Bytes
  | 0, _, _ => ([], [])
  | depth + 1, entries, target =>
    match entries with
    | [e] => (list [string (hp e.1 true), string e.2], [])
    | _ =>
      let common := commonLength entries
      if 0 < common then
        let sub := target.map (·.drop common)
        let (child, path) := node depth (shorten common entries) sub
        let (ref, pushed) := reference child sub.isSome
        (list [string (hp (shared entries) false), ref], path ++ pushed)
      else
        let slots := (finRange 16).map fun n =>
          let sub := under n entries
          if sub = [] then (string [], [])
          else
            let t := (target.filter fun t => t.head? = some n).map List.tail
            let (child, path) := node depth sub t
            let (ref, pushed) := reference child t.isSome
            (ref, path ++ pushed)
        (list (slots.map Prod.fst ++ [string []]), slots.flatMap Prod.snd)

/-- A level above the longest key. -/
def depth (entries : Entries) : ℕ := (entries.map fun e => e.1.length).foldr max 0 + 1

def root (entries : Entries) : Bytes :=
  if entries = [] then emptyTrieRoot else keccak (node (depth entries) entries none).1

def build (entries : Entries) (key : List Nibble) : Bytes × List Bytes :=
  if entries = [] then (emptyTrieRoot, [])
  else
    let (top, path) := node (depth entries) entries (some key)
    (keccak top, (path ++ [top]).reverse)

def receiptsRoot (receipts : List (ℕ × Bytes)) : Bytes :=
  root (SortedMap.ofList (receipts.map fun r => (receiptKey r.1, r.2))).entries

end

open Outcome

def maxProofNodes : ℕ := 64

/-- One log of a receipt, its address and topics of their own lengths. -/
structure ReceiptLog where
  address : { b : Bytes // b.length = 20 }
  topics : List { b : Bytes // b.length = 32 }
  data : Bytes
deriving DecidableEq, Repr

def bad {α : Type} (what : String) : Except String α := .error s!"receipt proof: {what}"

def rlpError {α : Type} (x : Except String α) : Except String α :=
  match x with
  | .ok a => .ok a
  | .error e => bad s!"rlp: {e}"

def sized (w : ℕ) (b : Bytes) (what : String) : Except String { b : Bytes // b.length = w } :=
  if h : b.length = w then .ok ⟨b, h⟩ else bad what

section
variable [RlpCodec]

/-- An item that spans the bytes exactly. -/
def whole (bytes : Bytes) : Except String Bytes := do
  let (headerLen, valueLen) ← rlpError (payloadInfo bytes)
  ensure (headerLen + valueLen = bytes.length) "receipt proof: trailing bytes after an RLP item"
  return bytes

def item (r : Bytes) (i : ℕ) : Except String Bytes := rlpError (itemAt r i)

def data (r : Bytes) : Except String Bytes := do
  ensure (isList r = false) "receipt proof: expected an RLP string"
  rlpError (itemData r)

def count (r : Bytes) : Except String ℕ := do
  ensure (isList r = true) "receipt proof: expected an RLP list"
  rlpError (itemCount r)

/-! ### The walk -/

def hexPrefix : Bytes → Except String (Bool × List Nibble)
  | [] => bad "empty node path"
  | first :: rest => do
    let flag := first.toNat / 16
    ensure (flag < 4) "receipt proof: bad hex-prefix flag"
    let isLeaf : Bool := 2 ≤ flag
    let nibbles := rest.flatMap nibblesOf
    if flag % 2 = 1 then return (isLeaf, ⟨first.toNat % 16, by omega⟩ :: nibbles)
    ensure (first.toNat % 16 = 0) "receipt proof: non-zero padding in an even hex-prefix path"
    return (isLeaf, nibbles)

/-- What a trie node points to next. -/
inductive Next where
  | hash (h : Bytes)
  | inline (raw : Bytes)
deriving DecidableEq, Repr

def child (r : Bytes) : Except String Next := do
  if isList r then
    ensure (r.length < 32) "receipt proof: an inline child must be shorter than 32 bytes"
    return .inline r
  let d ← data r
  if d.length = 32 then return .hash d
  else if d.length = 0 then bad "the key is absent from the trie"
  else bad "a child reference is neither a hash nor an inline node"

def visit (node : Bytes) (rest : List Nibble) : Except String (Bytes ⊕ Next × List Nibble) := do
  let r ← whole node
  let n ← count r
  if n = 17 then
    match rest with
    | [] =>
      let v ← data (← item r 16)
      ensure (v ≠ []) "receipt proof: the key is absent from the trie"
      return .inl v
    | nibble :: tail => return .inr (← child (← item r nibble), tail)
  else if n = 2 then
    let (isLeaf, path) ← hexPrefix (← data (← item r 0))
    if isLeaf then
      ensure (path = rest) "receipt proof: the key is absent from the trie"
      return .inl (← data (← item r 1))
    ensure (path ≠ [] ∧ path <+: rest) "receipt proof: the key is absent from the trie"
    return .inr (← child (← item r 1), rest.drop path.length)
  else bad "a trie node is neither a branch nor a two-item node"

variable [KeccakHash]
open KeccakHash

def resolve (proof : List Bytes) (used : ℕ) : Next → Except String (Bytes × ℕ)
  | .hash h =>
    match proof[used]? with
    | none => bad "proof ends before the value"
    | some n =>
      if keccak n = h then .ok (n, used + 1)
      else bad s!"node {used} does not hash to its reference"
  | .inline raw => .ok (raw, used)

def finish (value : Bytes) (used total : ℕ) : Except String Bytes := do
  ensure (used = total) "receipt proof: the proof carries nodes the walk does not use"
  return value

/-- The loop of the walk: each turn but the last takes nibbles of the key, so that a turn more
than they number is never begun. -/
def walk (proof : List Bytes) : ℕ → Next → ℕ → List Nibble → Except String Bytes
  | 0, _, _, _ => bad "the walk takes no nibble"
  | turns + 1, next, used, rest => do
    let (node, used) ← resolve proof used next
    match ← visit node rest with
    | .inl value => finish value used proof.length
    | .inr (next, rest) => walk proof turns next used rest

def verifyTrieValue (root : Bytes) (key : List Nibble) (proof : List Bytes) : Except String Bytes := do
  ensure (proof.length ≤ maxProofNodes) "receipt proof: too many proof nodes"
  walk proof (key.length + 1) (.hash root) 0 key

end

/-! ### Logs -/

section
variable [RlpCodec]

def readTopics (t : Bytes) : Except String (List { b : Bytes // b.length = 32 }) := do
  let n ← count t
  (range n).mapM fun j => do sized 32 (← data (← item t j)) "a topic is 32 bytes"

def readLog (log : Bytes) : Except String ReceiptLog := do
  ensure ((← count log) = 3) "receipt proof: a log has three fields"
  let address ← sized 20 (← data (← item log 0)) "a log address is 20 bytes"
  let topics ← readTopics (← item log 1)
  ensure (topics.length ≤ 4) "receipt proof: a log has at most four topics"
  return ⟨address, topics, ← data (← item log 2)⟩

def receiptBody (receipt : Bytes) : Except String Bytes :=
  match receipt with
  | t :: rest => .ok (if t < 0x7f then rest else receipt)
  | [] => bad "empty receipt"

def successfulReceiptLogs (receipt : Bytes) : Except String (List ReceiptLog) := do
  let body ← receiptBody receipt
  let r ← whole body
  ensure ((← count r) = 4) "receipt proof: a receipt has four fields"
  let status ← data (← item r 0)
  ensure (status = [1]) "receipt proof: the transaction did not succeed"
  let logs ← item r 3
  let n ← count logs
  (range n).mapM fun i => do readLog (← item logs i)

variable [KeccakHash]

def verifyLog (receiptsRoot : Bytes) (txIndex logIndex : ℕ) (proof : List Bytes) :
    Except String ReceiptLog := do
  let receipt ← verifyTrieValue receiptsRoot (receiptKey txIndex) proof
  match (← successfulReceiptLogs receipt)[logIndex]? with
  | some log => return log
  | none => bad "the receipt has no log at that index"

end

open Outcome

/-! ### Paths -/

theorem pack_toNat (high low : ℕ) (h : high < 16) (l : low < 16) :
    (pack high low).toNat = high * 16 + low := by
  unfold pack
  rw [UInt8.toNat_ofNat']
  omega

theorem nibblesOf_pack (a b : Nibble) : nibblesOf (pack a b) = [a, b] := by
  have value := pack_toNat a b a.isLt b.isLt
  have high : (pack a b).toNat / 16 = a := by omega
  have low : (pack a b).toNat % 16 = b := by omega
  simp only [nibblesOf, List.cons.injEq, Fin.ext_iff]
  exact ⟨high, low, trivial⟩

theorem nibbles_packPairs : ∀ {l : List Nibble}, l.length % 2 = 0 →
    (packPairs l).flatMap nibblesOf = l
  | [], _ => rfl
  | [_], odd => by simp at odd
  | a :: b :: rest, even => by
    have shorter : rest.length % 2 = 0 := by
      simp only [length_cons] at even
      omega
    rw [packPairs, flatMap_cons, nibblesOf_pack, nibbles_packPairs shorter]
    rfl

theorem hexPrefix_hp (k : List Nibble) (leaf : Bool) : hexPrefix (hp k leaf) = .ok (leaf, k) := by
  rcases Nat.mod_two_eq_zero_or_one k.length with even | odd
  · have path : hp k leaf = pack (if leaf then 2 else 0) 0 :: packPairs k := by
      simp [hp, even]
    have value := pack_toNat (if leaf then 2 else 0) 0 (by cases leaf <;> decide) (by decide)
    have flag : (pack (if leaf then 2 else 0) 0).toNat / 16 = if leaf then 2 else 0 := by omega
    have low : (pack (if leaf then 2 else 0) 0).toNat % 16 = 0 := by omega
    rw [path]
    unfold hexPrefix
    simp only [flag, low, nibbles_packPairs even]
    cases leaf <;> rfl
  · match k, odd with
    | n :: rest, odd =>
      have shorter : rest.length % 2 = 0 := by
        simp only [length_cons] at odd
        omega
      have path : hp (n :: rest) leaf = pack ((if leaf then 2 else 0) + 1) n :: packPairs rest := by
        unfold hp
        simp only [odd]
      have value := pack_toNat ((if leaf then 2 else 0) + 1) n (by cases leaf <;> decide) n.isLt
      have flag : (pack ((if leaf then 2 else 0) + 1) n).toNat / 16 = (if leaf then 2 else 0) + 1 := by
        omega
      have low : (pack ((if leaf then 2 else 0) + 1) n).toNat % 16 = n := by omega
      rw [path]
      unfold hexPrefix
      simp only [flag, low, nibbles_packPairs shorter]
      cases leaf <;> rfl

theorem flatMap_nibblesOf_prefix : ∀ {a b : Bytes},
    a.flatMap nibblesOf <+: b.flatMap nibblesOf → a <+: b
  | [], _, _ => nil_prefix
  | x :: a, [], starts => by simp [nibblesOf] at starts
  | x :: a, y :: b, starts => by
    simp only [flatMap_cons, nibblesOf, cons_append, nil_append,
      cons_prefix_cons, Fin.mk.injEq] at starts
    obtain ⟨high, low, rest⟩ := starts
    have same : x = y := by
      apply UInt8.toNat_inj.1
      omega
    rw [same]
    exact cons_prefix_cons.2 ⟨rfl, flatMap_nibblesOf_prefix rest⟩

theorem length_flatMap_nibblesOf (a : Bytes) : (a.flatMap nibblesOf).length = 2 * a.length := by
  induction a with
  | nil => rfl
  | cons x a ih =>
    simp only [flatMap_cons, length_append, ih, nibblesOf, length_cons,
      length_nil]
    omega

section
variable [RlpCodec] [Lawful]

theorem receiptKey_extends {i j : ℕ} (starts : receiptKey i <+: receiptKey j) : i = j := by
  have items : uint i <+: uint j := flatMap_nibblesOf_prefix starts
  exact uintBytes_injective (Lawful.string_of_prefix items)

theorem length_receiptKey {i : ℕ} (fits : i < 2 ^ 64) : (receiptKey i).length ≤ 18 := by
  have short : (uintBytes i).length ≤ 8 := length_uintBytes (by norm_num at fits ⊢; exact fits)
  have item : (uint i).length ≤ (uintBytes i).length + 1 := Lawful.length_string (by omega)
  have doubled : (receiptKey i).length = 2 * (uint i).length := length_flatMap_nibblesOf (uint i)
  omega

/-! ### Reading one node -/

variable {parts : List Bytes} {i : ℕ} {p x : Bytes}

theorem whole_item (written : Item x) : whole x = .ok x := by
  obtain ⟨header, payload, info, spans⟩ := Lawful.payloadInfo_item written
  unfold whole
  rw [info]
  simp only [rlpError]
  change ensure _ _ >>= _ = _
  rw [ensure, if_pos spans]
  rfl

theorem count_list (each : ∀ p ∈ parts, Item p) : count (list parts) = .ok parts.length := by
  unfold count
  rw [Lawful.itemCount_list each, ensure, if_pos (Lawful.isList_list each)]
  rfl

theorem count_string (b : Bytes) : count (string b) = bad "expected an RLP list" := by
  unfold count
  rw [Lawful.isList_string, ensure, if_neg Bool.false_ne_true]
  rfl

theorem data_string (b : Bytes) : data (string b) = .ok b := by
  unfold data
  rw [Lawful.itemData_string, ensure, if_pos (Lawful.isList_string b)]
  rfl

theorem item_list (each : ∀ p ∈ parts, Item p) (at_i : parts[i]? = some p) :
    item (list parts) i = .ok p := by
  unfold item
  rw [Lawful.itemAt_list each at_i]
  rfl

theorem visit_pair {k rest : List Nibble} {leaf : Bool} {r : Bytes} (written : Item r) :
    visit (list [string (hp k leaf), r]) rest =
      if leaf then do
        ensure (k = rest) "receipt proof: the key is absent from the trie"
        return .inl (← data r)
      else do
        ensure (k ≠ [] ∧ k <+: rest) "receipt proof: the key is absent from the trie"
        return .inr (← child r, rest.drop k.length) := by
  have each : ∀ p ∈ [string (hp k leaf), r], Item p := by
    simpa using ⟨Item.string _, written⟩
  unfold visit
  rw [whole_item (.list each)]
  change count _ >>= _ = _
  rw [count_list each]
  simp only [bind, Except.bind, length_cons, length_nil]
  rw [if_neg (by decide), if_pos trivial, item_list each (i := 0) rfl]
  simp only [data_string, hexPrefix_hp]
  rw [item_list each (i := 1) rfl]

theorem visit_branch {rest : List Nibble} (slots : List Bytes) (each : ∀ p ∈ slots, Item p)
    (sixteen : slots.length = 16) :
    visit (list (slots ++ [string []])) rest =
      match rest with
      | [] => bad "the key is absent from the trie"
      | nibble :: tail => do
        return .inr (← child (slots.getD nibble []), tail) := by
  have all : ∀ p ∈ slots ++ [string []], Item p := by
    intro p mem
    rcases mem_append.1 mem with slot | value
    · exact each p slot
    · rw [mem_singleton.1 value]
      exact .string []
  unfold visit
  rw [whole_item (.list all)]
  change count _ >>= _ = _
  rw [count_list all]
  simp only [bind, Except.bind, length_append, sixteen, length_cons, length_nil]
  rw [if_pos trivial]
  cases rest with
  | nil =>
    simp only
    have at_end : (slots ++ [string []])[16]? = some (string []) := by
      rw [← sixteen, getElem?_append_right le_rfl, Nat.sub_self]
      rfl
    rw [item_list all at_end]
    simp only [data_string]
    rfl
  | cons nibble tail =>
    have inside : (nibble : ℕ) < slots.length := by
      rw [sixteen]
      exact nibble.isLt
    have at_nibble : (slots ++ [string []])[(nibble : ℕ)]? = some (slots.getD nibble []) := by
      rw [getElem?_append_left inside, getD_eq_getElem?_getD,
        getElem?_eq_getElem inside]
      rfl
    simp only
    rw [item_list all at_nibble]

theorem child_empty : child (string []) = bad "the key is absent from the trie" := by
  unfold child
  simp only [Lawful.isList_string, data_string]
  rfl

variable [KeccakHash]
open KeccakHash

/-- What a written reference to a node leads to. -/
def pointer (c : Bytes) : Next := if 32 ≤ c.length then .hash (keccak c) else .inline c

omit [Lawful] in
theorem reference_fst (c : Bytes) (onPath : Bool) :
    (reference c onPath).1 = if 32 ≤ c.length then string (keccak c) else c := by
  unfold reference
  split_ifs <;> rfl

omit [Lawful] in
theorem reference_snd (c : Bytes) (onPath : Bool) :
    (reference c onPath).2 = if 32 ≤ c.length ∧ onPath = true then [c] else [] := by
  unfold reference
  cases onPath <;> split_ifs <;> simp_all

theorem child_reference (each : ∀ p ∈ parts, Item p) {onPath : Bool} :
    child (reference (list parts) onPath).1 = .ok (pointer (list parts)) := by
  rw [reference_fst]
  unfold pointer child
  split_ifs with long written text
  · rw [Lawful.isList_string] at written
    exact absurd written Bool.false_ne_true
  · simp only [data_string, bind, Except.bind]
    rw [if_pos (length_keccak _)]
    rfl
  · rw [ensure, if_pos (by omega)]
    rfl
  · exact absurd (Lawful.isList_list each) text

omit [Lawful] in
theorem item_reference {c : Bytes} (written : Item c) {onPath : Bool} :
    Item (reference c onPath).1 := by
  rw [reference_fst]
  split_ifs with long
  · exact .string _
  · exact written

end

end Tenzro.Receipt
