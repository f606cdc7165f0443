import Tenzro.ReceiptWalk

set_option autoImplicit false

/-!
# Receipt proofs agree with the receipts trie

The proof of a present index is accepted with its receipt, no proof shows anything else, and
a log shown is the one the receipt was encoded with.
-/
namespace Tenzro.Receipt
open RlpCodec PrefixKeys Outcome KeccakHash List SortedMap

section
variable [RlpCodec] [KeccakHash]

def entriesOf (receipts : List (ℕ × Bytes)) : Entries :=
  receipts.map fun r => (receiptKey r.1, r.2)

def allNodes (entries : Entries) : List Bytes :=
  if entries = [] then [string []] else trieNodes (depth entries) entries

variable {receipts other : List (ℕ × Bytes)} {i : ℕ} {v : Bytes} {proof : List Bytes}

theorem root_perm {entries entries' : Entries} (same : entries.Perm entries') :
    root entries = root entries' := by
  unfold root
  by_cases empty : entries = []
  · have empty' : entries' = [] := by
      rw [empty] at same
      exact same.nil_eq.symm
    rw [if_pos empty, if_pos empty']
  · have empty' : entries' ≠ [] := fun none => empty (by
      rw [none] at same
      exact same.eq_nil)
    have levels : depth entries = depth entries' := by
      unfold depth
      rw [(same.map _).foldr_eq 0]
    rw [if_neg empty, if_neg empty', levels]
    exact congrArg keccak (encoded_perm same)

theorem build_root {entries : Entries} {key : List Nibble} :
    (build entries key).1 = root entries := by
  unfold build root
  split_ifs
  · rfl
  · exact congrArg keccak (node_fst _ _ _)

variable [Lawful]

omit [KeccakHash] in
theorem entriesOf_prefixFree (distinct : (receipts.map Prod.fst).Nodup) :
    PrefixFree (entriesOf receipts) := by
  refine pairwise_map.2 ((pairwise_map.1 distinct).imp fun apart => ⟨?_, ?_⟩)
  · exact fun starts => apart (receiptKey_extends starts)
  · exact fun starts => apart (receiptKey_extends starts).symm

omit [KeccakHash] in
theorem mem_entriesOf : (receiptKey i, v) ∈ entriesOf receipts ↔ (i, v) ∈ receipts := by
  constructor
  · intro mem
    obtain ⟨⟨j, w⟩, mem_j, eq⟩ := mem_map.1 mem
    obtain ⟨keys, rfl⟩ := Prod.mk.inj eq
    have starts : receiptKey j <+: receiptKey i := keys ▸ prefix_rfl
    exact receiptKey_extends starts ▸ mem_j
  · exact fun mem => mem_map.2 ⟨(i, v), mem, rfl⟩

theorem receiptsRoot_eq (distinct : (receipts.map Prod.fst).Nodup) :
    receiptsRoot receipts = root (entriesOf receipts) := by
  have keys : PrefixFree (entriesOf receipts) := entriesOf_prefixFree distinct
  refine root_perm ((perm_ext_iff_of_nodup ?_ ?_).2 fun e => ?_)
  · have sorted := keys_nodup (ofList (entriesOf receipts))
    exact Nodup.of_map _ sorted
  · refine Nodup.of_map Prod.fst ?_
    refine pairwise_map.2 (List.Pairwise.imp ?_ keys)
    exact fun apart same => apart.1 (same ▸ prefix_rfl)
  · obtain ⟨k, x⟩ := e
    change (k, x) ∈ (ofList (entriesOf receipts)).entries ↔ _
    rw [mem_entries]
    constructor
    · exact mem_of_get?_ofList
    · intro mem
      have present := contains_ofList (mem_map.2 ⟨(k, x), mem, rfl⟩)
      obtain ⟨y, held⟩ := contains_eq_true.1 present
      rwa [← keys.value_unique (mem_of_get?_ofList held) mem]

/-- The builder's proof of a present index is accepted, with its receipt. -/
theorem verify_build (distinct : (receipts.map Prod.fst).Nodup)
    (bounded : ∀ r ∈ receipts, r.1 < 2 ^ 64) (mem : (i, v) ∈ receipts) :
    verifyTrieValue (root (entriesOf receipts)) (receiptKey i)
      (build (entriesOf receipts) (receiptKey i)).2 = .ok v := by
  have keys : PrefixFree (entriesOf receipts) := entriesOf_prefixFree distinct
  have here : (receiptKey i, v) ∈ entriesOf receipts := mem_entriesOf.2 mem
  have some_entry := ne_nil_of_mem here
  have length : (receiptKey i).length ≤ 18 := length_receiptKey (bounded _ mem)
  have path := length_path (d := depth (entriesOf receipts)) here keys
  have top : root (entriesOf receipts) =
      keccak (encoded (depth (entriesOf receipts)) (entriesOf receipts)) := if_neg some_entry
  have proof : (build (entriesOf receipts) (receiptKey i)).2 =
      [encoded (depth (entriesOf receipts)) (entriesOf receipts)] ++
        (node (depth (entriesOf receipts)) (entriesOf receipts)
          (some (receiptKey i))).2.reverse := by
    unfold build
    rw [if_neg some_entry]
    simp only [reverse_append, node_fst]
    rfl
  have short : (build (entriesOf receipts) (receiptKey i)).2.length ≤ maxProofNodes := by
    rw [proof, length_append, length_reverse, length_singleton]
    unfold maxProofNodes
    omega
  unfold verifyTrieValue
  rw [ensure, if_pos short, top]
  change walk _ _ _ _ _ = _
  refine walk_complete keys (fits_depth _) here proof ?_ (Nat.lt_succ_self _)
  rw [proof]
  simp [resolve]

theorem verify_sound (distinct : (receipts.map Prod.fst).Nodup)
    (empty : emptyTrieRoot = keccak (string []))
    (free : NoCollision proof (allNodes (entriesOf receipts)))
    (accepted : verifyTrieValue (root (entriesOf receipts)) (receiptKey i) proof = .ok v) :
    (i, v) ∈ receipts := by
  obtain ⟨_, -, went⟩ := bind_ok.1 accepted
  by_cases none : entriesOf receipts = []
  · have at_empty : allNodes (entriesOf receipts) = [string []] := if_pos none
    have top : root (entriesOf receipts) = keccak (string []) := by
      rw [← empty]
      exact if_pos none
    rw [top] at went
    rw [at_empty] at free
    have turn := walk_turn (hash_leads fun n hn same =>
      free n hn _ (mem_singleton_self _) same) went
    have refused (rest : List Nibble) : visit (string []) rest = bad "expected an RLP list" := by
      unfold visit
      rw [whole_item (.string [])]
      change count _ >>= _ = _
      rw [count_string]
      rfl
    rw [refused] at turn
    rcases turn with ended | ⟨_, _, _, onward, -⟩ <;> simp_all [bad]
  · have nodes : allNodes (entriesOf receipts) =
        trieNodes (depth (entriesOf receipts)) (entriesOf receipts) := if_neg none
    have top : root (entriesOf receipts) =
        keccak (encoded (depth (entriesOf receipts)) (entriesOf receipts)) := if_neg none
    have fits := fits_depth (entriesOf receipts)
    rw [nodes] at free
    rw [top] at went
    exact mem_entriesOf.1 (walk_sound (entriesOf_prefixFree distinct) none fits free
      (hash_leads fun n hn same => free n hn _ (encoded_mem_trieNodes fits none) same) went)

end

/-! ### Logs -/

/-- What a receipt is encoded from. -/
structure Fields where
  txType : UInt8
  success : Bool
  cumulativeGasUsed : ℕ
  logs : List LogRef

def ReceiptLog.ref (l : ReceiptLog) : LogRef := ⟨l.address, l.topics.map Subtype.val, l.data⟩

def LogRef.Shaped (l : LogRef) : Prop :=
  l.address.length = 20 ∧ l.topics.length ≤ 4 ∧ ∀ t ∈ l.topics, t.length = 32

theorem sized_ok {w : ℕ} {b : Bytes} {what : String} {s : { b : Bytes // b.length = w }} :
    sized w b what = .ok s ↔ s.val = b := by
  unfold sized
  split_ifs with length
  · rw [Except.ok.injEq, ← Subtype.coe_inj]
    exact eq_comm
  · refine ⟨fun refused => by simp [bad] at refused, fun same => ?_⟩
    exact absurd (same ▸ s.property) length

theorem mapM_sized {w : ℕ} {what : String} {l : List Bytes}
    {out : List { b : Bytes // b.length = w }} :
    l.mapM (fun b => sized w b what) = .ok out ↔ out.map Subtype.val = l :=
  mapM_inverse fun _ _ => sized_ok

theorem ReceiptLog.ref_injective : Function.Injective ReceiptLog.ref := by
  rintro ⟨a, topics, d⟩ ⟨a', topics', d'⟩ same
  simp only [ReceiptLog.ref, LogRef.mk.injEq] at same
  obtain ⟨address, tops, rfl⟩ := same
  rw [Subtype.ext address, map_injective_iff.2 Subtype.val_injective tops]

section
variable [RlpCodec]

def Fields.bytes [KeccakHash] (f : Fields) : Bytes :=
  encodeReceipt f.txType f.success f.cumulativeGasUsed f.logs

variable [Lawful]

omit [Lawful] in
theorem items_of_log (l : LogRef) :
    ∀ p ∈ [string l.address, list (l.topics.map string), string l.data], Item p := by
  intro p mem
  simp only [mem_cons, not_mem_nil, or_false] at mem
  rcases mem with rfl | rfl | rfl
  · exact .string _
  · refine .list fun p mem => ?_
    obtain ⟨t, -, rfl⟩ := mem_map.1 mem
    exact .string t
  · exact .string _

theorem readTopics_list (topics : List Bytes) : readTopics (list (topics.map string)) =
    topics.mapM fun t => sized 32 t "a topic is 32 bytes" := by
  have each : ∀ p ∈ topics.map string, Item p := by
    intro p mem
    obtain ⟨t, -, rfl⟩ := mem_map.1 mem
    exact .string t
  unfold readTopics
  rw [count_list each, length_map]
  refine mapM_range fun i t at_i => ?_
  have at_string : (topics.map string)[i]? = some (string t) := by
    rw [getElem?_map, at_i]
    rfl
  rw [item_list each at_string]
  change data (string t) >>= _ = _
  rw [data_string]
  rfl

theorem readLog_encodeLog {l : LogRef} {log : ReceiptLog} :
    readLog (encodeLog l) = .ok log ↔ log.ref = l ∧ l.topics.length ≤ 4 := by
  have each := items_of_log l
  have read : readLog (encodeLog l) = (do
      let address ← sized 20 l.address "a log address is 20 bytes"
      let topics ← l.topics.mapM fun t => sized 32 t "a topic is 32 bytes"
      ensure (topics.length ≤ 4) "receipt proof: a log has at most four topics"
      return ⟨address, topics, l.data⟩) := by
    unfold readLog encodeLog
    rw [count_list each, item_list each (i := 0) rfl, item_list each (i := 1) rfl,
      item_list each (i := 2) rfl]
    simp only [bind, Except.bind, data_string, readTopics_list]
    rfl
  rw [read]
  constructor
  · intro went
    obtain ⟨address, sized_address, went⟩ := bind_ok.1 went
    obtain ⟨topics, sized_topics, went⟩ := bind_ok.1 went
    obtain ⟨_, few, same⟩ := bind_ok.1 went
    rw [ensure_ok] at few
    rw [← pure_ok.1 same]
    have at_address := sized_ok.1 sized_address
    have at_topics := mapM_sized.1 sized_topics
    refine ⟨?_, by rw [← at_topics, length_map]; exact few⟩
    simp only [ReceiptLog.ref, at_address, at_topics]
  · rintro ⟨rfl, few⟩
    have few' : log.topics.length ≤ 4 := by simpa [ReceiptLog.ref] using few
    refine bind_ok.2 ⟨log.address, sized_ok.2 rfl, bind_ok.2 ⟨log.topics, mapM_sized.2 rfl,
      bind_ok.2 ⟨(), ensure_ok.2 few', rfl⟩⟩⟩

theorem readLogs {logs : List LogRef} {out : List ReceiptLog} :
    (logs.mapM fun l => readLog (encodeLog l)) = .ok out ↔
      out.map ReceiptLog.ref = logs ∧ ∀ l ∈ logs, l.topics.length ≤ 4 := by
  rw [mapM_ok]
  simp only [readLog_encodeLog]
  induction logs generalizing out with
  | nil => simp
  | cons l logs ih =>
    cases out with
    | nil => simp
    | cons log out =>
      rw [forall₂_cons, ih, map_cons, List.cons.injEq, forall_mem_cons]
      tauto

theorem successfulReceiptLogs_bytes [KeccakHash] {f : Fields} (typed : f.txType < 0x7f)
    {out : List ReceiptLog} : successfulReceiptLogs f.bytes = .ok out ↔
      f.success = true ∧ out.map ReceiptLog.ref = f.logs ∧ ∀ l ∈ f.logs, l.topics.length ≤ 4 := by
  have logs_items : ∀ p ∈ f.logs.map encodeLog, Item p := by
    intro p mem
    obtain ⟨l, -, rfl⟩ := mem_map.1 mem
    exact .list (items_of_log l)
  set parts := [if f.success then uint 1 else string [], uint f.cumulativeGasUsed,
    string (f.logs.foldl accrueLog (replicate 256 0)), list (f.logs.map encodeLog)] with eq
  have each : ∀ p ∈ parts, Item p := by
    intro p mem
    simp only [eq, mem_cons, not_mem_nil, or_false] at mem
    rcases mem with rfl | rfl | rfl | rfl
    · split_ifs <;> exact .string _
    · exact .string _
    · exact .string _
    · exact .list logs_items
  have body : receiptBody f.bytes = .ok (list parts) := by
    have bytes : f.bytes = if f.txType = 0 then list parts else f.txType :: list parts := rfl
    rw [bytes]
    split_ifs with bare
    · obtain ⟨b, rest, first, high⟩ := Lawful.list_head each
      have above : ¬ b < 0x7f := fun low => by
        have low' := UInt8.lt_iff_toNat_lt.1 low
        have high' := UInt8.le_iff_toNat_le.1 high
        exact absurd (high'.trans_lt low') (by decide)
      rw [first, receiptBody, if_neg above]
    · rw [receiptBody, if_pos typed]
  have read : successfulReceiptLogs f.bytes = (do
      ensure (f.success = true) "receipt proof: the transaction did not succeed"
      f.logs.mapM fun l => readLog (encodeLog l)) := by
    have status : data (if f.success then uint 1 else string []) =
        .ok (if f.success then [1] else []) := by
      split_ifs
      · exact data_string _
      · exact data_string _
    have ranged : (range (f.logs.map encodeLog).length).mapM (fun i => do
        readLog (← item (list (f.logs.map encodeLog)) i)) =
        f.logs.mapM fun l => readLog (encodeLog l) := by
      rw [length_map]
      refine mapM_range fun i l at_i => ?_
      have at_log : (f.logs.map encodeLog)[i]? = some (encodeLog l) := by
        rw [getElem?_map, at_i]
        rfl
      rw [item_list logs_items at_log]
      rfl
    unfold successfulReceiptLogs
    rw [body]
    simp only [bind, Except.bind, whole_item (.list each), count_list each,
      item_list each (i := 0) rfl, item_list each (i := 3) rfl, status, count_list logs_items]
    simp only [bind, Except.bind] at ranged
    rw [ranged, ensure, if_pos (show parts.length = 4 from rfl)]
    cases f.success <;> rfl
  rw [read]
  constructor
  · intro went
    obtain ⟨_, succeeded, went⟩ := bind_ok.1 went
    exact ⟨ensure_ok.1 succeeded, readLogs.1 went⟩
  · rintro ⟨succeeded, given⟩
    exact bind_ok.2 ⟨(), ensure_ok.2 succeeded, readLogs.2 given⟩

omit [RlpCodec] [Lawful] in
theorem getElem?_read {out : List ReceiptLog} {logs : List LogRef} {j : ℕ} {log : ReceiptLog}
    (read : out.map ReceiptLog.ref = logs) : out[j]? = some log ↔ logs[j]? = some log.ref := by
  subst read
  rw [getElem?_map, Option.map_eq_some_iff]
  constructor
  · exact fun here => ⟨log, here, rfl⟩
  · rintro ⟨l, here, same⟩
    rwa [← ReceiptLog.ref_injective same]

omit [RlpCodec] [Lawful] in
theorem exists_read {logs : List LogRef} (shaped : ∀ l ∈ logs, l.Shaped) :
    ∃ out : List ReceiptLog, out.map ReceiptLog.ref = logs := by
  induction logs with
  | nil => exact ⟨[], rfl⟩
  | cons l logs ih =>
    obtain ⟨here, later⟩ := forall_mem_cons.1 shaped
    obtain ⟨out, read⟩ := ih later
    obtain ⟨address, -, topics⟩ := here
    refine ⟨⟨⟨l.address, address⟩, l.topics.attach.map fun t => ⟨t.1, topics t.1 t.2⟩, l.data⟩ ::
      out, ?_⟩
    rw [map_cons, read]
    simp [ReceiptLog.ref]

variable [KeccakHash] {receipts : List (ℕ × Bytes)} {proof : List Bytes} {i j : ℕ} {f : Fields}
  {log : ReceiptLog}

omit [Lawful] in
theorem verifyLog_ok {root : Bytes} : verifyLog root i j proof = .ok log ↔
    ∃ receipt out, verifyTrieValue root (receiptKey i) proof = .ok receipt ∧
      successfulReceiptLogs receipt = .ok out ∧ out[j]? = some log := by
  unfold verifyLog
  constructor
  · intro went
    obtain ⟨receipt, shown, went⟩ := bind_ok.1 went
    obtain ⟨out, read, went⟩ := bind_ok.1 went
    refine ⟨receipt, out, shown, read, ?_⟩
    cases here : out[j]? with
    | none => simp [here, bad] at went
    | some l =>
      simp only [here] at went
      rw [pure_ok.1 went]
  · rintro ⟨receipt, out, shown, read, here⟩
    refine bind_ok.2 ⟨receipt, shown, bind_ok.2 ⟨out, read, ?_⟩⟩
    rw [here]
    rfl

/-- Under distinct indices the builder's proof of each receipt is accepted with it; a proof whose
strings collide with no node shows nothing else; every order gives one root; and a log shown is the
one encoded. -/
theorem receipts_agree (distinct : (receipts.map Prod.fst).Nodup)
    (bounded : ∀ r ∈ receipts, r.1 < 2 ^ 64)
    (empty : KeccakHash.emptyTrieRoot = KeccakHash.keccak (string [])) :
    (∀ i v, (i, v) ∈ receipts →
      (build (entriesOf receipts) (receiptKey i)).1 = root (entriesOf receipts) ∧
      verifyTrieValue (root (entriesOf receipts)) (receiptKey i)
        (build (entriesOf receipts) (receiptKey i)).2 = .ok v) ∧
    (∀ i v proof, NoCollision proof (allNodes (entriesOf receipts)) →
      verifyTrieValue (root (entriesOf receipts)) (receiptKey i) proof = .ok v →
        (i, v) ∈ receipts) ∧
    (∀ other : List (ℕ × Bytes), other.Perm receipts →
      root (entriesOf other) = root (entriesOf receipts) ∧
        receiptsRoot other = root (entriesOf receipts)) ∧
    (∀ (i j : ℕ) (f : Fields) (log : ReceiptLog), (i, f.bytes) ∈ receipts → f.txType < 0x7f →
      (verifyLog (root (entriesOf receipts)) i j
          (build (entriesOf receipts) (receiptKey i)).2 = .ok log ↔
        f.success = true ∧ f.logs[j]? = some log.ref ∧ ∀ l ∈ f.logs, l.Shaped) ∧
      ∀ proof, NoCollision proof (allNodes (entriesOf receipts)) →
        verifyLog (root (entriesOf receipts)) i j proof = .ok log →
          f.success = true ∧ f.logs[j]? = some log.ref) := by
  refine ⟨fun i v mem => ⟨build_root, verify_build distinct bounded mem⟩,
    fun i v proof free accepted => verify_sound distinct empty free accepted, fun other same => ?_,
    fun i j f log mem typed => ⟨?_, fun proof free shown => ?_⟩⟩
  · have entries : (entriesOf other).Perm (entriesOf receipts) := same.map _
    have distinct' : (other.map Prod.fst).Nodup := (same.map _).nodup_iff.2 distinct
    exact ⟨root_perm entries, (receiptsRoot_eq distinct').trans (root_perm entries)⟩
  · rw [verifyLog_ok, verify_build distinct bounded mem]
    constructor
    · rintro ⟨receipt, out, shown, read, here⟩
      rw [← Except.ok.inj shown] at read
      obtain ⟨success, given, few⟩ := (successfulReceiptLogs_bytes typed).1 read
      refine ⟨success, (getElem?_read given).1 here, fun l in_logs => ?_⟩
      obtain ⟨shown_log, -, rfl⟩ := mem_map.1 (given ▸ in_logs)
      refine ⟨shown_log.address.2, few _ in_logs, fun t in_topics => ?_⟩
      obtain ⟨topic, -, rfl⟩ := mem_map.1 in_topics
      exact topic.2
    · rintro ⟨success, here, shaped⟩
      obtain ⟨out, given⟩ := exists_read shaped
      exact ⟨f.bytes, out, rfl, (successfulReceiptLogs_bytes typed).2
        ⟨success, given, fun l in_logs => (shaped l in_logs).2.1⟩, (getElem?_read given).2 here⟩
  · obtain ⟨receipt, out, accepted, read, here⟩ := verifyLog_ok.1 shown
    have found := verify_sound distinct empty free accepted
    have same : receipt = f.bytes :=
      (entriesOf_prefixFree distinct).value_unique (mem_entriesOf.2 found) (mem_entriesOf.2 mem)
    rw [same] at read
    obtain ⟨success, given, -⟩ := (successfulReceiptLogs_bytes typed).1 read
    exact ⟨success, (getElem?_read given).1 here⟩

end

/-! A block of three receipts, one of a failed transaction, and one with a native log. -/

namespace Block

@[reducible] def hash : KeccakHash where
  keccak b := ByteCodec.beBytes 32 (ByteCodec.ofBeBytes (1 :: b) % (2 ^ 256 - 189))
  length_keccak _ := ByteCodec.length_beBytes _ _
  emptyTrieRoot := ByteCodec.beBytes 32 384

attribute [local instance] hash RlpSpec.codec

def transferLog : ReceiptLog :=
  ⟨⟨replicate 20 7, rfl⟩, [⟨replicate 32 9, rfl⟩], [1, 2, 3]⟩

def transfer : Fields := ⟨2, true, 21000, [transferLog.ref]⟩

def failed : Fields := ⟨0, false, 42000, [transferLog.ref]⟩

def native : Fields := ⟨0, true, 63000, [⟨replicate 32 5, [], []⟩]⟩

def receipts : List (ℕ × Bytes) := [(0, transfer.bytes), (1, failed.bytes), (128, native.bytes)]

theorem receipts_agree_block :
    verifyLog (root (entriesOf receipts)) 0 0 (build (entriesOf receipts) (receiptKey 0)).2 =
        .ok transferLog ∧
      (∀ log, verifyLog (root (entriesOf receipts)) 1 0
        (build (entriesOf receipts) (receiptKey 1)).2 ≠ .ok log) ∧
      (0, transfer.bytes) ∈ receipts := by
  have := RlpSpec.lawful
  obtain ⟨present, shown, -, logs⟩ := receipts_agree
    (show (receipts.map Prod.fst).Nodup by decide) (by decide) (by decide)
  have first := logs 0 0 transfer transferLog (by simp [receipts]) (by decide)
  have second (log : ReceiptLog) := logs 1 0 failed log (by simp [receipts]) (by decide)
  refine ⟨first.1.2 ⟨rfl, rfl, ?_⟩, fun log read => ?_, ?_⟩
  · intro l mem
    rw [mem_singleton.1 mem]
    exact ⟨rfl, by decide, by decide⟩
  · exact Bool.false_ne_true ((second log).1.1 read).1
  · exact shown 0 transfer.bytes (build (entriesOf receipts) (receiptKey 0)).2
      (by unfold NoCollision; decide +kernel) (present 0 _ (by simp [receipts])).2

/-- The transaction succeeded and its receipt has a first log, which is not shown. -/
theorem native_log_refused :
    (native.success = true ∧ native.logs[0]? = some ⟨replicate 32 5, [], []⟩) ∧
      (128, native.bytes) ∈ receipts ∧
      verifyTrieValue (root (entriesOf receipts)) (receiptKey 128)
        (build (entriesOf receipts) (receiptKey 128)).2 = .ok native.bytes ∧
      verifyLog (root (entriesOf receipts)) 128 0
        (build (entriesOf receipts) (receiptKey 128)).2 =
        .error "receipt proof: a log address is 20 bytes" := by
  decide +kernel

end Block

end Tenzro.Receipt
