import Tenzro.CoinsKept
import Tenzro.DepositOnce
import Tenzro.HashTree
import Tenzro.LevelTree

set_option autoImplicit false
set_option linter.dupNamespace false

/-!
# What a proof of inclusion shows

A block commits to its transactions by a tree that pairs the last node of an odd level with itself.
A proof is accepted for a transaction at its own position only, with its own branch.
-/
namespace Tenzro.Bridge
open ByteCodec FixedWidth Outcome BitcoinLightClient List
open HashTree (Apart)
open LevelTree (Undoubled)

section
variable [RouteCrypto]

def merkleNode (a b : Bytes) : Bytes := sha256d (a ++ b)

def txids (txs : List Bytes) : List Bytes := txs.map sha256d

def blockRoot (txs : List Bytes) : Bytes := LevelTree.root merkleNode (txids txs)

def merkleBranch (txs : List Bytes) (index : ℕ) : List Bytes :=
  LevelTree.path merkleNode (txids txs) index

def OnBestChain (s : RouteState) (route : BridgeRoute) (anchor : LightClientAnchor)
    (header : BlockHeader) (height : ℕ) : Prop :=
  ∃ (a : Anchor) (tipHeight : ℕ) (best r : BitcoinLightClient.Record), anchorParts anchor = .ok a ∧
    tip s route anchor = .ok (some (tipHeight, best)) ∧
    record s route anchor height = .ok (some r) ∧ r.hash = header.hash ∧ height ≤ tipHeight ∧
    a.confirmations ≤ tipHeight - height + 1

def joined (p : Bytes × Bytes) : Bytes := p.1 ++ p.2

def hashedBlock (txs : List Bytes) : List Bytes :=
  txs ++ (LevelTree.pairs merkleNode (txids txs)).map joined

def hashedBranch (tx : Bytes) (index : ℕ) (branch : List Bytes) : List Bytes :=
  tx :: (LevelTree.climbPairs merkleNode (sha256d tx) index branch).map joined

/-! ### The check -/

theorem length_sha256d (b : Bytes) : (sha256d b).length = 32 := RouteCrypto.length_sha256 _

theorem climb_ok {index : ℕ} {branch : List Bytes} {node root : Bytes} :
    BitcoinLightClient.climb index branch node = .ok root ↔
      LevelTree.climb merkleNode node index branch = root ∧
        Undoubled merkleNode node index branch := by
  induction branch generalizing index node with
  | nil =>
    rw [BitcoinLightClient.climb, LevelTree.climb, Except.ok.injEq]
    exact (and_iff_left trivial).symm
  | cons s branch ih =>
    rw [BitcoinLightClient.climb, LevelTree.climb, Undoubled, LevelTree.join, LevelTree.inOrder]
    by_cases odd : index % 2 = 1
    · rw [if_pos odd, if_neg (show ¬ index % 2 = 0 by omega)]
      split_ifs with same
      · refine ⟨fun h => ?_, fun h => absurd same (h.2.1 odd)⟩
        cases h
      · refine ih.trans ?_
        exact and_congr_right fun _ => ⟨fun h => ⟨fun _ => same, h⟩, fun h => h.2⟩
    · rw [if_neg odd, if_pos (show index % 2 = 0 by omega)]
      refine ih.trans ?_
      exact and_congr_right fun _ => ⟨fun h => ⟨fun h => absurd h odd, h⟩, fun h => h.2⟩

section
variable {s : RouteState} {route : BridgeRoute} {anchor : LightClientAnchor} {header : BlockHeader}
  {height : ℕ} {proof depositBytes : Bytes} {branch : List Bytes} {deposit : Deposit}

omit [RouteCrypto] in
theorem readProof_branch {r r' : Reader}
    (h : readProof r = .ok ((depositBytes, header, branch), r')) :
    ∀ x ∈ branch, x.length = 32 := by
  obtain ⟨_, r₁, -, h⟩ := read_bind_ok.1 h
  obtain ⟨_, r₂, -, h⟩ := read_bind_ok.1 h
  obtain ⟨n, r₃, -, h⟩ := read_bind_ok.1 h
  obtain ⟨⟨⟩, r₄, -, h⟩ := read_bind_ok.1 h
  obtain ⟨_, r₅, siblings, h⟩ := read_bind_ok.1 h
  obtain ⟨same, -⟩ := read_pure_ok.1 h
  cases same
  intro x mem
  obtain ⟨r₆, r₇, taken⟩ := (repeated_ok siblings).2 x mem
  exact take_ok taken

omit [RouteCrypto] in
theorem depositRead_ok {r r' : Reader} (h : Deposit.read r = .ok (deposit, r')) :
    deposit.tx.length ≤ maxTxLen ∧ deposit.tx.length ≠ 64 := by
  obtain ⟨height, r₁, -, h⟩ := read_bind_ok.1 h
  obtain ⟨index, r₂, -, h⟩ := read_bind_ok.1 h
  obtain ⟨tx, r₃, short, h⟩ := read_bind_ok.1 h
  obtain ⟨⟨⟩, r₄, -, h⟩ := read_bind_ok.1 h
  obtain ⟨⟨⟩, r₅, other, h⟩ := read_bind_ok.1 h
  obtain ⟨rfl, -⟩ := read_pure_ok.1 h
  exact ⟨readBeBytes_ok short, (require_ok.1 other).1⟩

theorem proveInclusion_iff (chain : OnBestChain s route anchor header height)
    (parts : decodeWith readProof proof = .ok (depositBytes, header, branch))
    (read : decodeWith Deposit.read depositBytes = .ok deposit) (own : deposit.height = height) :
    (∃ payment, proveInclusion s route anchor proof = .ok (depositBytes, payment)) ↔
      (∃ tx, BitcoinTx.decode deposit.tx = .ok tx) ∧ deposit.index / 2 ^ branch.length = 0 ∧
        BitcoinLightClient.climb deposit.index branch deposit.txid = .ok header.merkleRoot := by
  subst own
  obtain ⟨a, tipHeight, best, r, anchored, tipped, stored, hash, low, deep⟩ := chain
  constructor
  · rintro ⟨payment, h⟩
    simp only [proveInclusion, bind_ok] at h
    obtain ⟨a, -, held, tipped, h⟩ := h
    cases held with
    | none => cases h
    | some best =>
      simp only [bind_ok, ensure_ok, exists_const, pure_ok] at h
      obtain ⟨⟨bytes, header', branch'⟩, parts', deposit', read', tx, decoded, fitted, node,
        climbed, rfl, _⟩ := h
      obtain ⟨rfl, rfl, rfl⟩ : (depositBytes, header, branch) = (bytes, header', branch') :=
        Except.ok.inj (parts.symm.trans parts')
      obtain rfl : deposit = deposit' := Except.ok.inj (read.symm.trans read')
      exact ⟨⟨tx, decoded⟩, fitted, climbed⟩
  · rintro ⟨⟨tx, decoded⟩, fitted, climbed⟩
    refine ⟨⟨tx, deposit.txid, deposit.height, header.time⟩, ?_⟩
    simp only [proveInclusion, bind_ok]
    refine ⟨a, anchored, _, tipped, ?_⟩
    simp only [bind_ok, ensure_ok, exists_const, pure_ok]
    refine ⟨_, parts, deposit, read, tx, decoded, fitted, _, climbed, rfl, low, _, stored, ?_, deep,
      rfl⟩
    simp [hash]

end

/-! ### Collisions -/

section
variable {level branch : List Bytes} {a : Bytes} {index : ℕ}

theorem mem_climbPairs (leaf : a.length = 32) (siblings : ∀ x ∈ branch, x.length = 32)
    {p : Bytes × Bytes} (mem : p ∈ LevelTree.climbPairs merkleNode a index branch) :
    p.1.length = 32 ∧ p.2.length = 32 := by
  induction branch generalizing a index with
  | nil => cases mem
  | cons s branch ih =>
    obtain ⟨first, siblings⟩ := forall_mem_cons.1 siblings
    rcases mem_cons.1 mem with rfl | mem
    · unfold LevelTree.inOrder
      split_ifs
      · exact ⟨leaf, first⟩
      · exact ⟨first, leaf⟩
    · exact ih (length_sha256d _) siblings mem

theorem mem_next : ∀ x ∈ LevelTree.next merkleNode level, x.length = 32 := by
  intro x mem
  obtain ⟨q, -, rfl⟩ := mem_map.1 mem
  exact length_sha256d _

theorem length_root (leaves : ∀ x ∈ level, x.length = 32) (some_leaf : level ≠ []) :
    (LevelTree.root merkleNode level).length = 32 := by
  induction level using LevelTree.root.induct merkleNode with
  | case1 level many ih =>
    rw [LevelTree.root, if_pos many]
    refine ih mem_next fun nothing => ?_
    have size := LevelTree.length_next merkleNode level
    rw [nothing, length_nil] at size
    omega
  | case2 level few =>
    have some_of_it := length_pos_of_ne_nil some_leaf
    rw [LevelTree.root, if_neg few, getD_eq_getElem _ _ some_of_it]
    exact leaves _ (getElem_mem _)

theorem mem_pairs (leaves : ∀ x ∈ level, x.length = 32) {p : Bytes × Bytes}
    (mem : p ∈ LevelTree.pairs merkleNode level) : p.1.length = 32 ∧ p.2.length = 32 := by
  induction level using LevelTree.root.induct merkleNode with
  | case1 level many ih =>
    rw [LevelTree.pairs, if_pos many] at mem
    rcases mem_append.1 mem with mem | mem
    · obtain ⟨left, right⟩ := LevelTree.mem_pairsOf mem
      exact ⟨leaves _ left, leaves _ right⟩
    · exact ih mem_next mem
  | case2 level few =>
    rw [LevelTree.pairs, if_neg few] at mem
    cases mem

theorem mem_path (leaves : ∀ x ∈ level, x.length = 32) (inside : index < level.length) {x : Bytes}
    (mem : x ∈ LevelTree.path merkleNode level index) : x.length = 32 := by
  induction level using LevelTree.root.induct merkleNode generalizing index with
  | case1 level many ih =>
    rw [LevelTree.path, if_pos many] at mem
    rcases mem_cons.1 mem with rfl | mem
    · unfold LevelTree.sibling
      split_ifs <;> rw [getD_eq_getElem _ _ (by omega)] <;>
        exact leaves _ (getElem_mem _)
    · exact ih mem_next (LevelTree.div_two_lt inside) mem
  | case2 level few =>
    rw [LevelTree.path, if_neg few] at mem
    cases mem

omit [RouteCrypto] in
theorem joined_inj {p q : Bytes × Bytes} (left : p.1.length = 32) (left' : q.1.length = 32)
    (same : joined p = joined q) : p = q := by
  obtain ⟨first, second⟩ := append_inj same (left.trans left'.symm)
  exact Prod.ext first second

omit [RouteCrypto] in
theorem length_joined {p : Bytes × Bytes} (sizes : p.1.length = 32 ∧ p.2.length = 32) :
    (joined p).length = 64 := by
  rw [joined, length_append, sizes.1, sizes.2]

theorem mem_txids {txs : List Bytes} : ∀ x ∈ txids txs, x.length = 32 := by
  intro x mem
  obtain ⟨tx, -, rfl⟩ := mem_map.1 mem
  exact length_sha256d tx

theorem levels_apart {txs : List Bytes} {tx : Bytes} (sizes : ∀ tx ∈ txs, tx.length ≠ 64)
    (size : tx.length ≠ 64) (siblings : ∀ x ∈ branch, x.length = 32)
    (apart : Apart sha256d (hashedBranch tx index branch) (hashedBlock txs)) :
    LevelTree.Apart merkleNode (txids txs) (sha256d tx) index branch where
  joined p hp q hq same := by
    have left := mem_climbPairs (length_sha256d tx) siblings hp
    have right := mem_pairs mem_txids hq
    exact joined_inj left.1 right.1 (apart _ (mem_cons_of_mem _ (mem_map_of_mem hp)) _
      (mem_append_right _ (mem_map_of_mem hq)) same)
  bottom q hq same := by
    refine size ?_
    rw [apart tx mem_cons_self (joined q) (mem_append_right _ (mem_map_of_mem hq))
      same.symm]
    exact length_joined (mem_pairs mem_txids hq)
  leaves p hp inside := by
    obtain ⟨other, mem, same⟩ := mem_map.1 inside
    refine sizes other mem ?_
    rw [← apart (joined p) (mem_cons_of_mem _ (mem_map_of_mem hp)) other
      (mem_append_left _ mem) same.symm]
    exact length_joined (mem_climbPairs (length_sha256d tx) siblings hp)

theorem pairs_apart {txs : List Bytes} (apart : Apart sha256d (hashedBlock txs) (hashedBlock txs)) :
    ∀ p ∈ LevelTree.pairs merkleNode (txids txs), ∀ q ∈ LevelTree.pairs merkleNode (txids txs),
      merkleNode p.1 p.2 = merkleNode q.1 q.2 → p = q := by
  intro p hp q hq same
  exact joined_inj (mem_pairs mem_txids hp).1 (mem_pairs mem_txids hq).1
    (apart _ (mem_append_right _ (mem_map_of_mem hp)) _
      (mem_append_right _ (mem_map_of_mem hq)) same)

end

/-! ### What is accepted -/

def sent (deposit : Deposit) (header : BlockHeader) (branch : List Bytes) : Bytes :=
  writeBeBytes deposit.encode ++ (header.encode ++ (beBytes 1 branch.length ++ branch.flatMap id))

omit [RouteCrypto] in
theorem BlockHeader.Fits.reads {header : BlockHeader} (h : header.Fits) :
    Reads BlockHeader.read header.encode header := by
  refine Reads.seq (Reads.readLe h.version) rfl ?_
  refine Reads.seq (Reads.take h.prev) rfl ?_
  refine Reads.seq (Reads.take h.merkleRoot) rfl ?_
  refine Reads.seq (Reads.readLe h.time) rfl ?_
  refine Reads.seq (Reads.readLe h.bits) rfl ?_
  refine Reads.seq (Reads.readLe h.nonce) (append_nil _).symm ?_
  exact Reads.pure header

omit [RouteCrypto] in
theorem decode_sent {deposit : Deposit} {header : BlockHeader} {branch : List Bytes}
    (fits : deposit.Fits) (whole : header.Fits) (siblings : ∀ x ∈ branch, x.length = 32)
    (low : branch.length ≤ maxBranch) :
    decodeWith readProof (sent deposit header branch) = .ok (deposit.encode, header, branch) := by
  have short := fits.short
  have size : deposit.encode.length = deposit.tx.length + 16 := by
    simp only [Deposit.encode, writeBeBytes, length_append, length_beBytes]
    omega
  unfold maxTxLen at short
  unfold maxBranch at low
  apply Reads.decodeWith
  refine Reads.seq (Reads.readBeBytes (by omega) (by unfold maxTxLen; omega)) rfl ?_
  refine Reads.seq whole.reads rfl ?_
  refine Reads.seq (Reads.readBe (by omega)) rfl ?_
  refine Reads.seq (Reads.require low _) rfl ?_
  refine Reads.seq (Reads.repeated fun x mem => Reads.take (siblings x mem))
    (append_nil _).symm ?_
  exact Reads.pure _

section
variable {s : RouteState} {route : BridgeRoute} {anchor : LightClientAnchor} {header : BlockHeader}
  {txs : List Bytes} {deposit : Deposit}

theorem own_branch (distinct : (txids txs).Nodup)
    (apart : Apart sha256d (hashedBlock txs) (hashedBlock txs))
    (here : txs[deposit.index]? = some deposit.tx) :
    deposit.index / 2 ^ (merkleBranch txs deposit.index).length = 0 ∧
      BitcoinLightClient.climb deposit.index (merkleBranch txs deposit.index) deposit.txid =
        .ok (blockRoot txs) := by
  have inside : deposit.index < (txids txs).length := by
    simpa [txids] using (List.getElem?_eq_some_iff.1 here).1
  have leaf : (txids txs).getD deposit.index default = deposit.txid := by
    rw [getD_eq_getElem?_getD, txids, getElem?_map, here]
    rfl
  constructor
  · rw [merkleBranch, LevelTree.length_path]
    exact Nat.div_eq_of_lt (inside.trans_le (LevelTree.length_le_depth _))
  · rw [climb_ok, ← leaf]
    exact ⟨LevelTree.climb_path inside,
      LevelTree.undoubled_path distinct (pairs_apart apart) inside⟩

/-- In a block of transactions with different ids, a proof is accepted exactly for a transaction
that decodes, at its index and with its branch. -/
theorem inclusion_exact (chain : OnBestChain s route anchor header deposit.height)
    (whole : header.Fits) (some_tx : txs ≠ []) (distinct : (txids txs).Nodup)
    (sizes : ∀ tx ∈ txs, tx.length ≠ 64) (root : header.merkleRoot = blockRoot txs)
    (apart : Apart sha256d (hashedBlock txs) (hashedBlock txs)) :
    (∀ (branch : List Bytes) (proof depositBytes : Bytes),
      decodeWith readProof proof = .ok (depositBytes, header, branch) →
      decodeWith Deposit.read depositBytes = .ok deposit →
      Apart sha256d (hashedBranch deposit.tx deposit.index branch) (hashedBlock txs) →
      ((∃ payment, proveInclusion s route anchor proof = .ok (depositBytes, payment)) ↔
        (∃ tx, BitcoinTx.decode deposit.tx = .ok tx) ∧ txs[deposit.index]? = some deposit.tx ∧
          branch = merkleBranch txs deposit.index)) ∧
    (deposit.Fits → txs[deposit.index]? = some deposit.tx →
      (∃ tx, BitcoinTx.decode deposit.tx = .ok tx) →
      (merkleBranch txs deposit.index).length ≤ maxBranch →
      ∃ payment, proveInclusion s route anchor
        (sent deposit header (merkleBranch txs deposit.index)) = .ok (deposit.encode, payment)) ∧
    ∀ (i j : ℕ) (tx : Bytes), txs[i]? = some tx → txs[j]? = some tx → i = j := by
  have some_id : txids txs ≠ [] := by simpa [txids] using some_tx
  refine ⟨?exact, ?honest, ?once⟩
  case exact =>
    intro branch proof depositBytes parts read crossing
    obtain ⟨r, parsed, -⟩ := decodeWith_ok.1 parts
    obtain ⟨r', deposited, -⟩ := decodeWith_ok.1 read
    have siblings := readProof_branch parsed
    have size := (depositRead_ok deposited).2
    rw [proveInclusion_iff chain parts read rfl, root]
    refine and_congr_right fun _ => ⟨?_, ?_⟩
    · rintro ⟨low, climbed⟩
      obtain ⟨reaches, undoubled⟩ := climb_ok.1 climbed
      obtain ⟨inside, leaf, own⟩ := LevelTree.climb_binds_undoubled some_id
        (levels_apart sizes size siblings crossing) low undoubled reaches
      have place : deposit.index < txs.length := by simpa [txids] using inside
      refine ⟨?_, own⟩
      rw [getElem?_eq_getElem place, Option.some.injEq]
      rw [getD_eq_getElem _ _ inside] at leaf
      simp only [txids, getElem_map] at leaf
      exact (crossing deposit.tx mem_cons_self _
        (mem_append_left _ (getElem_mem place)) leaf.symm).symm
    · rintro ⟨here, rfl⟩
      exact own_branch distinct apart here
  case honest =>
    intro fits here decodes low
    have inside : deposit.index < (txids txs).length := by
      simpa [txids] using (List.getElem?_eq_some_iff.1 here).1
    have siblings : ∀ x ∈ merkleBranch txs deposit.index, x.length = 32 :=
      fun x => mem_path mem_txids inside
    rw [proveInclusion_iff chain (decode_sent fits whole siblings low) fits.reads.decodeWith rfl,
      root]
    exact ⟨decodes, own_branch distinct apart here⟩
  case once =>
    intro i j tx here there
    have same : (txids txs)[i]? = (txids txs)[j]? := by
      rw [txids, getElem?_map, getElem?_map, here, there]
    have inside : i < (txids txs).length := by
      simpa [txids] using (List.getElem?_eq_some_iff.1 here).1
    exact (getElem?_inj inside distinct).1 same

end

end

/-! ### Blocks a client starts from -/

namespace TrustedBlock

open AssetMint (id32)
open RaisedConfirmations (crypto)

attribute [local instance] crypto

def paid : List Bytes := [(ManyDeposits.tx 0).encode, (ManyDeposits.tx 1).encode]

def second : Deposit := ⟨0, 1, (ManyDeposits.tx 1).encode⟩

theorem pairs_paid : LevelTree.pairs merkleNode (txids paid) =
    [(sha256d (ManyDeposits.tx 0).encode, sha256d (ManyDeposits.tx 1).encode)] := by
  rw [LevelTree.pairs, if_pos (by decide), LevelTree.pairs, if_neg (by decide)]
  rfl

structure Evaluated : Prop where
  work : workOf powLimitBits < 256 ^ 16
  apart : Apart sha256d
    (paid ++ [(sha256d (ManyDeposits.tx 0).encode, sha256d (ManyDeposits.tx 1).encode)].map joined)
    (paid ++ [(sha256d (ManyDeposits.tx 0).encode, sha256d (ManyDeposits.tx 1).encode)].map joined)

theorem evaluated : Evaluated := ⟨by decide +kernel, by decide +kernel⟩

variable (txs : List Bytes)

def header : BlockHeader := ⟨1, id32 0, blockRoot txs, 0, powLimitBits, 0⟩

def anchor : LightClientAnchor := .bitcoinHeaders 0 (header txs).hash 1 [id32 1] 1 1

def route : BridgeRoute := { ManyDeposits.route with lightClient := some (anchor txs) }

def s : RouteState :=
  (⟨ManyDeposits.g, fun _ => none⟩ : RouteState).put
    (updateWrites (route txs) (anchor txs) [(0, recordOf [header txs])] 0)

variable {txs}

theorem header_fits (some_tx : txs ≠ []) : (header txs).Fits where
  version := show 1 < 256 ^ 4 by norm_num
  prev := length_beBytes ..
  merkleRoot := length_root mem_txids (by simpa [txids] using some_tx)
  time := show 0 < 256 ^ 4 by norm_num
  bits := show powLimitBits < 256 ^ 4 by decide
  nonce := show 0 < 256 ^ 4 by norm_num

theorem onBestChain (some_tx : txs ≠ []) :
    OnBestChain (s txs) (route txs) (anchor txs) (header txs) 0 := by
  have clean : ColonFree (route txs).routeName.chain := show ':' ∉ "bitcoin".toList by decide
  have fits : (recordOf [header txs]).Fits :=
    ⟨length_sha256d _, show workOf powLimitBits < 256 ^ 16 from evaluated.work,
      show powLimitBits < 256 ^ 4 by decide, show 0 < 256 ^ 4 by norm_num⟩
  have best : BestChain (s txs) (route txs) (anchor txs) 0 (header txs).hash [header txs] :=
    bestChain_bootstrap clean ⟨header_fits some_tx, rfl⟩ fits (by norm_num)
  exact ⟨_, _, _, _, rfl, best.tip, best.stored.newest best.grown.ne_nil, rfl, le_rfl, le_rfl⟩

theorem branch_paid : merkleBranch paid 1 = [sha256d (ManyDeposits.tx 0).encode] := by
  rw [merkleBranch, LevelTree.path, if_pos (by decide), LevelTree.path, if_neg (by decide)]
  rfl

theorem paid_apart : Apart sha256d (hashedBlock paid) (hashedBlock paid) := by
  rw [hashedBlock, pairs_paid]
  exact evaluated.apart

/-- The second of two transactions is accepted at its index. -/
theorem inclusion_exact_second :
    (∃ payment, proveInclusion (s paid) (route paid) (anchor paid)
      (sent second (header paid) [sha256d (ManyDeposits.tx 0).encode]) =
        .ok (second.encode, payment)) ∧
    ∀ (i j : ℕ) (tx : Bytes), paid[i]? = some tx → paid[j]? = some tx → i = j := by
  have some_tx : paid ≠ [] := cons_ne_nil _ _
  have chain : OnBestChain (s paid) (route paid) (anchor paid) (header paid) second.height :=
    onBestChain some_tx
  obtain ⟨-, honest, once⟩ := inclusion_exact chain (header_fits some_tx) some_tx
    (by decide +kernel) (by decide +kernel) rfl paid_apart
  refine ⟨?_, once⟩
  rw [← branch_paid]
  refine honest ⟨by decide, by decide, by decide +kernel, by decide +kernel⟩ rfl
    ⟨ManyDeposits.tx 1, by decide +kernel⟩ ?_
  change (merkleBranch paid 1).length ≤ maxBranch
  rw [branch_paid]
  decide

def long : BitcoinTx where
  version := 2
  inputs := [⟨beBytes 36 0, [], 0xffffffff⟩]
  outputs := replicate 2 ⟨1, replicate 31000 0⟩
  lockTime := 0

theorem long_length : maxTxLen < long.encode.length := by
  -- The script's length stays a variable, or the kernel counts it out.
  have encoded (n : ℕ) : 2 * n ≤
      (BitcoinTx.encode { long with outputs := replicate 2 ⟨1, replicate n 0⟩ }).length := by
    have script : (TxOut.encode ⟨1, replicate n 0⟩).length ≥ n := by
      simp only [TxOut.encode, length_append, length_replicate]
      omega
    simp only [BitcoinTx.encode, length_append, length_flatMap, map_replicate, sum_replicate,
      smul_eq_mul]
    omega
  have long_enough : 2 * 31000 ≤ long.encode.length := encoded 31000
  exact lt_of_lt_of_le (by decide) long_enough

theorem long_decodes : BitcoinTx.decode long.encode = .ok long := by
  apply BitcoinTx.decode_encode
  constructor
  case version => exact show 2 < 2 ^ 32 by norm_num
  case inputs =>
    intro i mem
    obtain rfl := mem_singleton.1 mem
    exact ⟨length_beBytes .., by decide, by decide⟩
  case some_input => exact cons_ne_nil _ _
  case few_inputs => decide
  case outputs =>
    intro o mem
    obtain ⟨-, rfl⟩ := mem_replicate.1 mem
    exact ⟨by norm_num, length_replicate.trans_le (by decide)⟩
  case few_outputs => decide
  case lockTime => exact show 0 < 2 ^ 32 by norm_num

/-- A transaction over the length a proof can carry is accepted at no index. -/
theorem long_refused : OnBestChain (s [long.encode]) (route [long.encode]) (anchor [long.encode])
      (header [long.encode]) 0 ∧
    (txids [long.encode]).Nodup ∧ (∀ tx ∈ [long.encode], tx.length ≠ 64) ∧
    (header [long.encode]).merkleRoot = blockRoot [long.encode] ∧
    Apart sha256d (hashedBlock [long.encode]) (hashedBlock [long.encode]) ∧
    BitcoinTx.decode long.encode = .ok long ∧
    ∀ (proof depositBytes : Bytes) (payment : ProvenPayment) (deposit : Deposit),
      proveInclusion (s [long.encode]) (route [long.encode]) (anchor [long.encode]) proof =
        .ok (depositBytes, payment) →
      decodeWith Deposit.read depositBytes = .ok deposit → deposit.tx ≠ long.encode := by
  refine ⟨onBestChain (by simp), by simp [txids], ?_, rfl, ?_, long_decodes, ?_⟩
  · have long_length := long_length
    unfold maxTxLen at long_length
    simp only [mem_singleton, forall_eq]
    omega
  · rw [hashedBlock, LevelTree.pairs, if_neg (by simp [txids])]
    simp [Apart]
  · intro proof depositBytes payment deposit _ read same
    obtain ⟨r, deposited, -⟩ := decodeWith_ok.1 read
    have short := (depositRead_ok deposited).1
    rw [same] at short
    exact absurd long_length short.not_gt

end TrustedBlock

end Tenzro.Bridge
