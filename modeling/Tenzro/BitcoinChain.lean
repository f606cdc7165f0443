import Tenzro.BitcoinHeaders
import Tenzro.HeightStore

set_option autoImplicit false

/-!
# The best chain the records hold

What the Bitcoin client stores from the trusted height to its tip is one chain of headers:
linked by hash, each with the work it claims and the target the retarget rule gives, each
record with the work of all headers so far.
-/
namespace Tenzro.Bridge
open ByteCodec FixedWidth Outcome HeightStore List Function

/-! ### Targets and work -/

/-- A floating-point number: a mantissa of 23 bits and an exponent in bytes. -/
def targetOf (bits : ℕ) : ℕ := bits % 2 ^ 23 * 256 ^ (bits / 2 ^ 24) / 256 ^ 3

def workOf (bits : ℕ) : ℕ := 2 ^ 256 / (targetOf bits + 1)

/-- The target of the next period: the last one's, scaled by the time it took, within a factor
of four and up to the limit. -/
def newBits (bits firstTime lastTime : ℕ) : ℕ :=
  compact (min (targetOf bits *
    min (max (lastTime - firstTime) (targetTimespan / 4)) (targetTimespan * 4) / targetTimespan)
    (targetOf powLimitBits))

theorem lt_bitLength (n : ℕ) : n < 2 ^ bitLength n := by
  unfold bitLength
  split_ifs with zero
  · simp [zero]
  · exact Nat.lt_log2_self

theorem two_pow_eight (k : ℕ) : 2 ^ (8 * k) = 256 ^ k := by
  rw [pow_mul]
  norm_num

theorem target_ok {bits t : ℕ} (h : target bits = .ok t) : t = targetOf bits ∧ t < 2 ^ 256 := by
  unfold target refuse at h
  have mantissa : bits % 2 ^ 23 < 2 ^ 23 := Nat.mod_lt _ (by norm_num)
  unfold targetOf
  generalize bits / 2 ^ 24 = size at h ⊢
  generalize bits % 2 ^ 23 = m at h mantissa ⊢
  simp only at h
  split_ifs at h with bad small wide
  · cases h
    have scale : 256 ^ 3 = 2 ^ (8 * (3 - size)) * 256 ^ size := by
      have exponents : 3 = 3 - size + size := by omega
      rw [two_pow_eight, ← pow_add, ← exponents]
    constructor
    · rw [scale, Nat.mul_div_mul_right _ _ (by positivity)]
    · have le := Nat.div_le_self m (2 ^ (8 * (3 - size)))
      omega
  · cases h
    have scale : 256 ^ size = 2 ^ (8 * (size - 3)) * 256 ^ 3 := by
      have exponents : size = size - 3 + 3 := by omega
      rw [two_pow_eight, ← pow_add, ← exponents]
    constructor
    · rw [scale, ← mul_assoc, Nat.mul_div_cancel _ (by norm_num)]
    · calc m * 2 ^ (8 * (size - 3))
          < 2 ^ bitLength m * 2 ^ (8 * (size - 3)) :=
            Nat.mul_lt_mul_of_pos_right (lt_bitLength m) (by positivity)
        _ = 2 ^ (bitLength m + 8 * (size - 3)) := (pow_add ..).symm
        _ ≤ 2 ^ 256 := Nat.pow_le_pow_right (by norm_num) (by omega)

theorem work_ok {bits w : ℕ} (h : work bits = .ok w) : w = workOf bits := by
  simp only [work, bind_ok, pure_ok, ensure_ok, exists_const] at h
  obtain ⟨t, targeted, -, rfl⟩ := h
  obtain ⟨rfl, small⟩ := target_ok targeted
  rw [workOf, ← Nat.add_div_right _ (Nat.succ_pos _)]
  congr 1
  omega

theorem retarget_ok {bits firstTime lastTime new : ℕ}
    (h : BitcoinLightClient.retarget bits firstTime lastTime = .ok new) :
    new = newBits bits firstTime lastTime := by
  simp only [BitcoinLightClient.retarget, bind_ok, pure_ok, ensure_ok, exists_const] at h
  obtain ⟨limit, limited, t, targeted, -, rfl⟩ := h
  obtain ⟨rfl, -⟩ := target_ok limited
  obtain ⟨rfl, -⟩ := target_ok targeted
  rfl

/-! ### Headers and records -/

structure BlockHeader.Fits (h : BlockHeader) : Prop where
  version : h.version < 256 ^ 4
  prev : h.prev.length = 32
  merkleRoot : h.merkleRoot.length = 32
  time : h.time < 256 ^ 4
  bits : h.bits < 256 ^ 4
  nonce : h.nonce < 256 ^ 4

theorem BlockHeader.read_ok {header : BlockHeader} {r r' : Reader}
    (h : BlockHeader.read r = .ok (header, r')) : header.Fits := by
  obtain ⟨version, r₁, version_read, h⟩ := read_bind_ok.1 h
  obtain ⟨prev, r₂, prev_read, h⟩ := read_bind_ok.1 h
  obtain ⟨root, r₃, root_read, h⟩ := read_bind_ok.1 h
  obtain ⟨time, r₄, time_read, h⟩ := read_bind_ok.1 h
  obtain ⟨bits, r₅, bits_read, h⟩ := read_bind_ok.1 h
  obtain ⟨nonce, r₆, nonce_read, h⟩ := read_bind_ok.1 h
  obtain ⟨rfl, -⟩ := read_pure_ok.1 h
  exact ⟨readLe_ok version_read, take_ok prev_read, take_ok root_read, readLe_ok time_read,
    readLe_ok bits_read, readLe_ok nonce_read⟩

namespace BitcoinLightClient

structure Record.Fits (r : Record) : Prop where
  hash : r.hash.length = 32
  chainwork : r.chainwork < 256 ^ 16
  bits : r.bits < 256 ^ 4
  time : r.time < 256 ^ 4

theorem Record.decode_encode {r : Record} (h : r.Fits) : Record.decode r.encode = .ok r := by
  apply Reads.decodeWith
  refine Reads.seq (Reads.take h.hash) rfl ?_
  refine Reads.seq (Reads.readBe h.chainwork) rfl ?_
  refine Reads.seq (Reads.readBe h.bits) rfl ?_
  refine Reads.seq (Reads.readBe h.time) (append_nil _).symm ?_
  exact Reads.pure r

section
variable [RouteCrypto] {s : RouteState} {route : BridgeRoute} {anchor : LightClientAnchor}

@[simp]
theorem recordKey_inj {m n : ℕ} :
    recordKey route anchor m = recordKey route anchor n ↔ m = n := by
  constructor
  · intro h
    simp only [recordKey, recordSuffix, RouteKey.lightClient.injEq, List.cons.injEq, true_and,
      and_true] at h
    exact padded_injective h
  · exact congrArg _

@[simp]
theorem recordKey_ne_tipKey {n : ℕ} : recordKey route anchor n ≠ tipKey route anchor := by
  simp [recordKey, recordSuffix, tipKey]

theorem recordKey_clean (clean : ColonFree route.routeName.chain) (n : ℕ) :
    (recordKey route anchor n).Clean :=
  ⟨clean, by simp [recordSuffix], recordSuffix_free n⟩

theorem tipKey_clean (clean : ColonFree route.routeName.chain) : (tipKey route anchor).Clean :=
  ⟨clean, by simp, by simp⟩

/-! ### Chains -/

/-- The anchor's own header. -/
structure Trusted (hash : Bytes) (header : BlockHeader) : Prop where
  fits : header.Fits
  hash : header.hash = hash

def ruleBits (base : ℕ) : List BlockHeader → Option ℕ
  | [] => none
  | parent :: earlier =>
    if (base + earlier.length + 1) % retargetInterval ≠ 0 then some parent.bits
    else ((parent :: earlier)[retargetInterval - 1]?).map fun first =>
      newBits parent.bits first.time parent.time

/-- The headers that may come next. -/
structure Accepts (base : ℕ) (chain : List BlockHeader) (header : BlockHeader) : Prop where
  fits : header.Fits
  linked : chain.head?.map BlockHeader.hash = some header.prev
  bits : ruleBits base chain = some header.bits
  work : ofLeBytes header.hash ≤ targetOf header.bits

def chainWork (chain : List BlockHeader) : ℕ := (chain.map fun h => workOf h.bits).sum

def recordOf : List BlockHeader → Record
  | [] => ⟨[], 0, 0, 0⟩
  | header :: earlier => ⟨header.hash, chainWork (header :: earlier), header.bits, header.time⟩

def kept (chain : List BlockHeader) : Except String (Option Record) := .ok (some (recordOf chain))

@[simp]
theorem recordOf_chainwork (chain : List BlockHeader) : (recordOf chain).chainwork = chainWork chain := by
  cases chain <;> rfl

/-- The records from the trusted height to the tip hold the chain. -/
structure BestChain (s : RouteState) (route : BridgeRoute) (anchor : LightClientAnchor)
    (base : ℕ) (hash : Bytes) (chain : List BlockHeader) : Prop where
  grown : Grown (Trusted hash) (Accepts base) chain
  stored : Placed (record s route anchor) kept base chain
  tip : tip s route anchor = .ok (some (height base chain, recordOf chain))

theorem known_append {pending : List (ℕ × Record)} {n : ℕ} {r : Record}
    (fresh : ∀ p ∈ pending, p.1 < n) :
    known s route anchor (pending ++ [(n, r)]) =
      Function.update (known s route anchor pending) n (.ok (some r)) := by
  funext m
  by_cases same : m = n
  · subst same
    have absent : pending.find? (fun p => p.1 = m) = none := by
      simpa using fun a b mem => (fresh (a, b) mem).ne
    simp [known, find?_append, absent]
  · have other : n ≠ m := fun h => same h.symm
    rw [update_of_ne same]
    simp [known, find?_append, other]

theorem expectedBits_ok {base n bits : ℕ} {pending : List (ℕ × Record)} {chain : List BlockHeader}
    (boundary : base % retargetInterval = 0) (nonempty : chain ≠ [])
    (stored : Placed (known s route anchor pending) kept base chain)
    (next : n = base + chain.length)
    (h : expectedBits s route anchor pending n (recordOf chain) = .ok bits) :
    ruleBits base chain = some bits := by
  subst next
  obtain ⟨parent, earlier, rfl⟩ := exists_cons_of_ne_nil nonempty
  unfold expectedBits at h
  simp only [ruleBits, length_cons, ← add_assoc] at h ⊢
  split_ifs at h ⊢ with within
  · cases h
    rfl
  · have long : retargetInterval - 1 < (parent :: earlier).length := by
      simp only [retargetInterval, length_cons] at boundary within ⊢
      omega
    obtain ⟨first, rest, period⟩ :=
      exists_cons_of_ne_nil (ne_nil_of_length_pos (by
        rw [length_drop]
        exact Nat.sub_pos_of_lt long) : (parent :: earlier).drop (retargetInterval - 1) ≠ [])
    have below := height_drop base long
    have start : base + earlier.length + 1 - retargetInterval =
        HeightStore.height base ((parent :: earlier).drop (retargetInterval - 1)) := by
      simp only [HeightStore.height, length_cons] at below ⊢
      simp only [retargetInterval] at below long ⊢
      omega
    have read := stored _ (drop_suffix (retargetInterval - 1) _) (by simp [period])
    have element : (parent :: earlier)[retargetInterval - 1]? = some first := by
      rw [← head?_drop, period]
      rfl
    rw [start, read, period] at h
    simp only [kept, Bind.bind, Except.bind] at h
    rw [element, Option.map_some, retarget_ok h]
    rfl

/-- A run of headers read on top of a chain. -/
structure Built (s : RouteState) (route : BridgeRoute) (anchor : LightClientAnchor) (base : ℕ)
    (hash : Bytes) (chain new : List BlockHeader) (pending pending' : List (ℕ × Record))
    (last : Record) : Prop where
  grown : Grown (Trusted hash) (Accepts base) (new ++ chain)
  stored : Placed (known s route anchor pending') kept base (new ++ chain)
  last : last = recordOf (new ++ chain)
  heights : pending'.map Prod.fst =
    pending.map Prod.fst ++ range' (base + chain.length) new.length
  fits : ∀ p ∈ pending', p ∈ pending ∨ p.2.Fits
  height : new ≠ [] → base + (new ++ chain).length ≤ 2 ^ 64

theorem readHeaders_ok {base n : ℕ} {hash : Bytes} {chain : List BlockHeader}
    {pending pending' : List (ℕ × Record)} {last : Record} {r r' : Reader}
    (boundary : base % retargetInterval = 0)
    (grown : Grown (Trusted hash) (Accepts base) chain)
    (stored : Placed (known s route anchor pending) kept base chain)
    (below : ∀ p ∈ pending, p.1 < base + chain.length)
    (h : readHeaders s route anchor n (base + chain.length) (recordOf chain) pending r =
      .ok ((pending', last), r')) :
    ∃ new, new.length = n ∧ Built s route anchor base hash chain new pending pending' last := by
  induction n generalizing chain pending r with
  | zero =>
    obtain ⟨same, -⟩ := read_pure_ok.1 h
    cases same
    exact ⟨[], rfl, ⟨grown, stored, rfl, by simp, fun p mem => .inl mem, fun no => absurd rfl no⟩⟩
  | succ n ih =>
    obtain ⟨header, r₁, header_read, h⟩ := read_bind_ok.1 h
    obtain ⟨⟨⟩, r₂, narrow, h⟩ := read_bind_ok.1 h
    obtain ⟨⟨⟩, r₃, linked, h⟩ := read_bind_ok.1 h
    obtain ⟨_, r₄, rule, h⟩ := read_bind_ok.1 h
    obtain ⟨⟨⟩, r₅, carried, h⟩ := read_bind_ok.1 h
    obtain ⟨t, r₆, targeted, h⟩ := read_bind_ok.1 h
    obtain ⟨⟨⟩, r₇, proved, h⟩ := read_bind_ok.1 h
    obtain ⟨w, r₈, worked, h⟩ := read_bind_ok.1 h
    obtain ⟨⟨⟩, r₉, small, rest⟩ := read_bind_ok.1 h
    have fits := BlockHeader.read_ok header_read
    replace narrow := (require_ok.1 narrow).1
    replace linked := (require_ok.1 linked).1
    replace rule := (liftRead_ok.1 rule).1
    replace carried := (require_ok.1 carried).1
    replace targeted := (target_ok (liftRead_ok.1 targeted).1).1
    replace proved := (require_ok.1 proved).1
    replace worked := work_ok (liftRead_ok.1 worked).1
    replace small := (require_ok.1 small).1
    subst targeted worked carried
    have accepts : Accepts base chain header := by
      obtain ⟨parent, earlier, rfl⟩ := exists_cons_of_ne_nil grown.ne_nil
      exact ⟨fits, by simp [linked, recordOf], expectedBits_ok boundary grown.ne_nil stored rfl rule,
        proved⟩
    have newest : (⟨header.hash, (recordOf chain).chainwork + workOf header.bits, header.bits,
        header.time⟩ : Record) = recordOf (header :: chain) := by
      rw [recordOf_chainwork, add_comm]
      rfl
    simp only [newest] at rest
    have placed := stored.cons header
    rw [kept, ← known_append below] at placed
    obtain ⟨new, count, built⟩ := ih (.grow grown accepts) placed (by
      simp only [mem_append, mem_singleton, length_cons]
      rintro p (mem | rfl)
      · exact (below p mem).trans (by omega)
      · dsimp only
        omega) rest
    refine ⟨new ++ [header], by simp [count], ?_⟩
    constructor
    case grown => simpa using built.grown
    case stored => simpa using built.stored
    case last => simpa using built.last
    case heights =>
      rw [built.heights]
      simp [range'_succ, add_assoc]
    case fits =>
      intro p mem
      rcases built.fits p mem with mem | fitting
      · rcases mem_append.1 mem with mem | mem
        · exact .inl mem
        · right
          rw [mem_singleton.1 mem, ← newest]
          refine ⟨RouteCrypto.length_sha256 _, ?_, fits.bits, fits.time⟩
          rw [maxValue] at small
          dsimp only
          omega
      · exact .inr fitting
    case height =>
      intro _
      by_cases last : new = []
      · subst last
        simp only [nil_append, singleton_append, length_cons]
        omega
      · simpa using built.height last

/-! ### The records after an update -/

def updateWrites (route : BridgeRoute) (anchor : LightClientAnchor) (pending : List (ℕ × Record))
    (tipHeight : ℕ) : List Write :=
  (pending.map fun p => (recordKey route anchor p.1, p.2.encode)) ++
    [(tipKey route anchor, beBytes 8 tipHeight)]

section
variable {pending : List (ℕ × Record)} {tipHeight : ℕ}

theorem written_records (distinct : (pending.map Prod.fst).Nodup) (n : ℕ) :
    written (pending.map fun p => (recordKey route anchor p.1, p.2.encode))
      (recordKey route anchor n) =
      (pending.find? (fun p => p.1 = n)).map fun p => p.2.encode := by
  induction pending with
  | nil => rfl
  | cons p pending ih =>
    rw [map_cons, nodup_cons] at distinct
    rw [map_cons, written_cons, ih distinct.2, find?_cons]
    by_cases same : p.1 = n
    · have absent : pending.find? (fun q => q.1 = n) = none := by
        simp only [find?_eq_none, decide_eq_true_eq]
        rintro q mem rfl
        exact distinct.1 (same ▸ mem_map_of_mem mem)
      simp [same, absent]
    · simp [same]

theorem updateWrites_clean (clean : ColonFree route.routeName.chain) :
    ∀ w ∈ updateWrites route anchor pending tipHeight, w.1.Clean := by
  simp only [updateWrites, mem_append, mem_map, mem_singleton]
  rintro w (⟨p, -, rfl⟩ | rfl)
  · exact recordKey_clean clean p.1
  · exact tipKey_clean clean

theorem record_put (clean : ColonFree route.routeName.chain)
    (distinct : (pending.map Prod.fst).Nodup) (fits : ∀ p ∈ pending, p.2.Fits) :
    record (s.put (updateWrites route anchor pending tipHeight)) route anchor =
      known s route anchor pending := by
  funext n
  unfold record
  rw [RouteState.put_get (recordKey_clean clean n) (updateWrites_clean clean), updateWrites,
    written_append, written_records distinct]
  simp only [written_cons, written_nil, Option.none_or, recordKey_ne_tipKey.symm, if_false]
  unfold known
  cases found : pending.find? (fun p => p.1 = n) with
  | none => rfl
  | some p =>
    have mem := mem_of_find?_eq_some found
    simp only [Option.map_some, Option.some_or, Record.decode_encode (fits p mem)]
    rfl

theorem tip_put (clean : ColonFree route.routeName.chain)
    (distinct : (pending.map Prod.fst).Nodup) (fits : ∀ p ∈ pending, p.2.Fits)
    (narrow : tipHeight < 2 ^ 64) {r : Record}
    (stored : known s route anchor pending tipHeight = .ok (some r)) :
    tip (s.put (updateWrites route anchor pending tipHeight)) route anchor =
      .ok (some (tipHeight, r)) := by
  have value : ofBeBytes (beBytes 8 tipHeight) = tipHeight := ofBeBytes_beBytes (by omega)
  unfold tip
  rw [record_put clean distinct fits,
    RouteState.put_get (tipKey_clean clean) (updateWrites_clean clean), updateWrites,
    written_append]
  simp [value, stored, ensure, Bind.bind, Except.bind, Pure.pure, Except.pure]

end

/-! ### What an update does -/

section
variable {base : ℕ} {hash update : Bytes} {writes : List ClientWrite} {s' : RouteState}
  {chain : List BlockHeader}

theorem bootstrap_ok {a : Anchor} {tipHeight : ℕ} {r r' : Reader}
    (h : bootstrap s route anchor a r = .ok ((writes, tipHeight), r')) :
    tip s route anchor = .ok none ∧ tipHeight = a.trustedHeight ∧
      ∃ header, Trusted a.trustedHeaderHash header ∧ (recordOf [header]).Fits ∧
        writes = [(recordSuffix a.trustedHeight, (recordOf [header]).encode)] := by
  obtain ⟨header, r₁, header_read, h⟩ := read_bind_ok.1 h
  obtain ⟨⟨⟩, r₂, -, h⟩ := read_bind_ok.1 h
  obtain ⟨⟨⟩, r₃, trusted, h⟩ := read_bind_ok.1 h
  obtain ⟨held, r₄, tipped, h⟩ := read_bind_ok.1 h
  obtain ⟨⟨⟩, r₅, empty, h⟩ := read_bind_ok.1 h
  obtain ⟨w, r₆, worked, h⟩ := read_bind_ok.1 h
  obtain ⟨same, -⟩ := read_pure_ok.1 h
  have fits := BlockHeader.read_ok header_read
  have trust := (require_ok.1 trusted).1
  have none := (require_ok.1 empty).1
  have bounded : w < 256 ^ 16 := by
    have worked := (liftRead_ok.1 worked).1
    simp only [work, bind_ok, pure_ok, ensure_ok, exists_const] at worked
    obtain ⟨t, -, small, rfl⟩ := worked
    unfold maxValue at small
    omega
  obtain rfl := work_ok (liftRead_ok.1 worked).1
  cases same
  exact ⟨none ▸ (liftRead_ok.1 tipped).1, rfl, header, ⟨fits, trust⟩,
    ⟨RouteCrypto.length_sha256 _, bounded, fits.bits, fits.time⟩, rfl⟩

theorem build_ok {a : Anchor} {tipHeight : ℕ} {r r' : Reader}
    (boundary : a.trustedHeight % retargetInterval = 0)
    (best : BestChain s route anchor a.trustedHeight hash chain)
    (h : build s route anchor a r = .ok ((writes, tipHeight), r')) :
    ∃ part new pending, part <:+ chain ∧ part ≠ [] ∧ new ≠ [] ∧
      Built s route anchor a.trustedHeight hash part new [] pending (recordOf (new ++ part)) ∧
      chainWork chain < chainWork (new ++ part) ∧
      tipHeight = HeightStore.height a.trustedHeight (new ++ part) ∧
      writes = pending.map fun p => (recordSuffix p.1, p.2.encode) := by
  obtain ⟨parentHeight, r₁, -, h⟩ := read_bind_ok.1 h
  obtain ⟨n, r₂, -, h⟩ := read_bind_ok.1 h
  obtain ⟨⟨⟩, r₃, some, h⟩ := read_bind_ok.1 h
  obtain ⟨held, r₄, tipped, h⟩ := read_bind_ok.1 h
  obtain ⟨known_tip, -⟩ := liftRead_ok.1 tipped
  rw [best.tip] at known_tip
  cases known_tip
  obtain ⟨⟨⟩, r₅, within, h⟩ := read_bind_ok.1 h
  obtain ⟨low, high⟩ := (require_ok.1 within).1
  obtain ⟨part, suffix, nonempty, at_parent⟩ := exists_part low (by
    have positive := length_pos_iff.2 best.grown.ne_nil
    unfold HeightStore.height at high
    omega : parentHeight < a.trustedHeight + chain.length)
  obtain ⟨stored, r₆, read, h⟩ := read_bind_ok.1 h
  have found := best.stored part suffix nonempty
  rw [at_parent, (liftRead_ok.1 read).1] at found
  cases found
  obtain ⟨⟨pending, last⟩, r₇, headers, h⟩ := read_bind_ok.1 h
  obtain ⟨⟨⟩, r₈, -, h⟩ := read_bind_ok.1 h
  obtain ⟨⟨⟩, r₉, heavier, h⟩ := read_bind_ok.1 h
  obtain ⟨same, -⟩ := read_pure_ok.1 h
  cases same
  have positive := length_pos_iff.2 nonempty
  have next : parentHeight + 1 = a.trustedHeight + part.length := by
    unfold HeightStore.height at at_parent
    omega
  rw [next] at headers
  have below : Placed (known s route anchor []) kept a.trustedHeight part :=
    best.stored.suffix suffix
  obtain ⟨new, count, built⟩ := readHeaders_ok boundary (best.grown.suffix suffix nonempty)
    below (by simp) headers
  have heavier := (require_ok.1 heavier).1
  rw [built.last, recordOf_chainwork, recordOf_chainwork] at heavier
  refine ⟨part, new, pending, suffix, nonempty, ?_, built.last ▸ built, heavier, ?_, rfl⟩
  · rw [← length_pos_iff, count]
    exact Nat.pos_of_ne_zero (require_ok.1 some).1.1
  · simp only [HeightStore.height, length_append, count]
    omega

theorem anchorParts_ok {a : Anchor} (h : anchorParts anchor = .ok a) :
    ∃ signers threshold feeRate, anchor = .bitcoinHeaders a.trustedHeight a.trustedHeaderHash
      a.confirmations signers threshold feeRate := by
  cases anchor with
  | bitcoinHeaders base hash confirmations signers threshold feeRate =>
    simp only [anchorParts, bind_ok, pure_ok] at h
    obtain ⟨script, -, rfl⟩ := h
    exact ⟨signers, threshold, feeRate, rfl⟩
  | _ => cases h

theorem commit_updateWrites {pending : List (ℕ × Record)} {tipHeight : ℕ} :
    s.commit (.ok (updateWrites route anchor pending tipHeight, ())) =
      (.ok (), s.put (updateWrites route anchor pending tipHeight)) := by
  have nonempty : (updateWrites route anchor pending tipHeight).any (fun w => w.2.isEmpty) = false := by
    simp only [updateWrites, any_append, any_map, any_cons, any_nil,
      Bool.or_false, Bool.or_eq_false_iff, any_eq_false, comp_apply,
      List.isEmpty_iff]
    constructor
    · intro p mem none
      have size := congrArg List.length none
      simp [Record.encode] at size
    · simp [← length_eq_zero_iff]
  simp [RouteState.commit, RouteState.apply, nonempty]

/-- What stands after an accepted update: the trusted header alone, where nothing was kept; or
headers on top of a part of the old chain, with more work than all of it. -/
inductive Advanced (s s' : RouteState) (route : BridgeRoute) (anchor : LightClientAnchor) (base : ℕ)
    (hash : Bytes) : Prop where
  | bootstrapped (header : BlockHeader) (fresh : tip s route anchor = .ok none)
      (best : BestChain s' route anchor base hash [header])
  | built (chain part new : List BlockHeader) (old : BestChain s route anchor base hash chain)
      (suffix : part <:+ chain) (shared : part ≠ []) (longer : new ≠ [])
      (heavier : chainWork chain < chainWork (new ++ part))
      (best : BestChain s' route anchor base hash (new ++ part))

def Synced (s : RouteState) (route : BridgeRoute) (anchor : LightClientAnchor) (base : ℕ)
    (hash : Bytes) : Prop :=
  tip s route anchor = .ok none ∨ ∃ chain, BestChain s route anchor base hash chain

theorem build_held {a : Anchor} {tipHeight : ℕ} {r r' : Reader}
    (h : build s route anchor a r = .ok ((writes, tipHeight), r')) :
    tip s route anchor ≠ .ok none := by
  intro none
  obtain ⟨parentHeight, r₁, -, h⟩ := read_bind_ok.1 h
  obtain ⟨n, r₂, -, h⟩ := read_bind_ok.1 h
  obtain ⟨⟨⟩, r₃, -, h⟩ := read_bind_ok.1 h
  obtain ⟨held, r₄, tipped, h⟩ := read_bind_ok.1 h
  have same := (liftRead_ok.1 tipped).1
  rw [none] at same
  cases same
  cases h

theorem bestChain_put {pending : List (ℕ × Record)} (clean : ColonFree route.routeName.chain)
    (distinct : (pending.map Prod.fst).Nodup) (fits : ∀ p ∈ pending, p.2.Fits)
    (grown : Grown (Trusted hash) (Accepts base) chain)
    (stored : Placed (known s route anchor pending) kept base chain)
    (narrow : HeightStore.height base chain < 2 ^ 64) :
    BestChain (s.put (updateWrites route anchor pending (HeightStore.height base chain))) route
      anchor base hash chain where
  grown := grown
  stored := by rwa [record_put clean distinct fits]
  tip := tip_put clean distinct fits narrow (stored.newest grown.ne_nil)

theorem bestChain_bootstrap {header : BlockHeader} (clean : ColonFree route.routeName.chain)
    (trusted : Trusted hash header) (fits : (recordOf [header]).Fits) (narrow : base < 2 ^ 64) :
    BestChain (s.put (updateWrites route anchor [(base, recordOf [header])] base)) route anchor base
      hash [header] := by
  have top : HeightStore.height base [header] = base := by simp [HeightStore.height]
  have stored : Placed (known s route anchor [(base, recordOf [header])]) kept base [header] := by
    intro t part nonempty
    rcases suffix_cons_iff.1 part with rfl | part
    · simp [top, known, kept]
    · exact absurd (suffix_nil.1 part) nonempty
  have best : BestChain (s.put (updateWrites route anchor [(base, recordOf [header])]
      (HeightStore.height base [header]))) route anchor base hash [header] :=
    bestChain_put clean (by simp) (by simpa using fits) (.root trusted) stored (by rwa [top])
  rwa [top] at best

theorem applyUpdate_ok {confirmations threshold feeRate : ℕ} {signers : List Bytes}
    (clean : ColonFree route.routeName.chain)
    (anchored : anchor = .bitcoinHeaders base hash confirmations signers threshold feeRate)
    (boundary : base % retargetInterval = 0) (narrow : base < 2 ^ 64)
    (synced : Synced s route anchor base hash)
    (h : applyUpdate s route anchor update = (.ok (), s')) :
    Advanced s s' route anchor base hash := by
  unfold applyUpdate at h
  cases advanced : advance s route anchor update with
  | error e => simp [advanced, Except.map, RouteState.commit] at h
  | ok writes =>
    obtain ⟨a, r, r', records, tipHeight, parts, done, rfl⟩ := advance_ok advanced
    obtain ⟨_, _, _, same⟩ := anchorParts_ok parts
    rw [anchored] at same
    cases same
    have planned (pending : List (ℕ × Record))
        (recorded : records = pending.map fun p => (recordSuffix p.1, p.2.encode)) :
        (records ++ [([], beBytes 8 tipHeight)]).map
          (fun w : ClientWrite => (RouteKey.lightClient route.routeName anchor.id w.1, w.2)) =
          updateWrites route anchor pending tipHeight := by
      simp [recorded, updateWrites, recordKey, tipKey, comp_def]
    rw [advanced, Except.map] at h
    rcases done with first | next
    · obtain ⟨fresh, rfl, header, trusted, fits, recorded⟩ := bootstrap_ok first
      rw [planned [(a.trustedHeight, recordOf [header])] recorded, commit_updateWrites] at h
      cases h
      exact .bootstrapped header fresh (bestChain_bootstrap clean trusted fits narrow)
    · rcases synced with empty | ⟨chain, best⟩
      · exact absurd empty (build_held next)
      · obtain ⟨part, new, pending, suffix, shared, longer, built, heavier, rfl, recorded⟩ :=
          build_ok boundary best next
        have all : ∀ p ∈ pending, p.2.Fits := by simpa using built.fits
        have distinct : (pending.map Prod.fst).Nodup := by
          rw [built.heights]
          simpa using nodup_range'
        have small := built.height longer
        have positive := length_pos_iff.2 built.grown.ne_nil
        rw [planned pending recorded, commit_updateWrites] at h
        cases h
        refine .built chain part new best suffix shared longer heavier
          (bestChain_put clean distinct all built.grown built.stored ?_)
        unfold HeightStore.height
        omega

end

end
end BitcoinLightClient
end Tenzro.Bridge
