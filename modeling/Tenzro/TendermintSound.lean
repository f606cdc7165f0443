import Tenzro.TendermintHashes

set_option autoImplicit false
set_option linter.dupNamespace false

/-!
# Safety of the Tendermint light client

The chain's honest validators hold more than two thirds of every set it names
and sign precommits for its own headers only, so a verified header is one of
the chain's.
-/
namespace Tenzro.Bridge
open ByteCodec FixedWidth Outcome Protobuf HashTree List Function

namespace Tendermint

/-! ### Power -/

def honestPower (honest : Bytes → Bool) (set : List Validator) : ℕ :=
  totalPower (set.filter fun v => honest v.1)

def faultyPower (honest : Bytes → Bool) (set : List Validator) : ℕ :=
  totalPower (set.filter fun v => !honest v.1)

theorem totalPower_cons (v : Validator) (set : List Validator) :
    totalPower (v :: set) = v.2 + totalPower set := by
  simp [totalPower]

theorem honestPower_add_faultyPower (honest : Bytes → Bool) (set : List Validator) :
    honestPower honest set + faultyPower honest set = totalPower set := by
  unfold honestPower faultyPower
  induction set with
  | nil => rfl
  | cons v set ih =>
    rw [totalPower_cons]
    by_cases h : honest v.1 = true
    · rw [filter_cons_of_pos (p := fun v : Validator => honest v.1) h,
        filter_cons_of_neg (by simp [h]), totalPower_cons]
      omega
    · rw [filter_cons_of_neg (p := fun v : Validator => honest v.1) h,
        filter_cons_of_pos (by simp [h]), totalPower_cons]
      omega

theorem totalPower_filter_add {set : List Validator} {p q : Validator → Bool} {v : Validator}
    (mem : v ∈ set) (chosen : p v = true) (left_out : q v = false)
    (narrower : ∀ u, q u = true → p u = true) :
    totalPower (set.filter q) + v.2 ≤ totalPower (set.filter p) := by
  have mono (l : List Validator) : totalPower (l.filter q) ≤ totalPower (l.filter p) := by
    induction l with
    | nil => exact le_rfl
    | cons u l ih =>
      by_cases hq : q u = true
      · rw [filter_cons_of_pos hq, filter_cons_of_pos (narrower u hq), totalPower_cons,
          totalPower_cons]
        omega
      · rw [filter_cons_of_neg hq]
        by_cases hp : p u = true
        · rw [filter_cons_of_pos hp, totalPower_cons]
          omega
        · rwa [filter_cons_of_neg hp]
  obtain ⟨A, B, rfl⟩ := append_of_mem mem
  have before := mono A
  have after := mono B
  have add (l l' : List Validator) : totalPower (l ++ l') = totalPower l + totalPower l' := by
    simp [totalPower]
  rw [filter_append, filter_append, filter_cons_of_pos chosen,
    filter_cons_of_neg (by simp [left_out]), add, add, totalPower_cons]
  omega

section
variable [RouteCrypto] [Ed25519] {honest : Bytes → Bool} {c : Commit} {chainId : String}

def Vouched (honest : Bytes → Bool) (c : Commit) (chainId : String) : Prop :=
  ∃ key sig, honest key = true ∧
    Ed25519.verifyStrict key (c.signBytes chainId sig) sig.signature = true

omit [RouteCrypto] in
theorem vouched_of_signature {key : Bytes} {sig : CommitSig} (good : honest key = true)
    (checked : c.checkSignature chainId key sig = .ok ()) : Vouched honest c chainId := by
  obtain ⟨_, -, verified⟩ := bind_ok.1 checked
  exact ⟨key, sig, good, ensure_ok.1 verified⟩

theorem countByIndex_le {l : List (CommitSig × Validator)} {power : ℕ}
    (ran : c.countByIndex chainId l = .ok power) :
    Vouched honest c chainId ∨ power ≤ faultyPower honest (l.map Prod.snd) := by
  induction l generalizing power with
  | nil =>
    cases ran
    exact .inr (Nat.zero_le _)
  | cons x l ih =>
    obtain ⟨sig, key, p⟩ := x
    have grows : faultyPower honest (l.map Prod.snd) ≤
        faultyPower honest (((sig, key, p) :: l).map Prod.snd) := by
      unfold faultyPower
      rw [map_cons, filter_cons]
      split_ifs
      · rw [totalPower_cons]
        exact Nat.le_add_left _ _
      · exact le_rfl
    have skipped {power : ℕ} (ran : c.countByIndex chainId l = .ok power) :
        Vouched honest c chainId ∨
          power ≤ faultyPower honest (((sig, key, p) :: l).map Prod.snd) :=
      (ih ran).imp_right fun less => less.trans grows
    rw [Commit.countByIndex] at ran
    split_ifs at ran with absent signed
    · exact skipped ran
    · obtain ⟨_, -, ran⟩ := bind_ok.1 ran
      obtain ⟨_, checked, ran⟩ := bind_ok.1 ran
      obtain ⟨rest, counted, ran⟩ := bind_ok.1 ran
      obtain rfl := pure_ok.1 ran
      by_cases good : honest key = true
      · exact .inl (vouched_of_signature good checked)
      · refine (ih counted).imp_right fun less => ?_
        unfold faultyPower at less ⊢
        rw [map_cons, filter_cons_of_pos (by simp [good]), totalPower_cons]
        exact Nat.add_le_add_left less _
    · obtain ⟨_, -, ran⟩ := bind_ok.1 ran
      exact skipped ran

theorem countByAddress_le {trusted : List Validator} {seen : List Bytes} {sigs : List CommitSig}
    {power : ℕ} (ran : c.countByAddress chainId trusted seen sigs = .ok power) :
    Vouched honest c chainId ∨
      power ≤ totalPower (trusted.filter fun v => !honest v.1 && decide (address v.1 ∉ seen)) := by
  induction sigs generalizing seen power with
  | nil =>
    cases ran
    exact .inr (Nat.zero_le _)
  | cons sig sigs ih =>
    rw [Commit.countByAddress] at ran
    cases found : trusted.find? fun v => address v.1 = sig.address with
    | none =>
      rw [found] at ran
      exact ih ran
    | some v =>
      obtain ⟨key, p⟩ := v
      rw [found] at ran
      obtain ⟨_, fresh, ran⟩ := bind_ok.1 ran
      obtain ⟨_, checked, ran⟩ := bind_ok.1 ran
      obtain ⟨rest, counted, ran⟩ := bind_ok.1 ran
      obtain rfl := pure_ok.1 ran
      have own : address key = sig.address := of_decide_eq_true (find?_some found :)
      by_cases good : honest key = true
      · exact .inl (vouched_of_signature good checked)
      · refine (ih counted).imp_right fun less => ?_
        have more := totalPower_filter_add
          (p := fun v => !honest v.1 && decide (address v.1 ∉ seen))
          (q := fun v => !honest v.1 && decide (address v.1 ∉ sig.address :: seen))
          (mem_of_find?_eq_some found) (by simp [good, own, ensure_ok.1 fresh])
          (by simp [own]) (by simp +contextual)
        simp only at more
        omega

theorem vouched_of_index {set : List Validator} {power : ℕ}
    (majority : totalPower set * 2 < honestPower honest set * 3)
    (ran : c.powerByIndex chainId set = .ok power) (enough : totalPower set < power * 3) :
    Vouched honest c chainId := by
  obtain ⟨_, size, ran⟩ := bind_ok.1 ran
  have parts := honestPower_add_faultyPower honest set
  have all : (c.signatures.zip set).map Prod.snd = set :=
    map_snd_zip (ensure_ok.1 size).ge
  rcases countByIndex_le ran with vouched | less
  · exact vouched
  · rw [all] at less
    omega

theorem vouched_of_address {trusted : List Validator} {power : ℕ}
    (majority : totalPower trusted * 2 < honestPower honest trusted * 3)
    (ran : c.powerByAddress chainId trusted = .ok power)
    (enough : totalPower trusted < power * 3) : Vouched honest c chainId := by
  have parts := honestPower_add_faultyPower honest trusted
  rcases countByAddress_le ran with vouched | less
  · exact vouched
  · simp only [not_mem_nil, not_false_eq_true, decide_true, Bool.and_true] at less
    change power ≤ faultyPower honest trusted at less
    omega

end

/-! ### What an update holds -/

structure ConsensusState.Fits (cs : ConsensusState) : Prop where
  timeSeconds : cs.timeSeconds < 2 ^ 64
  timeNanos : cs.timeNanos < 2 ^ 32
  appHash : cs.appHash.length ≤ maxHashField
  nextValidatorsHash : cs.nextValidatorsHash.length = 32

theorem ConsensusState.decode_encode {cs : ConsensusState} (fits : cs.Fits) :
    ConsensusState.decode cs.encode = .ok cs := by
  have seconds := fits.timeSeconds
  have nanos := fits.timeNanos
  have app : cs.appHash.length ≤ 64 := fits.appHash
  apply Reads.decodeWith
  refine (Reads.readBe (by omega)).bind ?_
  refine (Reads.readBe (by omega)).bind ?_
  refine (Reads.readBeBytes (by omega) fits.appHash).bind ?_
  exact Reads.seq (Reads.take fits.nextValidatorsHash) (append_nil _).symm (Reads.pure cs)

/-- What the reader of a header checks. -/
structure Header.Fits (h : Header) : Prop where
  height : h.height < 2 ^ 64
  timeSeconds : h.timeSeconds < 2 ^ 63
  timeNanos : h.timeNanos < 1000000000
  appHash : h.appHash.length ≤ maxHashField
  nextValidatorsHash : h.nextValidatorsHash.length = 32

section
variable {r r' : Reader}

theorem Header.read_ok {h : Header} (ran : Header.read r = .ok (h, r')) : h.Fits := by
  obtain ⟨versionBlock, r₁, -, ran⟩ := read_bind_ok.1 ran
  obtain ⟨versionApp, r₂, -, ran⟩ := read_bind_ok.1 ran
  obtain ⟨chainId, r₃, -, ran⟩ := read_bind_ok.1 ran
  obtain ⟨height, r₄, height_read, ran⟩ := read_bind_ok.1 ran
  obtain ⟨timeSeconds, r₅, -, ran⟩ := read_bind_ok.1 ran
  obtain ⟨timeNanos, r₆, -, ran⟩ := read_bind_ok.1 ran
  obtain ⟨lastBlockHash, r₇, -, ran⟩ := read_bind_ok.1 ran
  obtain ⟨lastPartsTotal, r₈, -, ran⟩ := read_bind_ok.1 ran
  obtain ⟨lastPartsHash, r₉, -, ran⟩ := read_bind_ok.1 ran
  obtain ⟨lastCommitHash, r₁₀, -, ran⟩ := read_bind_ok.1 ran
  obtain ⟨dataHash, r₁₁, -, ran⟩ := read_bind_ok.1 ran
  obtain ⟨validatorsHash, r₁₂, -, ran⟩ := read_bind_ok.1 ran
  obtain ⟨nextValidatorsHash, r₁₃, -, ran⟩ := read_bind_ok.1 ran
  obtain ⟨consensusHash, r₁₄, -, ran⟩ := read_bind_ok.1 ran
  obtain ⟨appHash, r₁₅, app_read, ran⟩ := read_bind_ok.1 ran
  obtain ⟨lastResultsHash, r₁₆, -, ran⟩ := read_bind_ok.1 ran
  obtain ⟨evidenceHash, r₁₇, -, ran⟩ := read_bind_ok.1 ran
  obtain ⟨proposer, r₁₈, -, ran⟩ := read_bind_ok.1 ran
  obtain ⟨_, r₁₉, times, ran⟩ := read_bind_ok.1 ran
  obtain ⟨_, r₂₀, hashes, ran⟩ := read_bind_ok.1 ran
  obtain ⟨rfl, -⟩ := read_pure_ok.1 ran
  have bound := readBe_ok height_read
  obtain ⟨nanos, seconds⟩ := (require_ok.1 times).1
  exact ⟨by omega, seconds, nanos, readBeBytes_ok app_read, (require_ok.1 hashes).1.2.2⟩

theorem Commit.read_ok {c : Commit} (ran : Commit.read r = .ok (c, r')) : c.Fits := by
  obtain ⟨height, r₁, height_read, ran⟩ := read_bind_ok.1 ran
  obtain ⟨round, r₂, round_read, ran⟩ := read_bind_ok.1 ran
  obtain ⟨blockHash, r₃, -, ran⟩ := read_bind_ok.1 ran
  obtain ⟨_, r₄, -, ran⟩ := read_bind_ok.1 ran
  obtain ⟨partsTotal, r₅, -, ran⟩ := read_bind_ok.1 ran
  obtain ⟨partsHash, r₆, -, ran⟩ := read_bind_ok.1 ran
  obtain ⟨n, r₇, -, ran⟩ := read_bind_ok.1 ran
  obtain ⟨_, r₈, -, ran⟩ := read_bind_ok.1 ran
  obtain ⟨signatures, r₉, -, ran⟩ := read_bind_ok.1 ran
  obtain ⟨rfl, -⟩ := read_pure_ok.1 ran
  have height_bound := readBe_ok height_read
  have round_bound := readBe_ok round_read
  exact ⟨by omega, by omega⟩

def Update.Fits : Update → Prop
  | bootstrap header => header.Fits
  | next _ header commit .. => header.Fits ∧ commit.Fits

theorem Update.Fits.header {u : Update} (fits : u.Fits) : u.header.Fits := by
  cases u with
  | bootstrap h => exact fits
  | next n h c v t => exact fits.1

theorem Update.read_ok {u : Update} (ran : Update.read r = .ok (u, r')) : u.Fits := by
  obtain ⟨tag, r₁, -, ran⟩ := read_bind_ok.1 ran
  split_ifs at ran
  · obtain ⟨header, r₂, header_read, ran⟩ := read_bind_ok.1 ran
    obtain ⟨_, r₃, -, ran⟩ := read_bind_ok.1 ran
    obtain ⟨rfl, -⟩ := read_pure_ok.1 ran
    exact Header.read_ok header_read
  · obtain ⟨trustedHeight, r₂, -, ran⟩ := read_bind_ok.1 ran
    obtain ⟨header, r₃, header_read, ran⟩ := read_bind_ok.1 ran
    obtain ⟨commit, r₄, commit_read, ran⟩ := read_bind_ok.1 ran
    obtain ⟨validators, r₅, -, ran⟩ := read_bind_ok.1 ran
    obtain ⟨trustedValidators, r₆, -, ran⟩ := read_bind_ok.1 ran
    obtain ⟨_, r₇, -, ran⟩ := read_bind_ok.1 ran
    obtain ⟨rfl, -⟩ := read_pure_ok.1 ran
    exact ⟨Header.read_ok header_read, Commit.read_ok commit_read⟩
  · cases ran

end

/-! ### The chain -/

def PrecommitFor (chainId : String) (message : Bytes) (height : ℕ) (blockHash : Bytes) : Prop :=
  ∃ (c : Commit) (sig : CommitSig), c.Fits ∧ c.height = height ∧ c.blockHash = blockHash ∧
    message = c.signBytes chainId sig

/-- The chain's headers up to a height, the sets they name next, and what its honest validators
sign. -/
structure Chain where
  id : String
  tip : ℕ
  header : ℕ → Header
  next : ℕ → List Validator
  honest : Bytes → Bool
  signed : Bytes → Set Bytes
  /-- The strings hashed by anyone. -/
  hashed : Set Bytes

section
variable [RouteCrypto]

def headerStrings (h : Header) : List Bytes := merkleStrings h.items

def setStrings (set : List Validator) : List Bytes := merkleStrings (set.map validatorBytes)

structure Chain.Honest [Ed25519] (chain : Chain) : Prop where
  named : ∀ n ≤ chain.tip, (chain.header n).nextValidatorsHash = validatorsHash (chain.next n)
  majority : ∀ n ≤ chain.tip,
    totalPower (chain.next n) * 2 < honestPower chain.honest (chain.next n) * 3
  unforged : ∀ key message signature, chain.honest key = true →
    Ed25519.verifyStrict key message signature = true → message ∈ chain.signed key
  precommits : ∀ key message, chain.honest key = true → message ∈ chain.signed key →
    (∃ n b, PrecommitFor chain.id message n b) →
      ∃ n ≤ chain.tip, PrecommitFor chain.id message n (chain.header n).hash
  collision_free : ∀ x ∈ chain.hashed, ∀ y ∈ chain.hashed, sha256 x = sha256 y → x = y
  headers : ∀ n ≤ chain.tip, ∀ x ∈ headerStrings (chain.header n), x ∈ chain.hashed
  sets : ∀ n ≤ chain.tip, ∀ x ∈ setStrings (chain.next n), x ∈ chain.hashed

def Update.strings : Update → List Bytes
  | bootstrap header => headerStrings header
  | next _ header _ validators trustedValidators =>
    headerStrings header ++ (setStrings validators ++ setStrings trustedValidators)

def updateStrings (update : Bytes) : List Bytes :=
  match Update.read.run' ⟨0, update⟩ with
  | .ok u => u.strings
  | .error _ => []

variable [Ed25519] {chain : Chain} (good : chain.Honest)
include good

theorem canonical_header {n : ℕ} (held : n ≤ chain.tip) {h : Header}
    (strings : ∀ x ∈ headerStrings h, x ∈ chain.hashed)
    (same : h.hash = (chain.header n).hash) : h = chain.header n :=
  Header.hash_injective (fun x hx y hy => good.collision_free x (strings x hx) y
    (good.headers n held y hy)) same

theorem canonical_set {n : ℕ} (held : n ≤ chain.tip) {set : List Validator}
    (strings : ∀ x ∈ setStrings set, x ∈ chain.hashed)
    (same : validatorsHash set = (chain.header n).nextValidatorsHash) : set = chain.next n := by
  rw [good.named n held] at same
  exact validatorsHash_injective (fun x hx y hy => good.collision_free x (strings x hx) y
    (good.sets n held y hy)) same

theorem canonical_commit {c : Commit} (fits : c.Fits) (vouched : Vouched chain.honest c chain.id) :
    c.height ≤ chain.tip ∧ c.blockHash = (chain.header c.height).hash := by
  obtain ⟨key, sig, honest, verified⟩ := vouched
  have signed := good.unforged key _ _ honest verified
  obtain ⟨n, held, c', sig', fits', height, block, same⟩ := good.precommits key _ honest signed
    ⟨c.height, c.blockHash, c, sig, fits, rfl, rfl, rfl⟩
  obtain ⟨heights, blocks⟩ := Commit.signBytes_inj fits fits' same
  rw [blocks, block, heights, height]
  exact ⟨held, rfl⟩

theorem verifyHeader_canonical {s : RouteState} {a : Anchor} {trustedHeight : ℕ}
    {trusted : ConsensusState} {header : Header} {commit : Commit}
    {validators trustedValidators : List Validator} (id : a.chainId = chain.id) (fits : commit.Fits)
    (held : trustedHeight ≤ chain.tip)
    (own : trusted.nextValidatorsHash = (chain.header trustedHeight).nextValidatorsHash)
    (strings : ∀ x ∈ (Update.next trustedHeight header commit validators trustedValidators).strings,
      x ∈ chain.hashed)
    (ran : verifyHeader s a trustedHeight trusted header commit validators trustedValidators =
      .ok ()) : header.height ≤ chain.tip ∧ header = chain.header header.height := by
  have parts (x : Bytes) : (x ∈ headerStrings header → x ∈ chain.hashed) ∧
      (x ∈ setStrings validators → x ∈ chain.hashed) ∧
      (x ∈ setStrings trustedValidators → x ∈ chain.hashed) := by
    simp only [Update.strings, mem_append] at strings
    exact ⟨fun h => strings x (.inl h), fun h => strings x (.inr (.inl h)),
      fun h => strings x (.inr (.inr h))⟩
  unfold verifyHeader at ran
  obtain ⟨_, -, ran⟩ := bind_ok.1 ran
  obtain ⟨_, -, ran⟩ := bind_ok.1 ran
  obtain ⟨_, -, ran⟩ := bind_ok.1 ran
  obtain ⟨_, -, ran⟩ := bind_ok.1 ran
  obtain ⟨_, block, ran⟩ := bind_ok.1 ran
  obtain ⟨_, set, ran⟩ := bind_ok.1 ran
  obtain ⟨_, named, ran⟩ := bind_ok.1 ran
  obtain ⟨height, hash⟩ := ensure_ok.1 block
  have trusted_set := canonical_set good held (fun x => (parts x).2.2) ((ensure_ok.1 named).trans own)
  have majority := good.majority trustedHeight held
  have vouched : Vouched chain.honest commit chain.id := by
    rw [id] at ran
    simp only at ran
    split_ifs at ran
    · obtain ⟨_, adjacent, ran⟩ := bind_ok.1 ran
      obtain ⟨power, counted, ran⟩ := bind_ok.1 ran
      have next_set := canonical_set good held (fun x => (parts x).2.1)
        ((ensure_ok.1 set).symm.trans ((ensure_ok.1 adjacent).trans own))
      have enough := ensure_ok.1 ran
      rw [next_set] at counted enough
      exact vouched_of_index majority counted (by omega)
    · obtain ⟨power, counted, ran⟩ := bind_ok.1 ran
      obtain ⟨_, enough, -⟩ := bind_ok.1 ran
      rw [trusted_set] at counted enough
      exact vouched_of_address majority counted (ensure_ok.1 enough)
  have canonical := canonical_commit good fits vouched
  rw [hash, height] at canonical
  exact ⟨canonical.1, canonical_header good canonical.1 (fun x => (parts x).1) canonical.2⟩

end

/-! ### The client's records -/

section
variable [RouteCrypto] {s s' : RouteState} {route : BridgeRoute} {anchor : LightClientAnchor}

theorem consensusKey_text (n : ℕ) : (consensusKey route anchor n).text =
    (latestKey route anchor).text ++ ":" ++ ("cs" ++ ":" ++ BitcoinLightClient.padded n) := by
  have some_fields : (latestKey route anchor).fields ≠ [] := by
    simp [latestKey, RouteKey.fields]
  have fields : (consensusKey route anchor n).fields =
      (latestKey route anchor).fields ++ (["cs"] ++ [BitcoinLightClient.padded n]) := by
    simp [latestKey, consensusKey, RouteKey.fields]
  rw [RouteKey.text, fields, String.intercalate_append_of_ne_nil some_fields (by simp),
    String.intercalate_append_of_ne_nil (by simp) (by simp), String.intercalate_singleton,
    String.intercalate_singleton]
  rfl

theorem consensusKey_ne_latestKey (n : ℕ) :
    (consensusKey route anchor n).text ≠ (latestKey route anchor).text := by
  intro same
  have chars := congrArg (fun t : String => t.toList.length) same
  simp only [consensusKey_text, String.toList_append, length_append] at chars
  have colon : ":".toList.length = 1 := rfl
  omega

theorem consensusKey_text_inj {m n : ℕ}
    (same : (consensusKey route anchor m).text = (consensusKey route anchor n).text) : m = n := by
  have chars := congrArg String.toList same
  simp only [consensusKey_text, String.toList_append] at chars
  have digits := append_cancel_left (append_cancel_left chars)
  exact BitcoinLightClient.padded_injective (String.toList_inj.1 digits)

/-! ### Updates -/

variable [Ed25519] {update : Bytes}

/-- What an accepted update checked, and what it writes. -/
structure Advanced (s : RouteState) (route : BridgeRoute) (anchor : LightClientAnchor)
    (update : Bytes) (u : Update) (a : Anchor) (cs : ConsensusState) (height : ℕ) : Prop where
  parts : anchorParts anchor = .ok a
  read : Update.read.run' ⟨0, update⟩ = .ok u
  checked : u.check s route anchor a = .ok ()
  state : ConsensusState.ofHeader u.header = .ok cs
  kept : consensus s route anchor u.header.height = .ok none ∨
    consensus s route anchor u.header.height = .ok (some cs)
  height : height = (latest s route anchor).elim u.header.height fun l => max l u.header.height

def newState (s : RouteState) (route : BridgeRoute) (anchor : LightClientAnchor) (n : ℕ)
    (cs : ConsensusState) (height : ℕ) : RouteState :=
  s.put [(consensusKey route anchor n, cs.encode), (latestKey route anchor, beBytes 8 height)]

omit [RouteCrypto] [Ed25519] in
theorem encode_ne_nil (cs : ConsensusState) : cs.encode ≠ [] := by
  intro nothing
  have size := congrArg List.length nothing
  simp only [ConsensusState.encode, length_append, length_beBytes, length_nil] at size
  omega

theorem applyUpdate_cases (s : RouteState) (route : BridgeRoute) (anchor : LightClientAnchor)
    (update : Bytes) :
    (∃ e, applyUpdate s route anchor update = (.error e, s)) ∨
      ∃ u a cs height, Advanced s route anchor update u a cs height ∧
        applyUpdate s route anchor update =
          (.ok height, newState s route anchor u.header.height cs height) := by
  unfold applyUpdate
  cases ran : advance s route anchor update with
  | error e => exact .inl ⟨e, rfl⟩
  | ok out =>
    right
    obtain ⟨a, parts, ran⟩ := bind_ok.1 ran
    obtain ⟨u, read, ran⟩ := bind_ok.1 ran
    obtain ⟨_, checked, ran⟩ := bind_ok.1 ran
    obtain ⟨cs, state, ran⟩ := bind_ok.1 ran
    obtain ⟨existing, found, ran⟩ := bind_ok.1 ran
    obtain ⟨_, same, ran⟩ := bind_ok.1 ran
    obtain rfl := pure_ok.1 ran
    have kept : consensus s route anchor u.header.height = .ok none ∨
        consensus s route anchor u.header.height = .ok (some cs) := by
      rcases ensure_ok.1 same with nothing | same
      · exact .inl (nothing ▸ found)
      · exact .inr (same ▸ found)
    refine ⟨u, a, cs, _, ⟨parts, read, checked, state, kept, rfl⟩, ?_⟩
    have written : cs.encode.isEmpty = false := isEmpty_eq_false_iff.2 (encode_ne_nil cs)
    have height (n : ℕ) : (beBytes 8 n).isEmpty = false :=
      isEmpty_eq_false_iff.2 (ne_nil_of_length_pos (by rw [length_beBytes]; omega))
    simp only [Except.map, RouteState.commit, RouteState.apply, map_cons, map_nil,
      any_cons, any_nil, written, height, Bool.or_self, Bool.false_eq_true, if_false]
    rfl

omit [Ed25519] in
theorem newState_consensus {n : ℕ} {cs : ConsensusState} {height m : ℕ} :
    (newState s route anchor n cs height).get (consensusKey route anchor m) =
      if m = n then some cs.encode else s.get (consensusKey route anchor m) := by
  simp only [newState, RouteState.put, RouteState.get, foldl_cons, foldl_nil]
  rw [update_of_ne (consensusKey_ne_latestKey m)]
  split_ifs with same
  · rw [same, update_self]
  · exact update_of_ne (fun text => same (consensusKey_text_inj text)) _ _

omit [Ed25519] in
theorem newState_latest {n : ℕ} {cs : ConsensusState} {height : ℕ} :
    (newState s route anchor n cs height).get (latestKey route anchor) = some (beBytes 8 height) := by
  simp only [newState, RouteState.put, RouteState.get, foldl_cons, foldl_nil,
    update_self]

/-- From a client with no record, by updates of any bytes. Everything else on the chain may change
in between, the time included. -/
inductive Reached (chain : Chain) (route : BridgeRoute) (anchor : LightClientAnchor) :
    RouteState → Prop where
  | fresh {s : RouteState} (nothing : ∀ n, s.get (consensusKey route anchor n) = none)
      (no_latest : s.get (latestKey route anchor) = none) : Reached chain route anchor s
  | other {s s' : RouteState} (before : Reached chain route anchor s)
      (states : ∀ n, s'.get (consensusKey route anchor n) = s.get (consensusKey route anchor n))
      (height : s'.get (latestKey route anchor) = s.get (latestKey route anchor)) :
      Reached chain route anchor s'
  | update {s : RouteState} (before : Reached chain route anchor s) (update : Bytes)
      (strings : ∀ x ∈ updateStrings update, x ∈ chain.hashed) :
      Reached chain route anchor (applyUpdate s route anchor update).2

def Stored (chain : Chain) (s : RouteState) (route : BridgeRoute) (anchor : LightClientAnchor) :
    Prop :=
  ∀ n b, s.get (consensusKey route anchor n) = some b → n ≤ chain.tip ∧
    ∃ cs : ConsensusState, ConsensusState.ofHeader (chain.header n) = .ok cs ∧ cs.Fits ∧ b = cs.encode

omit [RouteCrypto] [Ed25519] in
theorem ofHeader_ok {h : Header} {cs : ConsensusState} (fits : h.Fits)
    (ran : ConsensusState.ofHeader h = .ok cs) : cs.Fits := by
  obtain ⟨_, size, ran⟩ := bind_ok.1 ran
  obtain rfl := pure_ok.1 ran
  have seconds := fits.timeSeconds
  have nanos := fits.timeNanos
  exact ⟨by simp only; omega, by simp only; omega, fits.appHash, ensure_ok.1 size⟩

section
variable {chain : Chain} {a : Anchor} {u : Update} {cs : ConsensusState} {height n : ℕ}

omit [Ed25519] in
theorem Stored.consensus (stored : Stored chain s route anchor)
    (found : consensus s route anchor n = .ok (some cs)) :
    n ≤ chain.tip ∧ ConsensusState.ofHeader (chain.header n) = .ok cs := by
  unfold Tendermint.consensus at found
  cases bytes : s.get (consensusKey route anchor n) with
  | none =>
    rw [bytes] at found
    cases found
  | some b =>
    obtain ⟨held, own, of_header, fits, rfl⟩ := stored n b bytes
    rw [bytes] at found
    simp only [ConsensusState.decode_encode fits, Functor.map, Except.map, Except.ok.injEq,
      Option.some.injEq] at found
    rw [← found]
    exact ⟨held, of_header⟩

theorem Advanced.fits (step : Advanced s route anchor update u a cs height) : u.Fits := by
  have read := step.read
  cases ran : Update.read ⟨0, update⟩ with
  | error e =>
    simp [StateT.run', ran, Functor.map, Except.map] at read
  | ok x =>
    simp only [StateT.run', ran, Functor.map, Except.map, Except.ok.injEq] at read
    exact read ▸ Update.read_ok (u := x.1) ran

theorem Advanced.canonical (good : chain.Honest) (id : a.chainId = chain.id)
    (held : a.trustedHeight ≤ chain.tip)
    (trusted : a.trustedHeaderHash = (chain.header a.trustedHeight).hash)
    (strings : ∀ x ∈ updateStrings update, x ∈ chain.hashed)
    (stored : Stored chain s route anchor)
    (step : Advanced s route anchor update u a cs height) :
    u.header.height ≤ chain.tip ∧ u.header = chain.header u.header.height := by
  have fits := step.fits
  have checked := step.checked
  rw [updateStrings, step.read] at strings
  cases u with
  | bootstrap header =>
    obtain ⟨_, own, -⟩ := bind_ok.1 checked
    obtain ⟨at_height, hash⟩ := ensure_ok.1 own
    change header.height ≤ chain.tip ∧ header = chain.header header.height
    rw [at_height]
    exact ⟨held, canonical_header good held strings (hash.trans trusted)⟩
  | next trustedHeight header commit validators trustedValidators =>
    obtain ⟨state, found, verified⟩ := bind_ok.1 checked
    obtain ⟨held, of_header⟩ := stored.consensus (consensusAt_ok.1 found)
    obtain ⟨_, -, value⟩ := bind_ok.1 of_header
    obtain rfl := pure_ok.1 value
    exact verifyHeader_canonical good id fits.2 held rfl strings verified

theorem Stored.newState (stored : Stored chain s route anchor)
    (step : Advanced s route anchor update u a cs height) (held : u.header.height ≤ chain.tip)
    (canonical : u.header = chain.header u.header.height) :
    Stored chain (newState s route anchor u.header.height cs height) route anchor := by
  intro m b found
  rw [newState_consensus] at found
  split_ifs at found with same
  · subst same
    exact ⟨held, cs, canonical ▸ step.state, ofHeader_ok step.fits.header step.state,
      (Option.some.inj found).symm⟩
  · exact stored m b found

theorem newState_keeps (stored : Stored chain s route anchor)
    (step : Advanced s route anchor update u a cs height)
    (canonical : u.header = chain.header u.header.height) {m : ℕ} {b : Bytes}
    (found : s.get (consensusKey route anchor m) = some b) :
    (newState s route anchor u.header.height cs height).get (consensusKey route anchor m) =
      some b := by
  rw [newState_consensus]
  split_ifs with same
  · obtain ⟨-, own, of_header, -, rfl⟩ := stored m b found
    have state := step.state
    rw [canonical, ← same, of_header] at state
    rw [Except.ok.inj state]
  · exact found

theorem newState_height (step : Advanced s route anchor update u a cs height) {l : ℕ}
    (before : latest s route anchor = some l) :
    ∃ l', latest (newState s route anchor u.header.height cs height) route anchor = some l' ∧
      l ≤ l' := by
  have bound : l < 2 ^ 64 := by
    unfold latest at before
    obtain ⟨b, -, value⟩ := Option.bind_eq_some_iff.1 before
    split_ifs at value with size
    rw [← Option.some.inj value]
    have less := ofBeBytes_lt b
    rwa [size] at less
  have header := step.fits.header.height
  have top := step.height
  rw [before] at top
  change height = max l u.header.height at top
  refine ⟨height, ?_, top ▸ le_max_left _ _⟩
  have size : height < 256 ^ 8 := by
    rw [top]
    exact max_lt (by omega) (by omega)
  unfold latest
  rw [newState_latest, Option.bind_some, if_pos (length_beBytes _ _), ofBeBytes_beBytes size]

end

theorem stored_of_reached {chain : Chain} {a : Anchor} (good : chain.Honest)
    (parts : anchorParts anchor = .ok a) (id : a.chainId = chain.id)
    (held : a.trustedHeight ≤ chain.tip)
    (trusted : a.trustedHeaderHash = (chain.header a.trustedHeight).hash)
    (reached : Reached chain route anchor s) : Stored chain s route anchor := by
  induction reached with
  | fresh nothing no_latest =>
    intro n b found
    rw [nothing] at found
    cases found
  | other before states height stored =>
    intro n b found
    exact stored n b (states n ▸ found)
  | @update s before update strings stored =>
    rcases applyUpdate_cases s route anchor update with ⟨e, ran⟩ | ⟨u, a', cs, height, step, ran⟩
    · rw [ran]
      exact stored
    · obtain rfl := Except.ok.inj (step.parts.symm.trans parts)
      rw [ran]
      obtain ⟨own, canonical⟩ := step.canonical good id held trusted strings stored
      exact stored.newState step own canonical

/-- The client keeps the chain's own states and forgets none, its height never falls, and an update
it refuses changes nothing. -/
theorem client_follows_chain {chain : Chain} {a : Anchor} (good : chain.Honest)
    (parts : anchorParts anchor = .ok a) (id : a.chainId = chain.id)
    (held : a.trustedHeight ≤ chain.tip)
    (trusted : a.trustedHeaderHash = (chain.header a.trustedHeight).hash)
    (reached : Reached chain route anchor s) :
    (∀ n b, s.get (consensusKey route anchor n) = some b → n ≤ chain.tip ∧
      ∃ cs : ConsensusState, ConsensusState.ofHeader (chain.header n) = .ok cs ∧ b = cs.encode ∧
        consensus s route anchor n = .ok (some cs)) ∧
    ∀ update, (∀ x ∈ updateStrings update, x ∈ chain.hashed) →
      (∀ n b, s.get (consensusKey route anchor n) = some b →
        (applyUpdate s route anchor update).2.get (consensusKey route anchor n) = some b) ∧
      (∀ l, latest s route anchor = some l →
        ∃ l', latest (applyUpdate s route anchor update).2 route anchor = some l' ∧ l ≤ l') ∧
      (∀ e, (applyUpdate s route anchor update).1 = .error e →
        (applyUpdate s route anchor update).2 = s) := by
  have stored := stored_of_reached good parts id held trusted reached
  refine ⟨fun n b found => ?_, fun update strings => ?_⟩
  · obtain ⟨own, cs, of_header, fits, rfl⟩ := stored n b found
    refine ⟨own, cs, of_header, rfl, ?_⟩
    rw [Tendermint.consensus, found]
    simp only [ConsensusState.decode_encode fits, Functor.map, Except.map]
  · rcases applyUpdate_cases s route anchor update with ⟨e, ran⟩ | ⟨u, a', cs, height, step, ran⟩
    · rw [ran]
      exact ⟨fun n b found => found, fun l before => ⟨l, before, le_rfl⟩, fun _ _ => rfl⟩
    · obtain rfl := Except.ok.inj (step.parts.symm.trans parts)
      have canonical := (step.canonical good id held trusted strings stored).2
      rw [ran]
      exact ⟨fun n b found => newState_keeps stored step canonical found,
        fun l before => newState_height step before, fun e refused => nomatch refused⟩

end

end Tendermint

namespace SmallChain
open Tendermint

def weight (b : Bytes) : ℕ := b.foldl (fun n x => n * 257 + x.toNat + 1) 7 % (2 ^ 255 - 19)

def digest (b : Bytes) : Bytes := beBytes 32 (weight b)

theorem weight_eq {x y : Bytes} (same : digest x = digest y) : weight x = weight y := by
  have small (b : Bytes) : weight b < 256 ^ 32 :=
    (Nat.mod_lt _ (by decide)).trans (by decide : 2 ^ 255 - 19 < 256 ^ 32)
  have read := congrArg ofBeBytes same
  rwa [digest, digest, ofBeBytes_beBytes (small x), ofBeBytes_beBytes (small y)] at read

@[reducible] def crypto : RouteCrypto where
  sha256 := digest
  length_sha256 _ := length_beBytes ..
  keccak256 := digest
  length_keccak256 _ := length_beBytes ..
  outputKey _ _ := .error "no deposit descriptor"
  length_outputKey := RouteCrypto.length_refused

attribute [local instance] crypto

def key : Bytes := beBytes 32 21

def validators : List Validator := [(key, 10)]

def header (n : ℕ) : Header where
  versionBlock := 11
  versionApp := 1
  chainId := "chain"
  height := n
  timeSeconds := 100 + n
  timeNanos := 5
  lastBlockHash := []
  lastPartsTotal := 0
  lastPartsHash := []
  lastCommitHash := []
  dataHash := []
  validatorsHash := Tendermint.validatorsHash validators
  nextValidatorsHash := Tendermint.validatorsHash validators
  consensusHash := []
  appHash := beBytes 8 (6 + n)
  lastResultsHash := []
  evidenceHash := []
  proposer := []

def sig (n : ℕ) : CommitSig := ⟨flagCommit, address key, 101 + n, 0, replicate 64 1⟩

def commit (n : ℕ) : Commit := ⟨n, 0, (header n).hash, 0, [], [sig n]⟩

def messages : List Bytes := (range 4).map fun n => (commit n).signBytes "chain" (sig n)

@[reducible] def signatures : Ed25519 where
  isPoint key := key.length = 32
  verifyStrict key message signature :=
    decide (key.length = 32 ∧ message ∈ messages ∧ signature = replicate 64 1)

attribute [local instance] signatures

def strings : List Bytes :=
  (range 4).flatMap (fun n => headerStrings (header n)) ++ setStrings validators

def chain : Chain where
  id := "chain"
  tip := 3
  header := header
  next _ := validators
  honest k := k = key
  signed _ := {m | m ∈ messages}
  hashed := {x | x ∈ strings}

def anchor : LightClientAnchor := .tendermint "chain" 1 (header 1).hash 1000

def route : BridgeRoute where
  adapter := .ibc
  family := .cosmos
  sourceChain := "chain"
  sourceChainId := 8
  localSelector := 7
  peer := beBytes 32 1
  ramp := 105 :: 98 :: 99 :: replicate 29 0
  localEndpoint := beBytes 32 3
  remoteToken := beBytes 32 4
  verifiers := ⟨0, [], 0⟩
  blessing := none
  lightClient := some anchor
  mintLimit := ⟨100, 100⟩
  outflow := ⟨100, 1⟩
  laneLimits := none
  ibc := none
  settlementLock := none
  assets := []
  nativeAsset := none

def start : RouteState where
  view :=
    { localChainId := 7
      nowMs := 110000
      epoch := 1
      route := fun _ _ => some route
      stopped := fun _ => none
      networkLimit := fun _ => none
      outflowLimits := none }
  kv _ := none

def bootstrap : Bytes := 0 :: (header 1).write

def next (trusted n : ℕ) : Bytes :=
  1 :: (beBytes 8 trusted ++ (header n).write ++ (commit n).write ++ writeValidators validators ++
    writeValidators validators)

def bootstrapped : RouteState := (applyUpdate start route anchor bootstrap).2

def skipped : RouteState := (applyUpdate bootstrapped route anchor (next 1 3)).2

theorem evaluated :
    (∀ x ∈ strings, strings.find? (fun y => decide (weight y = weight x)) = some x) ∧
      totalPower validators * 2 < honestPower (fun k => k = key) validators * 3 ∧
      Update.read.run' ⟨0, bootstrap⟩ = .ok (.bootstrap (header 1)) ∧
      (∀ n ∈ [2, 3], Update.read.run' ⟨0, next 1 n⟩ =
        .ok (.next 1 (header n) (commit n) validators validators)) ∧
      (skipped.get (consensusKey route anchor 3)).isSome = true ∧
      (applyUpdate skipped route anchor (next 1 2)).1 = .ok 3 := by
  decide +kernel

theorem chain_honest : chain.Honest where
  named _ _ := rfl
  majority _ _ := evaluated.2.1
  unforged key message signature _ verified := (of_decide_eq_true verified).2.1
  precommits key message _ signed _ := by
    obtain ⟨n, height, rfl⟩ := mem_map.1 signed
    have below := mem_range.1 height
    exact ⟨n, Nat.le_of_lt_succ below, commit n, sig n,
      ⟨(by omega : n < 2 ^ 64), (by decide : 0 < 2 ^ 32)⟩, rfl, rfl, rfl⟩
  collision_free x hx y hy same := by
    have x_first := evaluated.1 x hx
    rw [weight_eq same, evaluated.1 y hy] at x_first
    exact (Option.some.inj x_first).symm
  headers n held x mem := mem_append_left _
    (mem_flatMap.2 ⟨n, mem_range.2 (Nat.lt_succ_of_le held), mem⟩)
  sets _ _ _ mem := mem_append_right _ mem

theorem header_listed {n : ℕ} (small : n < 4) {x : Bytes} (mem : x ∈ headerStrings (header n)) :
    x ∈ strings :=
  mem_append_left _ (mem_flatMap.2 ⟨n, mem_range.2 small, mem⟩)

theorem bootstrap_listed : ∀ x ∈ updateStrings bootstrap, x ∈ strings := by
  rw [updateStrings, evaluated.2.2.1]
  exact fun x mem => header_listed (by decide) mem

theorem next_listed {n : ℕ} (listed : n ∈ [2, 3]) : ∀ x ∈ updateStrings (next 1 n), x ∈ strings := by
  rw [updateStrings, evaluated.2.2.2.1 n listed]
  intro x mem
  have small : n < 4 := by
    simp at listed
    omega
  rcases mem_append.1 mem with own | sets
  · exact header_listed small own
  · exact mem_append_right _ ((mem_append.1 sets).elim id id)

theorem skipped_reached : Reached chain route anchor skipped := by
  have fresh : Reached chain route anchor start := .fresh (fun _ => rfl) rfl
  rw [skipped, bootstrapped]
  exact .update (.update fresh bootstrap bootstrap_listed) (next 1 3) (next_listed (by decide))

/-- The client takes height 2 after height 3, and stays at 3 with the state it had. -/
theorem client_follows_chain_skip :
    (applyUpdate skipped route anchor (next 1 2)).1 = .ok 3 ∧
      ∃ cs : ConsensusState, ConsensusState.ofHeader (header 3) = .ok cs ∧
        (applyUpdate skipped route anchor (next 1 2)).2.get (consensusKey route anchor 3) =
          some cs.encode := by
  obtain ⟨states, later⟩ := client_follows_chain chain_honest
    (a := ⟨"chain", 1, (header 1).hash, 1000 * 1000000000⟩) rfl rfl (by decide) rfl skipped_reached
  obtain ⟨kept, -, -⟩ := later (next 1 2) (next_listed (by decide))
  obtain ⟨b, found⟩ : ∃ b, skipped.get (consensusKey route anchor 3) = some b :=
    Option.isSome_iff_exists.1 evaluated.2.2.2.2.1
  obtain ⟨-, cs, of_header, rfl, -⟩ := states 3 b found
  exact ⟨evaluated.2.2.2.2.2, cs, of_header, kept 3 cs.encode found⟩

end SmallChain
end Tenzro.Bridge
