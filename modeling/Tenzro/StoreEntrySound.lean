import Tenzro.StoreProofs

set_option autoImplicit false
set_option linter.dupNamespace false

/-!
# Entry proofs against a stored header

What the check of an entry proof says of the store a header commits to, for proofs of any bytes,
and the absence proofs it takes.
-/
namespace Tenzro.Bridge
open ByteCodec Outcome Protobuf HashTree List

namespace Tendermint
variable [RouteCrypto]

def StoreEntryProof.proofs : StoreEntryProof → List ExistenceProof
  | .present e => [e]
  | .absent _ left right => left.toList ++ right.toList

def EntryProof.hashed (p : EntryProof) : List Bytes :=
  p.entry.proofs.flatMap ExistenceProof.hashed ++ p.store.hashed

/-- The stored header of a height commits to a multistore that holds the route's store. -/
structure Committed (s : RouteState) (route : BridgeRoute) (anchor : LightClientAnchor)
    (height : ℕ) (cs : ConsensusState) (m : Multistore) (store : IavlStore) : Prop where
  anchored : route.lightClient = some anchor
  stored : consensus s route anchor height = .ok (some cs)
  appHash : cs.appHash = multistoreCode.root m
  held : ⟨storeName route, store.root⟩ ∈ m.leaves
  distinct : (m.leaves.map StoreRoot.name).Nodup

/-! ### Lookups -/

omit [RouteCrypto] in
theorem IavlStore.sorted (store : IavlStore) : (store.leaves.map IavlLeaf.key).Pairwise (· < ·) := by
  unfold IavlStore.leaves
  cases eq : store.tree with
  | none => exact List.Pairwise.nil
  | some t => exact store.ordered t eq

omit [RouteCrypto] in
theorem IavlStore.lookup_leaf {store : IavlStore} {a : IavlLeaf} (mem : a ∈ store.leaves) :
    store.lookup a.key = some a.value := by
  have nodup : (store.leaves.map IavlLeaf.key).Nodup :=
    store.sorted.imp Std.ne_of_lt
  obtain ⟨b, found⟩ := Option.isSome_iff_exists.1
    (find?_isSome.2 ⟨a, mem, decide_eq_true rfl⟩ :
      (store.leaves.find? fun b => b.key = a.key).isSome)
  have same : b = a := inj_on_of_nodup_map nodup (mem_of_find?_eq_some found) mem
    (of_decide_eq_true (find?_some found :))
  rw [IavlStore.lookup, found, same]
  rfl

omit [RouteCrypto] in
theorem IavlStore.lookup_eq_none {store : IavlStore} {key : Bytes} :
    store.lookup key = none ↔ key ∉ store.leaves.map IavlLeaf.key := by
  rw [IavlStore.lookup, Option.map_eq_none_iff, find?_eq_none]
  simp only [decide_eq_true_eq, mem_map, not_exists, not_and]

/-! ### Soundness -/

theorem root_ne_empty {p : ExistenceProof} {spec : Spec} (ran : p.root spec = .ok (sha256 []))
    (apart : Apart sha256 p.hashed [[]]) : False := by
  obtain ⟨-, -, reaches⟩ := root_ok.1 ran
  have first (x : Bytes) (mem : x ∈ climbed sha256 p.path.reverse p.leaf) (same : sha256 x = sha256 []) :
      x = [] := apart x (mem_cons_of_mem _ mem) [] (mem_singleton.2 rfl) same
  cases steps : p.path.reverse with
  | nil =>
    rw [steps] at reaches first
    have nothing := first p.leaf (mem_singleton.2 rfl) reaches
    have size := congrArg List.length nothing
    simp only [ExistenceProof.leaf, length_append, RouteCrypto.length_sha256,
      length_nil] at size
    omega
  | cons s path =>
    rw [steps] at reaches first
    have nothing := first _ mem_cons_self reaches
    obtain ⟨y, below⟩ := climb_eq_hash sha256 path p.leaf
    have size := congrArg List.length nothing
    simp only [below, length_append, RouteCrypto.length_sha256, length_nil] at size
    omega

theorem proof_of_store {store : IavlStore} {p : ExistenceProof}
    (ran : p.root .iavl = .ok store.root) (apart : Apart sha256 p.hashed store.hashed) :
    ∃ t a, store.tree = some t ∧ (a, p.path.reverse) ∈ iavlCode.paths t ∧ a.key = p.key ∧
      a.value = p.value := by
  cases tree : store.tree with
  | none =>
    rw [IavlStore.root, tree] at ran
    refine (root_ne_empty ran fun x hx y hy => apart x hx y ?_).elim
    rw [IavlStore.hashed, tree]
    exact mem_append_left _ hy
  | some t =>
    rw [IavlStore.root, tree] at ran
    have strings : store.hashed =
        t.subtrees.map iavlCode.written ++ t.leaves.map IavlLeaf.value := by
      rw [IavlStore.hashed, IavlStore.leaves, tree]
      rfl
    obtain ⟨a, mem, key, value⟩ := iavl_sound (store.fits t tree) ran (strings ▸ apart)
    exact ⟨t, a, rfl, mem, key, value⟩

theorem entry_sound {store : IavlStore} {entry : StoreEntryProof} {key : Bytes}
    {value : Option Bytes} (ran : entry.root key value = .ok store.root)
    (apart : ∀ p ∈ entry.proofs, Apart sha256 p.hashed store.hashed) : store.lookup key = value := by
  cases entry with
  | present e =>
    cases value with
    | none => cases ran
    | some v =>
      obtain ⟨_, same, reaches⟩ := bind_ok.1 ran
      obtain ⟨rfl, rfl⟩ := ensure_ok.1 same
      obtain ⟨t, a, tree, mem, key, value⟩ := proof_of_store reaches
        (apart e (mem_singleton.2 rfl))
      rw [← key, ← value]
      apply IavlStore.lookup_leaf
      rw [IavlStore.leaves, tree]
      exact iavlCode.mem_leaves mem
  | absent named left right =>
    cases value with
    | some v => cases ran
    | none =>
      obtain ⟨_, same, checks⟩ := bind_ok.1 ran
      obtain rfl := ensure_ok.1 same
      obtain ⟨roots, each, checks⟩ := bind_ok.1 checks
      cases roots with
      | nil => cases checks
      | cons root others =>
        obtain ⟨_, equal, checks⟩ := bind_ok.1 checks
        obtain ⟨_, encloses, value⟩ := bind_ok.1 checks
        obtain rfl : root = store.root := pure_ok.1 value
        have proven (p : ExistenceProof) (mem : p ∈ left.toList ++ right.toList) :
            ∃ t a, store.tree = some t ∧ (a, p.path.reverse) ∈ iavlCode.paths t ∧
              a.key = p.key ∧ a.value = p.value := by
          obtain ⟨r, listed, ran⟩ := mapM_mem each mem
          rw [ensure_ok.1 equal r listed] at ran
          exact proof_of_store ran (apart p mem)
        rw [IavlStore.lookup_eq_none]
        cases tree : store.tree with
        | none =>
          rw [IavlStore.leaves, tree]
          exact not_mem_nil
        | some t =>
          rw [IavlStore.leaves, tree]
          refine absent_of_enclose (store.ordered t tree) (fun p mem => ?_) (ensure_ok.1 encloses)
          obtain ⟨u, a, tree', path, key, -⟩ := proven p mem
          obtain rfl := Option.some.inj (tree'.symm.trans tree)
          exact ⟨a, path, key⟩

/-! ### Proofs within the limits -/

omit [RouteCrypto] in
theorem length_writeStart {h s v : ℕ} (height : h < 2 ^ 63) (size : s < 2 ^ 63)
    (version : v < 2 ^ 63) : (writeStart h s v).length ≤ 30 := by
  have short {n : ℕ} (small : n < 2 ^ 63) : (uvarint (2 * n)).length ≤ 9 + 1 :=
    length_uvarint_le (by omega)
  have first := short height
  have second := short size
  have third := short version
  simp only [writeStart, length_append]
  omega

omit [RouteCrypto] in
theorem length_start {t : IavlTree} (fits : IavlTree.Fits t) : (IavlTree.start t).length ≤ 30 :=
  length_writeStart ((IavlTree.height_lt_size t).trans fits.size) fits.size fits.version.2

theorem iavl_step_short {t : IavlTree} (fits : IavlTree.Fits t) {a : IavlLeaf} {path : List Step}
    (mem : (a, path) ∈ iavlCode.paths t) (s : Step) (step : s ∈ path) :
    s.1.length ≤ 128 ∧ s.2.length ≤ 128 := by
  induction t generalizing path with
  | leaf b =>
    obtain ⟨-, rfl⟩ := Prod.mk.inj (mem_singleton.1 mem)
    cases step
  | node v l r ihl ihr =>
    have start : (iavlCode.before v l r).length ≤ 31 := by
      have start := length_start fits
      change (IavlTree.start (.node v l r) ++ [32]).length ≤ 31
      rw [length_append]
      exact Nat.add_le_add_right start 1
    have digest := length_root iavlCode rfl
    have between : iavlCode.between.length = 1 := rfl
    rcases mem_append.1 mem with left | right
    · obtain ⟨rest, rfl, inside⟩ := Code.mem_below.1 left
      rcases mem_cons.1 step with rfl | step
      · simp only [Code.leftStep, length_append, digest, between]
        omega
      · exact ihl fits.2.1 inside step
    · obtain ⟨rest, rfl, inside⟩ := Code.mem_below.1 right
      rcases mem_cons.1 step with rfl | step
      · simp only [Code.rightStep, length_append, length_nil, digest, between]
        omega
      · exact ihr fits.2.2 inside step

/-- A proof whose key, value and path are within the limits of the reader. -/
structure Listed (e : ExistenceProof) : Prop where
  key : e.key.length ≤ 1024
  value : e.value.length ≤ 1024
  path : e.path.length ≤ maxPath

instance (e : ExistenceProof) : Decidable (Listed e) :=
  decidable_of_iff (e.key.length ≤ 1024 ∧ e.value.length ≤ 1024 ∧ e.path.length ≤ maxPath)
    ⟨fun ⟨key, value, path⟩ => ⟨key, value, path⟩, fun h => ⟨h.key, h.value, h.path⟩⟩

theorem iavlProof_fits {t : IavlTree} (fits : IavlTree.Fits t) {x : IavlLeaf × List Step}
    (mem : x ∈ iavlCode.paths t) (listed : Listed (iavlProof x)) : (iavlProof x).Fits where
  key := listed.key
  value := listed.value
  leafPrefix := by
    have leaf := fits.subtree (Tree.leaf_mem_subtrees (iavlCode.mem_leaves mem))
    exact (length_start leaf).trans (by omega)
  path := listed.path
  steps s step := iavl_step_short fits mem s (mem_reverse.1 step)

theorem multistoreProof_fits {m : Multistore} {x : StoreRoot × List Step}
    (mem : x ∈ multistoreCode.paths m) (listed : Listed (multistoreProof x)) :
    (multistoreProof x).Fits where
  key := listed.key
  value := listed.value
  leafPrefix := Nat.le_add_left 1 63
  path := listed.path
  steps s step := by
    obtain ⟨-, sizes⟩ := ensure_ok.1 (multistore_step mem 1 s (mem_reverse.1 step))
    omega

theorem leftOf_served {t : IavlTree} {key : Bytes} {e : ExistenceProof}
    (mem : e ∈ IavlTree.leftOf t key) : ∃ x ∈ iavlCode.paths t, iavlProof x = e := by
  rw [leftOf_eq] at mem
  obtain ⟨x, last, rfl⟩ := Option.map_eq_some_iff.1 mem
  exact ⟨x, mem_of_mem_filter (mem_of_getLast? last), rfl⟩

theorem rightOf_served {t : IavlTree} {key : Bytes} {e : ExistenceProof}
    (mem : e ∈ IavlTree.rightOf t key) : ∃ x ∈ iavlCode.paths t, iavlProof x = e := by
  rw [rightOf_eq] at mem
  obtain ⟨x, first, rfl⟩ := Option.map_eq_some_iff.1 mem
  exact ⟨x, mem_of_mem_filter (mem_of_head? first), rfl⟩

theorem absent_root {t : IavlTree} {key : Bytes} (fits : IavlTree.Fits t)
    (sorted : (t.leaves.map IavlLeaf.key).Pairwise (· < ·))
    (absent : key ∉ t.leaves.map IavlLeaf.key) :
    (StoreEntryProof.absent key (IavlTree.leftOf t key) (IavlTree.rightOf t key)).root key none =
      .ok (iavlCode.root t) := by
  have encloses := enclose_neighbours sorted absent
  set neighbours := (IavlTree.leftOf t key).toList ++ (IavlTree.rightOf t key).toList
    with neighbours_eq
  have each (e : ExistenceProof) (mem : e ∈ neighbours) : e.root .iavl = .ok (iavlCode.root t) := by
    have served : ∃ x ∈ iavlCode.paths t, iavlProof x = e := by
      rcases mem_append.1 mem with left | right
      · exact leftOf_served (Option.mem_toList.1 left)
      · exact rightOf_served (Option.mem_toList.1 right)
    obtain ⟨x, inside, rfl⟩ := served
    exact iavlProof_root fits inside
  have roots : neighbours.mapM (fun n => n.root .iavl) =
      .ok (neighbours.map fun _ => iavlCode.root t) := by
    rw [mapM_ok, forall₂_map_right_iff, forall₂_same]
    exact each
  have some_neighbour : neighbours ≠ [] := by
    intro nothing
    obtain ⟨left, right⟩ := append_eq_nil_iff.1 nothing
    rw [Option.toList_eq_nil_iff.1 left, Option.toList_eq_nil_iff.1 right] at encloses
    cases encloses
  obtain ⟨e, rest, eq⟩ := exists_cons_of_ne_nil some_neighbour
  unfold StoreEntryProof.root
  refine bind_ok.2 ⟨(), ensure_ok.2 rfl, bind_ok.2 ⟨_, roots, ?_⟩⟩
  rw [eq, map_cons]
  refine bind_ok.2 ⟨(), ensure_ok.2 fun r mem => ?_, bind_ok.2 ⟨(), ensure_ok.2 encloses, rfl⟩⟩
  rw [← map_cons (f := fun _ => iavlCode.root t) (a := e)] at mem
  obtain ⟨_, -, rfl⟩ := mem_map.1 mem
  rfl

section
variable {s : RouteState} {route : BridgeRoute} {anchor : LightClientAnchor} {height : ℕ}
  {cs : ConsensusState} {m : Multistore} {store : IavlStore} {key : Bytes}

theorem verifyStoreEntry_ok {a : Anchor} {value : Option Bytes} {proof : Bytes} {time : ℤ}
    (anchored : route.lightClient = some anchor) (parts : anchorParts anchor = .ok a) :
    verifyStoreEntry s route key value proof = .ok time ↔
      (∃ n, checkNotExpired s route anchor a = .ok n) ∧
        ∃ p root cs, EntryProof.decode proof = .ok p ∧ p.entry.root key value = .ok root ∧
          consensus s route anchor p.height = .ok (some cs) ∧
          checkStoreRoot route cs root p.store = .ok () ∧ cs.timeNs = time := by
  unfold verifyStoreEntry
  rw [anchored]
  simp only [parts, bind_ok, pure_ok, consensusAt_ok, Except.ok.injEq, exists_eq_left']
  constructor
  · rintro ⟨n, live, p, decoded, root, proven, cs, stored, _, rooted, time⟩
    exact ⟨⟨n, live⟩, p, root, cs, decoded, proven, stored, rooted, time⟩
  · rintro ⟨⟨n, live⟩, p, root, cs, decoded, proven, stored, rooted, time⟩
    exact ⟨n, live, p, decoded, root, proven, cs, stored, (), rooted, time⟩

theorem verifyStoreEntry_sound (committed : Committed s route anchor height cs m store)
    {value : Option Bytes} {proof : Bytes} {p : EntryProof} {time : ℤ}
    (decoded : EntryProof.decode proof = .ok p) (at_height : p.height = height)
    (apart : Apart sha256 p.hashed (m.hashed ++ store.hashed))
    (accepted : verifyStoreEntry s route key value proof = .ok time) :
    store.lookup key = value := by
  obtain ⟨a, parts⟩ : ∃ a, anchorParts anchor = .ok a := by
    unfold verifyStoreEntry at accepted
    rw [committed.anchored] at accepted
    obtain ⟨a, parts, -⟩ := bind_ok.1 accepted
    exact ⟨a, parts⟩
  obtain ⟨-, p', root, cs', decoded', proven, stored, rooted, -⟩ :=
    (verifyStoreEntry_ok committed.anchored parts).1 accepted
  obtain rfl : p = p' := Except.ok.inj (decoded.symm.trans decoded')
  rw [at_height, committed.stored] at stored
  obtain rfl : cs = cs' := Option.some.inj (Except.ok.inj stored)
  obtain ⟨_, named, reaches⟩ := bind_ok.1 rooted
  obtain ⟨name, value_root⟩ := ensure_ok.1 named
  obtain ⟨r, ran, app⟩ := bind_ok.1 reaches
  rw [ensure_ok.1 app, committed.appHash] at ran
  have leaf := multistore_sound ran fun x hx y hy => apart x
    (mem_append_right _ hx) y (mem_append_left _ hy)
  have same : (⟨p.store.key, p.store.value⟩ : StoreRoot) = ⟨storeName route, store.root⟩ :=
    inj_on_of_nodup_map committed.distinct leaf committed.held name
  have root_eq : root = store.root := value_root.symm.trans (StoreRoot.mk.inj same).2
  rw [root_eq] at proven
  refine entry_sound proven fun e mem x hx y hy => apart x ?_ y (mem_append_right _ hy)
  exact mem_append_left _ (mem_flatMap.2 ⟨e, mem, hx⟩)

theorem verifyStoreEntry_absent (committed : Committed s route anchor height cs m store)
    {t : IavlTree} {a : Anchor} {n : ℕ} {path : List Step} (tree : store.tree = some t)
    (parts : anchorParts anchor = .ok a) (live : checkNotExpired s route anchor a = .ok n)
    (bounded : height < 2 ^ 64) (absent : store.lookup key = none) (short : key.length ≤ 1024)
    (left : ∀ e ∈ IavlTree.leftOf t key, Listed e) (right : ∀ e ∈ IavlTree.rightOf t key, Listed e)
    (served : (⟨storeName route, store.root⟩, path) ∈ multistoreCode.paths m)
    (ramp : route.ramp.length ≤ 1024) (depth : path.length ≤ maxPath) :
    verifyStoreEntry s route key none (EntryProof.encode ⟨height,
      .absent key (IavlTree.leftOf t key) (IavlTree.rightOf t key),
      multistoreProof (⟨storeName route, store.root⟩, path)⟩) = .ok cs.timeNs := by
  have fits := store.fits t tree
  have missing : key ∉ t.leaves.map IavlLeaf.key := by
    have missing := IavlStore.lookup_eq_none.1 absent
    rwa [IavlStore.leaves, tree] at missing
  have root : store.root = iavlCode.root t := by rw [IavlStore.root, tree]; rfl
  have digest : store.root.length = 32 := root ▸ length_root _ rfl t
  have name : (storeName route).length ≤ route.ramp.length :=
    (takeWhile_sublist _).length_le
  have store_fits := multistoreProof_fits served
    ⟨name.trans ramp, by rw [show (multistoreProof _).value = store.root from rfl]; omega,
      by rwa [show (multistoreProof _).path = path.reverse from rfl, length_reverse]⟩
  have decoded := EntryProof.decode_absent bounded short
    (fun e mem => by
      obtain ⟨x, inside, rfl⟩ := leftOf_served mem
      exact iavlProof_fits fits inside (left _ mem))
    (fun e mem => by
      obtain ⟨x, inside, rfl⟩ := rightOf_served mem
      exact iavlProof_fits fits inside (right _ mem)) store_fits
  refine (verifyStoreEntry_ok committed.anchored parts).2 ⟨⟨n, live⟩, _, _, cs, decoded,
    absent_root fits (store.ordered t tree) missing, committed.stored, ?_, rfl⟩
  refine bind_ok.2 ⟨(), ensure_ok.2 ⟨rfl, root⟩, bind_ok.2 ⟨_, multistoreProof_root served, ?_⟩⟩
  exact ensure_ok.2 committed.appHash.symm

/-- Against a stored header, every accepted entry proof says what the route's store holds at its
key, whatever its bytes; and the neighbours of an absent key prove it absent, within the limits. -/
theorem storeEntry_decides (committed : Committed s route anchor height cs m store) :
    (∀ (key : Bytes) (value : Option Bytes) (proof : Bytes) (p : EntryProof) (time : ℤ),
      EntryProof.decode proof = .ok p → p.height = height →
      Apart sha256 p.hashed (m.hashed ++ store.hashed) →
      verifyStoreEntry s route key value proof = .ok time → store.lookup key = value) ∧
    (∀ (key : Bytes) (t : IavlTree) (a : Anchor) (n : ℕ) (path : List Step),
      store.tree = some t → anchorParts anchor = .ok a → checkNotExpired s route anchor a = .ok n →
      height < 2 ^ 64 → store.lookup key = none → key.length ≤ 1024 →
      (∀ e ∈ IavlTree.leftOf t key, Listed e) → (∀ e ∈ IavlTree.rightOf t key, Listed e) →
      (⟨storeName route, store.root⟩, path) ∈ multistoreCode.paths m →
      route.ramp.length ≤ 1024 → path.length ≤ maxPath →
      verifyStoreEntry s route key none (EntryProof.encode ⟨height,
        .absent key (IavlTree.leftOf t key) (IavlTree.rightOf t key),
        multistoreProof (⟨storeName route, store.root⟩, path)⟩) = .ok cs.timeNs) :=
  ⟨fun _ _ _ _ _ decoded at_height apart accepted =>
      verifyStoreEntry_sound committed decoded at_height apart accepted,
    fun _ _ _ _ _ tree parts live bounded absent short left right served ramp depth =>
      verifyStoreEntry_absent committed tree parts live bounded absent short left right served ramp
        depth⟩

end

end Tendermint

/-! ### A store of two entries -/

namespace SmallStore
open Tendermint

def digest (b : Bytes) : Bytes :=
  beBytes 32 (b.foldl (fun n x => (n * 257 + x.toNat + 1) % (2 ^ 255 - 19)) 7)

@[reducible] def crypto : RouteCrypto where
  sha256 := digest
  length_sha256 _ := length_beBytes ..
  keccak256 := digest
  length_keccak256 _ := length_beBytes ..
  outputKey _ _ := .error "no deposit descriptor"
  length_outputKey := RouteCrypto.length_refused

attribute [local instance] crypto

def anchor : LightClientAnchor := .tendermint "chain" 5 (beBytes 32 9) 1000

def route : BridgeRoute where
  adapter := .ibc
  family := .cosmos
  sourceChain := "chain"
  sourceChainId := 8
  localSelector := 7
  peer := beBytes 32 1
  ramp := 105 :: 98 :: 99 :: replicate 29 0
  localEndpoint := beBytes 32 3
  remoteToken := beBytes 32 4
  verifiers := ⟨0, [], 0⟩
  blessing := none
  lightClient := some anchor
  mintLimit := ⟨100, 100⟩
  outflow := ⟨100, 1⟩
  laneLimits := none
  ibc := none
  settlementLock := none
  assets := []
  nativeAsset := none

/-- Two entries around the key `[2]`, the greater one with the given value. -/
def tree (value : Bytes) : IavlTree := .node 4 (.leaf ⟨[1], [10], 3⟩) (.leaf ⟨[3], value, 4⟩)

def store (value : Bytes) : IavlStore where
  tree := some (tree value)
  ordered := by
    rintro t ⟨⟩
    exact (by decide : ([[1], [3]] : List Bytes).Pairwise (· < ·))
  fits := by
    rintro t ⟨⟩
    exact ⟨⟨by decide, by decide, (by decide : 1 + 1 < 2 ^ 63)⟩, ⟨by decide, by decide⟩,
      (by decide : 1 ≤ 4), (by decide : 4 < 2 ^ 63)⟩

def multistore (value : Bytes) : Multistore :=
  .node () (.leaf ⟨storeName route, (store value).root⟩) (.leaf ⟨[119], beBytes 32 6⟩)

def header (value : Bytes) : ConsensusState where
  timeSeconds := 1
  timeNanos := 0
  appHash := multistoreCode.root (multistore value)
  nextValidatorsHash := beBytes 32 8

/-- The client holds the header of height 5. -/
def state (value : Bytes) : RouteState where
  view :=
    { localChainId := 7
      nowMs := 2000
      epoch := 1
      route := fun _ _ => some route
      stopped := fun _ => none
      networkLimit := fun _ => none
      outflowLimits := none }
  kv k :=
    if k = (latestKey route anchor).text then some (beBytes 8 5)
    else if k = (consensusKey route anchor 5).text then some (header value).encode
    else none

def proof (value : Bytes) : EntryProof where
  height := 5
  entry := .absent [2] (IavlTree.leftOf (tree value) [2]) (IavlTree.rightOf (tree value) [2])
  store := multistoreProof (⟨storeName route, (store value).root⟩,
    [multistoreCode.leftStep () (.leaf ⟨storeName route, (store value).root⟩)
      (.leaf ⟨[119], beBytes 32 6⟩)])

theorem committed {value : Bytes}
    (stored : consensus (state value) route anchor 5 = .ok (some (header value))) :
    Committed (state value) route anchor 5 (header value) (multistore value) (store value) where
  anchored := rfl
  stored := stored
  appHash := rfl
  held := mem_cons_self
  distinct := (by decide : [storeName route, [119]].Nodup)

theorem storeEntry_decides_gap :
    Tendermint.verifyStoreEntry (state [30]) route [2] none (proof [30]).encode = .ok 1000000000 ∧
      (store [30]).lookup [2] = none := by
  obtain ⟨sound, complete⟩ := storeEntry_decides
    (committed (show consensus (state [30]) route anchor 5 = _ by decide +kernel))
  have accepted : Tendermint.verifyStoreEntry (state [30]) route [2] none (proof [30]).encode =
      .ok (header [30]).timeNs :=
    complete [2] (tree [30]) ⟨"chain", 5, beBytes 32 9, 1000 * 1000000000⟩ 5 _ rfl rfl
      (by decide) (by decide) (by decide) (by decide) (by decide)
      (by decide) (mem_append_left _ (mem_singleton.2 rfl)) (by decide) (by decide)
  exact ⟨accepted, sound [2] none _ (proof [30]) _ (by decide +kernel) rfl (by decide +kernel) accepted⟩

/-- A value longer than the reader of a proof takes. -/
def long : Bytes := replicate 1025 7

/-- An absence proof with a long neighbour is refused, though the key is absent and the paths are
short. -/
theorem long_neighbour_refused :
    Committed (state long) route anchor 5 (header long) (multistore long) (store long) ∧
      (store long).lookup [2] = none ∧
      ((proof long).entry.proofs.map fun e => e.path.length) = [1, 1] ∧
      ∀ time, Tendermint.verifyStoreEntry (state long) route [2] none (proof long).encode ≠
        .ok time := by
  have refused : Tendermint.verifyStoreEntry (state long) route [2] none (proof long).encode =
      .error "malformed bridge payload: field of 1025 bytes exceeds 1024" := by decide +kernel
  refine ⟨committed (by decide +kernel), by decide +kernel, by decide +kernel, fun time accepted => ?_⟩
  rw [refused] at accepted
  cases accepted

end SmallStore
end Tenzro.Bridge
