import Tenzro.StateTrieCanon

set_option autoImplicit false
set_option linter.dupNamespace false

/-!
# What a batch does to the records of a tree

Nodes are stored under their version, depth and path. A batch that turns one
tree's live records into another's writes those of its own version, deletes
those of it that are gone, and logs the older ones that are gone.
-/
namespace Tenzro.StateTrie

inductive StorageError where
  | database (message : String)
  | deserialization (message : String)
  | invalidSnapshot (message : String)
  /-- The panic of reading a bit past a stem's length. -/
  | outOfBounds
  | unreachable (message : String)
deriving DecidableEq, Repr

def committedCfs : List String :=
  ["state", "accounts", "identities", "delegations", "credentials", "channels", "agents", "models",
    "providers", "tokens", "settlements", "model_services", "validator_modules", "da_committee",
    "challenges"]

def nsEpoch : String := "epoch"

def nsValidatorRegistry : String := "validator_registry"

def isCommittedCf (cf : String) : Bool := committedCfs.contains cf

def isCommittedNamespace (ns : String) : Bool :=
  isCommittedCf ns || ns == nsEpoch || ns == nsValidatorRegistry

inductive Node where
  | internal (left right : Option NodeRef)
  | stem (stem : ℕ) (slots : SortedMap ℕ (Digest × ℕ))

inductive Record where
  | node (node : Node)
  | entry (entry : Entry)
  | root (root : Option NodeRef)
  | stale
  | latest (version : ℕ)
  | schemes (schemes : List (ℕ × HashScheme))

def pathKey (version depth path : ℕ) : List ℕ := [78, version, depth, path]

def valueKey (treeKey version : ℕ) : List ℕ := [86, treeKey, version]

def rootKey (version : ℕ) : List ℕ := [82, version]

def staleKey (version : ℕ) (target : List ℕ) : List ℕ := 83 :: version :: target

def latestKey : List ℕ := [76]

def schemesKey : List ℕ := [88]

abbrev Store := SortedMap (List ℕ) Record

inductive WriteOp where
  | put (key : List ℕ) (record : Record)
  | delete (key : List ℕ)

def WriteOp.apply (store : Store) : WriteOp → Store
  | .put key record => store.insert key record
  | .delete key => store.erase key

def writeBatch (store : Store) (ops : List WriteOp) : Store := ops.foldl WriteOp.apply store

/-- The records whose key starts with a tag, in key order. -/
def scanPrefix (store : Store) (tag : ℕ) : List (List ℕ × Record) :=
  store.entries.filter (fun e => e.1.head? = some tag)

/-- The last write to each entry: a value to put, or none to delete it. -/
abbrev Writes := SortedMap (Lex (String × List ℕ)) (Option (List ℕ))

/-- Pending writes of one update, visible to the update's own reads. -/
structure Batch where
  store : Store
  version : ℕ
  scheme : HashScheme
  overlay : SortedMap (List ℕ) (Option Record)

namespace Batch

def get (batch : Batch) (key : List ℕ) : Option Record :=
  match batch.overlay.get? key with
  | some record => record
  | none => batch.store.get? key

def put (batch : Batch) (key : List ℕ) (record : Record) : Batch :=
  { batch with overlay := batch.overlay.insert key (some record) }

/-- A record of this same version is deleted, an older one is logged stale. -/
def retire (batch : Batch) (key : List ℕ) (writtenAt : ℕ) : Batch :=
  if writtenAt = batch.version then
    { batch with overlay := batch.overlay.insert key none }
  else
    { batch with overlay := batch.overlay.insert (staleKey batch.version key) (some .stale) }

def intoOps (batch : Batch) : List WriteOp :=
  batch.overlay.entries.map (fun e =>
    match e.2 with
    | some record => .put e.1 record
    | none => .delete e.1)

end Batch

def nodeMissing (version depth : ℕ) : StorageError :=
  .database s!"state trie node missing at version {version} depth {depth}"

def decodeNode (r : NodeRef) (depth : ℕ) : Option Record → Except StorageError Node
  | some (.node node) => .ok node
  | some _ => .error (.deserialization "node")
  | none => .error (nodeMissing r.version depth)

def Batch.load (batch : Batch) (r : NodeRef) (depth path : ℕ) : Except StorageError Node :=
  decodeNode r depth (batch.get (pathKey r.version depth path))

variable [TrieHash]

def Node.hash (scheme : HashScheme) : Node → Digest
  | .internal left right =>
    internalHash scheme ((left.map NodeRef.hash).getD emptyHash)
      ((right.map NodeRef.hash).getD emptyHash)
  | .stem s slots => stemHash scheme s (slotsRoot scheme (slots.map Prod.fst))

def Node.isStem : Node → Bool
  | .internal .. => false
  | .stem .. => true

def Batch.writeNode (batch : Batch) (node : Node) (depth path : ℕ) : NodeRef × Batch :=
  (⟨batch.version, node.hash batch.scheme, node.isStem⟩,
    batch.put (pathKey batch.version depth path) (.node node))

def retireSlot (batch : Batch) (tk : ℕ) : Option (Digest × ℕ) → Batch
  | some (_, oldVersion) => batch.retire (valueKey tk oldVersion) oldVersion
  | none => batch

def applySlot (stem : ℕ) (acc : Batch × SortedMap ℕ (Digest × ℕ)) (change : ℕ × Option Entry) :
    Batch × SortedMap ℕ (Digest × ℕ) :=
  let (slot, entry) := change
  let tk := joinTreeKey stem slot
  let batch := retireSlot acc.1 tk (acc.2.get? slot)
  let slots := acc.2.erase slot
  match entry with
  | some entry =>
    (batch.put (valueKey tk batch.version) (.entry entry),
      slots.insert slot (leafHash batch.scheme entry.value, batch.version))
  | none => (batch, slots)

def applySlots (batch : Batch) (stem : ℕ) (slots : SortedMap ℕ (Digest × ℕ)) (update : StemUpdate) :
    Batch × SortedMap ℕ (Digest × ℕ) :=
  update.entries.foldl (applySlot stem) (batch, slots)

def liftStem (batch : Batch) (r : NodeRef) (depth path fromPath : ℕ) :
    Except StorageError (NodeRef × Batch) := do
  let node ← batch.load r (depth + 1) fromPath
  let batch := batch.retire (pathKey r.version (depth + 1) fromPath) r.version
  return batch.writeNode node depth path

def split (a b : ℕ × SortedMap ℕ (Digest × ℕ)) :
    ℕ → Batch → ℕ → ℕ → Except StorageError (NodeRef × Batch)
  | 0, _, _, _ => .error (.database "state trie split past the stem length")
  | n + 1, batch, depth, path =>
    let bitA := stemBit a.1 depth
    let bitB := stemBit b.1 depth
    if bitA = bitB then do
      let (child, batch) ← split a b n batch (depth + 1) (2 * path + bitA)
      let node := if bitA = 0 then Node.internal (some child) none else .internal none (some child)
      return batch.writeNode node depth path
    else do
      let (ra, batch) := batch.writeNode (.stem a.1 a.2) (depth + 1) (2 * path + bitA)
      let (rb, batch) := batch.writeNode (.stem b.1 b.2) (depth + 1) (2 * path + bitB)
      let node := if bitA = 0 then Node.internal (some ra) (some rb) else .internal (some rb) (some ra)
      return batch.writeNode node depth path

def rejoin (batch : Batch) (bit depth path : ℕ) (newChild other : Option NodeRef) :
    Except StorageError (Option NodeRef × Batch) := do
  match newChild, other with
  | none, none => return (none, batch)
  | some only, none =>
    if only.isStem then
      let (r, batch) ← liftStem batch only depth path (2 * path + bit)
      return (some r, batch)
    else
      let node := if bit = 0 then Node.internal newChild other else .internal other newChild
      let (r, batch) := batch.writeNode node depth path
      return (some r, batch)
  | none, some only =>
    if only.isStem then
      let (r, batch) ← liftStem batch only depth path (2 * path + (1 - bit))
      return (some r, batch)
    else
      let node := if bit = 0 then Node.internal newChild other else .internal other newChild
      let (r, batch) := batch.writeNode node depth path
      return (some r, batch)
  | some _, some _ =>
    let node := if bit = 0 then Node.internal newChild other else .internal other newChild
    let (r, batch) := batch.writeNode node depth path
    return (some r, batch)

/-- Writes a stem's slots, and the node that holds them unless it holds none. -/
def writeStem (batch : Batch) (stem : ℕ) (slots : SortedMap ℕ (Digest × ℕ)) (update : StemUpdate)
    (depth path : ℕ) : Option NodeRef × Batch :=
  let (batch, slots) := applySlots batch stem slots update
  if slots.isEmpty then (none, batch)
  else
    let (r, batch) := batch.writeNode (.stem stem slots) depth path
    (some r, batch)

def putOnStem (stem : ℕ) (update : StemUpdate) (n : ℕ) (batch : Batch) (r : NodeRef)
    (depth path : ℕ) (existing : ℕ) (slots : SortedMap ℕ (Digest × ℕ)) :
    Except StorageError (Option NodeRef × Batch) := do
  if existing = stem then
    let batch := batch.retire (pathKey r.version depth path) r.version
    return writeStem batch stem slots update depth path
  else if update.values.all Option.isNone then
    return (some r, batch)
  else
    let batch := batch.retire (pathKey r.version depth path) r.version
    let (batch, newSlots) := applySlots batch stem .empty update
    let (r, batch) ← split (existing, slots) (stem, newSlots) n batch depth path
    return (some r, batch)

def putStem (stem : ℕ) (update : StemUpdate) :
    ℕ → Batch → Option NodeRef → ℕ → ℕ → Except StorageError (Option NodeRef × Batch)
  | _, batch, none, depth, path => .ok (writeStem batch stem .empty update depth path)
  | 0, batch, some r, depth, path => do
    match ← batch.load r depth path with
    | .stem existing slots => putOnStem stem update 0 batch r depth path existing slots
    | .internal .. => .error .outOfBounds
  | n + 1, batch, some r, depth, path => do
    match ← batch.load r depth path with
    | .stem existing slots => putOnStem stem update (n + 1) batch r depth path existing slots
    | .internal left right =>
      let batch := batch.retire (pathKey r.version depth path) r.version
      let bit := stemBit stem depth
      let target := if bit = 0 then left else right
      let other := if bit = 0 then right else left
      let (newChild, batch) ← putStem stem update n batch target (depth + 1) (2 * path + bit)
      rejoin batch bit depth path newChild other

section Queries
omit [TrieHash]

def latestVersion (store : Store) : Except StorageError (Option ℕ) :=
  match store.get? latestKey with
  | some (.latest v) => .ok (some v)
  | some _ => .error (.deserialization "state trie latest version")
  | none => .ok none

def rootRef (store : Store) (version : ℕ) : Except StorageError (Option (Option NodeRef)) :=
  match store.get? (rootKey version) with
  | some (.root r) => .ok (some r)
  | some _ => .error (.deserialization "root")
  | none => .ok none

def rootAt (store : Store) (version : ℕ) : Except StorageError (Option Digest) := do
  let r ← rootRef store version
  return r.map (fun r => (r.map NodeRef.hash).getD emptyHash)

def schemes (store : Store) : Except StorageError (List (ℕ × HashScheme)) :=
  match store.get? schemesKey with
  | some (.schemes l) => .ok l
  | some _ => .error (.deserialization "schemes")
  | none => .ok []

def schemeAt (store : Store) (version : ℕ) : Except StorageError HashScheme := do
  return schemeFrom version (← schemes store)

def readNode (store : Store) (r : NodeRef) (depth path : ℕ) : Except StorageError Node :=
  decodeNode r depth (store.get? (pathKey r.version depth path))

def readValue (store : Store) (treeKey version : ℕ) : Except StorageError Entry :=
  match store.get? (valueKey treeKey version) with
  | some (.entry e) => .ok e
  | some _ => .error (.deserialization "entry")
  | none => .error (.database "state trie value missing")

def requireRoot (store : Store) (version : ℕ) : Except StorageError (Option NodeRef) := do
  match ← rootRef store version with
  | some root => return root
  | none => .error (.database s!"no state root at version {version}")

def slotEntries (store : Store) (stem : ℕ) :
    List (ℕ × Digest × ℕ) → Except StorageError (List Entry)
  | [] => .ok []
  | (slot, _, writtenAt) :: rest => do
    let e ← readValue store (joinTreeKey stem slot) writtenAt
    let more ← slotEntries store stem rest
    return e :: more

def stemEntries (store : Store) (depth pre stem : ℕ) (slots : SortedMap ℕ (Digest × ℕ)) :
    Except StorageError (List Entry) :=
  if sharesPrefix stem pre depth then slotEntries store stem slots.entries else .ok []

def walk (store : Store) (depth pre : ℕ) :
    ℕ → Option NodeRef → ℕ → ℕ → Except StorageError (List Entry)
  | _, none, _, _ => .ok []
  | 0, some r, d, path => do
    match ← readNode store r d path with
    | .stem stem slots => stemEntries store depth pre stem slots
    | .internal .. => .error .outOfBounds
  | n + 1, some r, d, path => do
    match ← readNode store r d path with
    | .stem stem slots => stemEntries store depth pre stem slots
    | .internal left right =>
      if d < depth then
        let bit := stemBit pre d
        walk store depth pre n (if bit = 0 then left else right) (d + 1) (2 * path + bit)
      else do
        let l ← walk store depth pre n left (d + 1) (2 * path)
        let r ← walk store depth pre n right (d + 1) (2 * path + 1)
        return l ++ r

def forEachEntry (store : Store) (version depth pre : ℕ) : Except StorageError (List Entry) := do
  walk store depth pre stemBits (← requireRoot store version) 0 0

end Queries

def groupByStem : List (Lex (String × List ℕ) × Option (List ℕ)) → SortedMap ℕ StemUpdate →
    Except StorageError (SortedMap ℕ StemUpdate)
  | [], byStem => .ok byStem
  | (k, value) :: rest, byStem =>
    let (ns, key) := ofLex k
    if isCommittedNamespace ns then
      let (stem, slot) := pathOf ns key
      groupByStem rest (byStem.insert stem ((byStem.getD stem .empty).insert slot
        (value.map (fun v => ⟨ns, key, v⟩))))
    else .error (.database s!"namespace {ns} is not committed")

def putStems : List (ℕ × StemUpdate) → Option NodeRef → Batch →
    Except StorageError (Option NodeRef × Batch)
  | [], root, batch => .ok (root, batch)
  | (stem, update) :: rest, root, batch => do
    let (root, batch) ← putStem stem update stemBits batch root 0 0
    putStems rest root batch

def latestBase (store : Store) (version : ℕ) : Except StorageError (Option NodeRef) := do
  match ← latestVersion store with
  | none => return none
  | some latest =>
    if version < latest then
      .error (.database s!"state trie version {version} is behind the latest version {latest}")
    else
      match ← rootRef store latest with
      | some root => return root
      | none => .error (.database s!"state trie root missing at {latest}")

def commitOn (store : Store) (scheme : HashScheme) (version : ℕ) (writes : Writes)
    (base : Option (Option NodeRef)) : Except StorageError (Digest × Store) := do
  let latest ← latestBase store version
  let byStem ← groupByStem writes.entries .empty
  let (root, batch) ← putStems byStem.entries (base.getD latest) ⟨store, version, scheme, .empty⟩
  let batch := batch.put (rootKey version) (.root root)
  let batch := batch.put latestKey (.latest version)
  return ((root.map NodeRef.hash).getD emptyHash, writeBatch store batch.intoOps)

def commit (store : Store) (version : ℕ) (writes : Writes) : Except StorageError (Digest × Store) := do
  commitOn store (← schemeAt store version) version writes none

def writesOf (entries : List Entry) : Writes :=
  entries.foldl (fun writes e => writes.insert (toLex (e.ns, e.key)) (some e.value)) .empty

/-- The batch that logs every node and value record stale, and enters the new scheme. -/
def switchOps (store : Store) (version : ℕ) (schemes : List (ℕ × HashScheme)) : List WriteOp :=
  ((scanPrefix store 78 ++ scanPrefix store 86).map (fun e => .put (staleKey version e.1) .stale)) ++
    [.put schemesKey (.schemes schemes)]

/-- Re-commits the whole state as `version` under `scheme`. The log of stale records is written
before the new trie. -/
def recommitUnder (store : Store) (version : ℕ) (scheme : HashScheme) :
    Except StorageError (Store × Except StorageError (Digest × Store)) := do
  match ← latestVersion store with
  | none => .error (.database "no committed state to re-commit")
  | some latest =>
    if version ≤ latest then
      .error (.database s!"a re-commit at {version} must follow the latest version {latest}")
    else
      let entries ← forEachEntry store latest 0 0
      let switched := writeBatch store
        (switchOps store version ((← schemes store) ++ [(version, scheme)]))
      return (switched, commitOn switched scheme version (writesOf entries) (some none))

def adoptScheme (store : Store) (version : ℕ) (scheme : HashScheme) : Except StorageError Store := do
  if (← schemeAt store version) = scheme then return store
  else
    match ← latestVersion store with
    | none =>
      return store.insert schemesKey (.schemes ((← schemes store) ++ [(version, scheme)]))
    | some latest =>
      if version < latest then
        .error (.database
          s!"a scheme adopted at {version} must not precede the latest version {latest}")
      else return store.insert schemesKey (.schemes ((← schemes store) ++ [(version, scheme)]))

def keyVersion (key : List ℕ) : ℕ := key.getD 1 0

/-- Deletes what no version at or after `keepFrom` can reach; the number of records removed. -/
def prune (store : Store) (keepFrom : ℕ) : ℕ × Store :=
  let stale := (scanPrefix store 83).takeWhile (fun e => keyVersion e.1 ≤ keepFrom)
  let roots := (scanPrefix store 82).filter (fun e => keyVersion e.1 < keepFrom)
  let ops := stale.flatMap (fun e => [.delete (e.1.drop 2), .delete e.1]) ++
    roots.map (fun e => .delete e.1)
  (ops.length, writeBatch store ops)

end Tenzro.StateTrie

namespace Tenzro.StateTrie
open Function SortedMap

inductive DataKey where
  | node (version depth path : ℕ)
  | value (treeKey version : ℕ)
deriving DecidableEq, Repr

namespace DataKey

def key : DataKey → List ℕ
  | node v d p => pathKey v d p
  | value tk v => valueKey tk v

def version : DataKey → ℕ
  | node v _ _ => v
  | value _ v => v

theorem key_injective : Injective key := by
  intro a b h
  cases a <;> cases b <;> simp_all [key, pathKey, valueKey]

@[simp] theorem key_inj {a b : DataKey} : a.key = b.key ↔ a = b := key_injective.eq_iff

theorem key_ne_stale (k : DataKey) (v : ℕ) (target : List ℕ) : k.key ≠ staleKey v target := by
  cases k <;> simp [key, pathKey, valueKey, staleKey]

end DataKey

abbrev Live := DataKey → Option Record

namespace Batch

def data (batch : Batch) (k : DataKey) : Option Record := batch.get k.key

def staleAt (batch : Batch) (k : DataKey) : Option Record := batch.get (staleKey batch.version k.key)

theorem get_put (batch : Batch) (key : List ℕ) (record : Record) (key' : List ℕ) :
    (batch.put key record).get key' = if key' = key then some record else batch.get key' := by
  unfold get put
  simp only [get?_insert]
  by_cases h : key' = key <;> simp [h]

theorem get_retire (batch : Batch) (key : List ℕ) (w : ℕ) (key' : List ℕ) :
    (batch.retire key w).get key' =
      if w = batch.version then (if key' = key then none else batch.get key')
      else if key' = staleKey batch.version key then some .stale else batch.get key' := by
  unfold retire get
  by_cases hw : w = batch.version
  · simp only [hw, if_true, get?_insert]
    by_cases h : key' = key <;> simp [h]
  · simp only [hw, if_false, get?_insert]
    by_cases h : key' = staleKey batch.version key <;> simp [h]

end Batch

def Aside (v : ℕ) (key : List ℕ) : Prop :=
  ∀ k : DataKey, key ≠ k.key ∧ key ≠ staleKey v k.key

/-- A batch that turns live records `L` into `L'`, all changes at keys of `D`. -/
structure Moves (D : Set DataKey) (L L' : Live) (b b' : Batch) : Prop where
  same : b'.store = b.store ∧ b'.version = b.version ∧ b'.scheme = b.scheme
  fresh : ∀ k ∈ D, k.version = b.version → b.data k = L k → b'.data k = L' k
  frame : ∀ k, k ∉ D ∨ k.version ≠ b.version → b'.data k = b.data k
  stale : ∀ k, b'.staleAt k = if k.version ≠ b.version ∧ L k ≠ none ∧ L' k = none then some .stale
    else b.staleAt k
  old : ∀ k, k.version ≠ b.version → L' k ≠ none → L' k = L k
  outside : ∀ k, k ∉ D → L' k = L k
  aside : ∀ key, Aside b.version key → b'.get key = b.get key

def Batch.Loads (b : Batch) (D : Set DataKey) (L : Live) : Prop :=
  ∀ k ∈ D, (k.version = b.version → b.data k = L k) ∧ (L k ≠ none → b.data k = L k)

namespace Moves
variable {D : Set DataKey} {L L' L'' : Live} {b b' b'' : Batch}

theorem keepsVersion {v : ℕ} (h : Moves D L L' b b') (hv : b.version = v) : b'.version = v :=
  h.same.2.1.trans hv

theorem keepsScheme {scheme : HashScheme} (h : Moves D L L' b b') (hs : b.scheme = scheme) :
    b'.scheme = scheme :=
  h.same.2.2.trans hs

theorem refl (D : Set DataKey) (L : Live) (b : Batch) : Moves D L L b b where
  same := ⟨rfl, rfl, rfl⟩
  fresh _ _ _ h := h
  frame _ _ := rfl
  stale k := by
    rw [if_neg]
    rintro ⟨-, some, none⟩
    exact some none
  old _ _ _ := rfl
  outside _ _ := rfl
  aside _ _ := rfl

theorem trans (h : Moves D L L' b b') (h' : Moves D L' L'' b' b'') : Moves D L L'' b b'' where
  same := ⟨h'.same.1.trans h.same.1, h'.same.2.1.trans h.same.2.1, h'.same.2.2.trans h.same.2.2⟩
  fresh k hk hv hb := h'.fresh k hk (by rw [h.same.2.1]; exact hv) (h.fresh k hk hv hb)
  frame k hk := by
    rw [h'.frame k (by rw [h.same.2.1]; exact hk), h.frame k hk]
  stale k := by
    rw [h'.stale k, h.stale k, h.same.2.1]
    by_cases hv : k.version = b.version
    · simp [hv]
    have first := h.old k hv
    have second := h'.old k (by rw [h.same.2.1]; exact hv)
    by_cases here : L k = none
    · by_cases next : L' k = none
      · simp [here, next]
      · exact absurd ((first next).trans here) next
    · by_cases next : L' k = none
      · have last : L'' k = none := by
          by_contra some
          exact some ((second some).trans next)
        simp [hv, here, next, last]
      · simp [hv, here, next]
  old k hv hk := by
    have second := h'.old k (by rw [h.same.2.1]; exact hv) hk
    rw [second] at hk ⊢
    exact h.old k hv hk
  outside k hk := (h'.outside k hk).trans (h.outside k hk)
  aside key hkey := by
    rw [h'.aside key (by rw [h.same.2.1]; exact hkey), h.aside key hkey]

theorem mono {D' : Set DataKey} {M N : Live} (h : Moves D L L' b b') (sub : D ⊆ D')
    (before : ∀ k ∈ D, M k = L k) (after : ∀ k ∈ D, N k = L' k) (apart : ∀ k, k ∉ D → N k = M k) :
    Moves D' M N b b' where
  same := h.same
  fresh k hk hv hb := by
    by_cases inside : k ∈ D
    · rw [after k inside]
      exact h.fresh k inside hv (hb.trans (before k inside))
    · rw [h.frame k (.inl inside), hb, apart k inside]
  frame k hk := by
    refine h.frame k ?_
    cases hk with
    | inl out => exact .inl (fun inside => out (sub inside))
    | inr other => exact .inr other
  stale k := by
    rw [h.stale k]
    by_cases inside : k ∈ D
    · rw [before k inside, after k inside]
    · rw [apart k inside, h.outside k inside]
      have no (o : Option Record) : ¬ (o ≠ none ∧ o = none) := fun both => both.1 both.2
      simp only [no, and_false, if_false]
  old k hv hk := by
    by_cases inside : k ∈ D
    · rw [after k inside] at hk ⊢
      rw [before k inside]
      exact h.old k hv hk
    · exact apart k inside
  outside k hk := apart k (fun inside => hk (sub inside))
  aside := h.aside

theorem loads (h : Moves D L L' b b') (hb : b.Loads D L) : b'.Loads D L' := by
  intro k hk
  obtain ⟨new, held⟩ := hb k hk
  constructor
  · intro hv
    rw [h.same.2.1] at hv
    exact h.fresh k hk hv (new hv)
  · intro some
    by_cases hv : k.version = b.version
    · exact h.fresh k hk hv (new hv)
    · have same := h.old k hv some
      rw [h.frame k (.inr hv), same]
      exact held (same ▸ some)

theorem put {k : DataKey} (hk : k ∈ D) (hv : k.version = b.version) (L : Live) (record : Record) :
    Moves D L (update L k (some record)) b (b.put k.key record) where
  same := ⟨rfl, rfl, rfl⟩
  fresh k' _ _ hb := by
    rw [Batch.data, Batch.get_put]
    by_cases h : k' = k
    · subst h
      simp
    · rw [update_of_ne h, if_neg (by simpa using h)]
      exact hb
  frame k' hk' := by
    have apart : k' ≠ k := by
      rintro rfl
      cases hk' with
      | inl out => exact out hk
      | inr other => exact other hv
    rw [Batch.data, Batch.get_put, if_neg (by simpa using apart)]
    rfl
  stale k' := by
    have apart : staleKey b.version k'.key ≠ k.key := (k.key_ne_stale _ _).symm
    have here : (b.put k.key record).staleAt k' = b.staleAt k' := by
      unfold Batch.staleAt
      rw [Batch.get_put]
      exact if_neg apart
    rw [here, if_neg]
    rintro ⟨other, some, none⟩
    by_cases h : k' = k
    · subst h
      exact other hv
    · rw [update_of_ne h] at none
      exact some none
  old k' other _ := by
    have apart : k' ≠ k := fun h => other (h ▸ hv)
    rw [update_of_ne apart]
  outside k' out := by
    have apart : k' ≠ k := fun h => out (by rw [h]; exact hk)
    rw [update_of_ne apart]
  aside key hkey := by
    rw [Batch.get_put, if_neg (hkey k).1]

theorem retire {k : DataKey} (hk : k ∈ D) {L : Live} (held : L k ≠ none) (b : Batch) :
    Moves D L (update L k none) b (b.retire k.key k.version) where
  same := by
    unfold Batch.retire
    split_ifs <;> exact ⟨rfl, rfl, rfl⟩
  fresh k' _ hv hb := by
    rw [Batch.data, Batch.get_retire]
    by_cases h : k' = k
    · subst h
      simp [hv]
    · rw [update_of_ne h]
      split_ifs with own same stale
      · exact absurd (DataKey.key_injective same) h
      · exact hb
      · exact absurd stale (k'.key_ne_stale _ _)
      · exact hb
  frame k' hk' := by
    rw [Batch.data, Batch.get_retire]
    split_ifs with own same stale
    · cases DataKey.key_injective same
      cases hk' with
      | inl out => exact absurd hk out
      | inr other => exact absurd own other
    · rfl
    · exact absurd stale (k'.key_ne_stale _ _)
    · rfl
  stale k' := by
    have version : (b.retire k.key k.version).version = b.version := by
      unfold Batch.retire
      split_ifs <;> rfl
    rw [Batch.staleAt, version, Batch.get_retire]
    by_cases h : k' = k
    · subst h
      by_cases own : k'.version = b.version
      · have apart : staleKey b.version k'.key ≠ k'.key := (k'.key_ne_stale _ _).symm
        simp [own, apart, Batch.staleAt]
      · simp [own, held]
    · have apart : staleKey b.version k'.key ≠ k.key := (k.key_ne_stale _ _).symm
      have other : staleKey b.version k'.key ≠ staleKey b.version k.key := by
        simpa [staleKey] using h
      have no : ¬ (k'.version ≠ b.version ∧ L k' ≠ none ∧ L k' = none) :=
        fun all => all.2.1 all.2.2
      rw [update_of_ne h, if_neg no, if_neg apart, if_neg other, ite_self]
      rfl
  old k' other some := by
    by_cases h : k' = k
    · subst h
      simp at some
    · rw [update_of_ne h]
  outside k' out := by
    have apart : k' ≠ k := fun h => out (by rw [h]; exact hk)
    rw [update_of_ne apart]
  aside key hkey := by
    rw [Batch.get_retire, if_neg (hkey k).1, if_neg (hkey k).2, ite_self]

end Moves

end Tenzro.StateTrie
