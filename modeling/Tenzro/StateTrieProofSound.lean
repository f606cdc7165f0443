import Tenzro.StateTrieCanonical

set_option autoImplicit false
set_option linter.dupNamespace false

/-!
# State proofs are complete and sound

Completeness follows the path of the key down the tree. Soundness follows the
proof's path: each hash names the node it was made from, so the proof can only
retrace the tree.
-/
namespace Tenzro.StateTrie
open List

/-- Where a proof's path ends. -/
inductive ProofTerminal where
  | empty
  | otherStem (stem : ℕ) (slotsRoot : Digest)
  | stem (slotSiblings : { l : List Digest // l.length = 8 })

structure StateProof where
  siblings : List Digest
  terminal : ProofTerminal

inductive ProofError where
  | tooDeep (levels : ℕ)
  | presenceMismatch
  | stemOffPath
  | rootMismatch (computed expected : Digest)
deriving DecidableEq, Repr

theorem length_siblings {α : Type} (f : α → α → α) (d : α) (k : ℕ) (l : List α) (i : ℕ) :
    (PairFold.siblings f d k l i).length = k := by
  induction k generalizing l i with
  | zero => rfl
  | succ k ih => simp [PairFold.siblings, ih]

variable [TrieHash]

def eightSiblings (scheme : HashScheme) (slots : SortedMap ℕ Digest) (slot : ℕ) :
    { l : List Digest // l.length = 8 } :=
  ⟨slotSiblings scheme slots slot, length_siblings _ _ _ _ _⟩

def proveStem (store : Store) (scheme : HashScheme) (stem slot found : ℕ)
    (slots : SortedMap ℕ (Digest × ℕ)) (siblings : List Digest) :
    Except StorageError (Option (List ℕ) × StateProof) := do
  if found ≠ stem then
    return (none, ⟨siblings, .otherStem found (slotsRoot scheme (slots.map Prod.fst))⟩)
  else
    let value ← match slots.get? slot with
      | some (_, writtenAt) => do
        let e ← readValue store (joinTreeKey stem slot) writtenAt
        pure (some e.value)
      | none => pure none
    return (value, ⟨siblings, .stem (eightSiblings scheme (slots.map Prod.fst) slot)⟩)

def proveFrom (store : Store) (scheme : HashScheme) (stem slot : ℕ) :
    ℕ → Option NodeRef → ℕ → ℕ → List Digest → Except StorageError (Option (List ℕ) × StateProof)
  | _, none, _, _, siblings => .ok (none, ⟨siblings, .empty⟩)
  | 0, some r, depth, path, siblings => do
    match ← readNode store r depth path with
    | .stem found slots => proveStem store scheme stem slot found slots siblings
    | .internal .. => .error .outOfBounds
  | n + 1, some r, depth, path, siblings => do
    match ← readNode store r depth path with
    | .stem found slots => proveStem store scheme stem slot found slots siblings
    | .internal left right =>
      let bit := stemBit stem depth
      let next := if bit = 0 then left else right
      let other := if bit = 0 then right else left
      proveFrom store scheme stem slot n next (depth + 1) (2 * path + bit)
        (siblings ++ [(other.map NodeRef.hash).getD emptyHash])

def proveUnder (store : Store) (scheme : HashScheme) (version : ℕ) (ns : String) (key : List ℕ) :
    Except StorageError (Option (List ℕ) × StateProof) := do
  let root ← requireRoot store version
  let (stem, slot) := pathOf ns key
  proveFrom store scheme stem slot stemBits root 0 0 []

def prove (store : Store) (version : ℕ) (ns : String) (key : List ℕ) :
    Except StorageError (Option (List ℕ) × StateProof) := do
  proveUnder store (← schemeAt store version) version ns key

def get (store : Store) (version : ℕ) (ns : String) (key : List ℕ) :
    Except StorageError (Option (List ℕ)) := do
  return (← prove store version ns key).1

def terminalHash (scheme : HashScheme) (stem slot : ℕ) (value : Option (List ℕ)) (depth : ℕ) :
    ProofTerminal → Except ProofError Digest
  | .empty => if value.isSome then .error .presenceMismatch else .ok emptyHash
  | .otherStem other root =>
    if value.isSome then .error .presenceMismatch
    else if other = stem || !sharesPrefix other stem depth then .error .stemOffPath
    else .ok (stemHash scheme other root)
  | .stem siblings =>
    let slotHash := (value.map (leafHash scheme)).getD emptyHash
    let slots := slotsRootFromPath scheme slot slotHash siblings.1
    if slots = emptyHash then .error .presenceMismatch else .ok (stemHash scheme stem slots)

def climb (scheme : HashScheme) (stem : ℕ) (siblings : List Digest) (start : Digest) : Digest :=
  (range siblings.length).reverse.foldl (fun acc d =>
    let sibling := siblings.getD d emptyHash
    if stemBit stem d = 0 then internalHash scheme acc sibling else internalHash scheme sibling acc)
    start

def verifyStateProof (scheme : HashScheme) (root : Digest) (ns : String) (key : List ℕ)
    (value : Option (List ℕ)) (proof : StateProof) : Except ProofError Unit := do
  let depth := proof.siblings.length
  if stemBits < depth then .error (.tooDeep depth)
  else
    let (stem, slot) := pathOf ns key
    let start ← terminalHash scheme stem slot value depth proof.terminal
    let acc := climb scheme stem proof.siblings start
    if acc ≠ root then .error (.rootMismatch acc root) else return ()

def climbFrom (scheme : HashScheme) (stem : ℕ) (start : Digest) : ℕ → List Digest → Digest
  | _, [] => start
  | d, sibling :: rest =>
    if stemBit stem d = 0 then internalHash scheme (climbFrom scheme stem start (d + 1) rest) sibling
    else internalHash scheme sibling (climbFrom scheme stem start (d + 1) rest)

theorem climb_eq (scheme : HashScheme) (stem : ℕ) (siblings : List Digest) (start : Digest) :
    climb scheme stem siblings start = climbFrom scheme stem start 0 siblings := by
  have suffix (above rest : List Digest) :
      (range' above.length rest.length).foldr (fun d acc =>
        if stemBit stem d = 0 then internalHash scheme acc ((above ++ rest).getD d emptyHash)
        else internalHash scheme ((above ++ rest).getD d emptyHash) acc) start =
        climbFrom scheme stem start above.length rest := by
    induction rest generalizing above with
    | nil => rfl
    | cons x rest ih =>
      have next := ih (above ++ [x])
      simp only [length_append, length_cons, length_nil, Nat.zero_add,
        append_assoc, cons_append, nil_append] at next
      rw [length_cons, range'_succ, foldr_cons, next, climbFrom]
      have here : (above ++ x :: rest).getD above.length emptyHash = x := by simp
      rw [here]
  have whole := suffix [] siblings
  rw [climb, foldl_reverse, range_eq_range']
  exact whole

end Tenzro.StateTrie

namespace Tenzro
open List SortedMap
namespace StateTrie
variable [TrieHash] {scheme : HashScheme}

namespace Tree

def valueOf (stem slot d : ℕ) (t : Tree) : Option (List ℕ) :=
  ((slotsAt stem d t).get? slot).map (fun e => e.1.value)

def proof (scheme : HashScheme) (stem slot : ℕ) : ℕ → Tree → List Digest × ProofTerminal
  | _, nil => ([], .empty)
  | _, .stem _ s slots =>
    if s ≠ stem then ([], .otherStem s (slotsRoot scheme (leafSlots scheme slots)))
    else ([], .stem (eightSiblings scheme (leafSlots scheme slots) slot))
  | d, node _ l r =>
    if stemBit stem d = 0 then
      (r.hash scheme :: (proof scheme stem slot (d + 1) l).1, (proof scheme stem slot (d + 1) l).2)
    else (l.hash scheme :: (proof scheme stem slot (d + 1) r).1, (proof scheme stem slot (d + 1) r).2)

end Tree

section Complete
variable {store : Store} {d p : ℕ}

theorem storedSlots_hashes (slots : Slots) :
    (storedSlots scheme slots).map Prod.fst = leafSlots scheme slots := by
  refine ext_get? (fun i => ?_)
  simp only [storedSlots, leafSlots, get?_map, Option.map_map]
  rfl

theorem Has.proveStem (stem slot : ℕ) {v s : ℕ} {slots : Slots}
    (h : Has store ((Tree.stem v s slots).live scheme d p)) (hs : SlotsOf s slots)
    (siblings : List Digest) :
    StateTrie.proveStem store scheme stem slot s (storedSlots scheme slots) siblings =
      .ok ((Tree.stem v s slots).valueOf stem slot d,
        ⟨siblings ++ ((Tree.stem v s slots).proof scheme stem slot d).1,
          ((Tree.stem v s slots).proof scheme stem slot d).2⟩) := by
  unfold StateTrie.proveStem Tree.valueOf Tree.proof Tree.slotsAt
  rw [storedSlots_hashes]
  by_cases same : s = stem
  · subst same
    have stored : (storedSlots scheme slots).get? slot =
        (slots.get? slot).map (fun e => (leafHash scheme e.1.value, e.2)) := get?_map _ _ _
    simp only [ne_eq, not_true_eq_false, if_false, if_true, stored, append_nil]
    cases found : slots.get? slot with
    | none => rfl
    | some e =>
      have read := h.readValue hs (e := e.1) (w := e.2) found
      simp only [Option.map_some, read, bind, Except.bind]
      rfl
  · simp only [ne_eq, same, not_false_eq_true, if_true, if_false, append_nil]
    rfl

theorem proveFrom_eq {t : Tree} {n : ℕ} (stem slot : ℕ) (siblings : List Digest)
    (room : d + n = stemBits) (placed : t.Placed d p) (h : Has store (t.live scheme d p)) :
    proveFrom store scheme stem slot n (t.ref scheme) d p siblings =
      .ok (t.valueOf stem slot d,
        ⟨siblings ++ (t.proof scheme stem slot d).1, (t.proof scheme stem slot d).2⟩) := by
  induction t generalizing d p n siblings with
  | nil =>
    have blank : Tree.nil.valueOf stem slot d = none := rfl
    rw [blank]
    cases n <;> simp [proveFrom, Tree.ref, Tree.proof]
  | stem v s slots =>
    have read := h.readStem (r := ⟨v, (Tree.stem v s slots).hash scheme, true⟩) rfl
    have proved := h.proveStem stem slot placed.2.2.2 siblings
    cases n with
    | zero =>
      simp only [Tree.ref, proveFrom, read, bind, Except.bind]
      exact proved
    | succ n =>
      simp only [Tree.ref, proveFrom, read, bind, Except.bind]
      exact proved
  | node v l r ihl ihr =>
    obtain ⟨hd, hl, hr, -⟩ := placed
    obtain ⟨n, rfl⟩ : ∃ m, n = m + 1 := ⟨n - 1, by omega⟩
    have read := h.readInternal (r := ⟨v, (Tree.node v l r).hash scheme, false⟩) rfl
    simp only [Tree.ref_node, proveFrom, read, bind, Except.bind, Tree.proof]
    by_cases zero : stemBit stem d = 0
    · have left := ihl (n := n) (siblings ++ [r.hash scheme]) (by omega) hl (h.left hl)
      have value : (Tree.node v l r).valueOf stem slot d = l.valueOf stem slot (d + 1) := by
        simp [Tree.valueOf, Tree.slotsAt, zero]
      simp only [zero, if_true, Nat.add_zero, Tree.getD_ref, value, left, append_assoc,
        cons_append, nil_append]
    · have right := ihr (n := n) (siblings ++ [l.hash scheme]) (by omega) hr (h.right hl hr)
      have value : (Tree.node v l r).valueOf stem slot d = r.valueOf stem slot (d + 1) := by
        simp [Tree.valueOf, Tree.slotsAt, zero]
      simp only [stemBit_eq_one zero, Nat.one_ne_zero, if_false, Tree.getD_ref, value, right,
        append_assoc, cons_append, nil_append]

theorem slotsRootFromPath_siblings (slots : SortedMap ℕ Digest) {slot : ℕ} (h : slot < slotCount) :
    slotsRootFromPath scheme slot (slots.getD slot emptyHash) (slotSiblings scheme slots slot) =
      slotsRoot scheme slots := by
  have path := PairFold.rootFromPath_siblings (slotPair scheme) emptyHash (length_slotLevel slots)
    (by rw [← slotCount_eq]; exact h) (getElem?_slotLevel slots h)
  rw [reduce_slotLevel] at path
  exact (Option.some.inj path).symm

theorem leafSlots_getD (slots : Slots) (slot : ℕ) :
    (leafSlots scheme slots).getD slot emptyHash =
      (((slots.get? slot).map (fun e => e.1.value)).map (leafHash scheme)).getD emptyHash := by
  rw [SortedMap.getD, leafSlots, get?_map, Option.map_map]
  rfl

theorem Ideal.slotsRoot_filled (ideal : Ideal scheme) {s : ℕ} {slots : Slots} (hs : SlotsOf s slots)
    (filled : slots.isEmpty = false) : slotsRoot scheme (leafSlots scheme slots) ≠ emptyHash := by
  intro blank
  refine absurd (SortedMap.isEmpty_iff.2 ?_) (Bool.eq_false_iff.1 filled)
  intro i
  by_contra some
  obtain ⟨⟨e, w⟩, he⟩ := Option.ne_none_iff_exists'.1 some
  have none := ideal.slotsRoot_empty blank (slot_lt hs he)
  rw [leafSlots_getD, he] at none
  exact ideal.nonempty _ none

theorem Ideal.proof_climbs (ideal : Ideal scheme) {t : Tree} {stem : ℕ} (slot : ℕ) (placed : t.Placed d p)
    (bound : stem < 2 ^ stemBits) (low : slot < slotCount) (hp : stemPrefix stem d = p)
    (hd : d ≤ stemBits) :
    d + (t.proof scheme stem slot d).1.length ≤ stemBits ∧
      ∃ start, terminalHash scheme stem slot (t.valueOf stem slot d)
          (d + (t.proof scheme stem slot d).1.length) (t.proof scheme stem slot d).2 = .ok start ∧
        climbFrom scheme stem start d (t.proof scheme stem slot d).1 = t.hash scheme := by
  induction t generalizing d p with
  | nil => exact ⟨hd, emptyHash, rfl, rfl⟩
  | stem v s slots =>
    obtain ⟨bound', prefixed, filled, slotsOf⟩ := placed
    unfold Tree.proof Tree.valueOf Tree.slotsAt
    by_cases same : s = stem
    · subst same
      have root := @slotsRootFromPath_siblings _ scheme (leafSlots scheme slots) _ low
      rw [leafSlots_getD] at root
      have some := ideal.slotsRoot_filled slotsOf filled
      refine ⟨by simpa using hd, stemHash scheme s (slotsRoot scheme (leafSlots scheme slots)), ?_, ?_⟩
      · simp only [ne_eq, not_true_eq_false, if_false, if_true, terminalHash, eightSiblings, root, some]
      · simp only [ne_eq, not_true_eq_false, if_false, climbFrom]
        rfl
    · have shares := (sharesPrefix_iff bound' bound hd).2 (prefixed.trans hp.symm)
      refine ⟨by simpa [same] using hd, stemHash scheme s (slotsRoot scheme (leafSlots scheme slots)),
        ?_, ?_⟩
      · simp [same, terminalHash, shares]
      · simp only [ne_eq, same, not_false_eq_true, if_true, climbFrom]
        rfl
  | node v l r ihl ihr =>
    obtain ⟨deep, hl, hr, -⟩ := placed
    have next := stemPrefix_succ stem deep
    unfold Tree.proof Tree.valueOf Tree.slotsAt
    by_cases zero : stemBit stem d = 0
    · obtain ⟨fits, start, accepted, climbs⟩ := ihl hl (by omega) deep
      simp only [zero, if_true, length_cons, climbFrom]
      refine ⟨by omega, start, ?_, ?_⟩
      · rw [show d + ((l.proof scheme stem slot (d + 1)).1.length + 1) =
          d + 1 + (l.proof scheme stem slot (d + 1)).1.length by omega]
        exact accepted
      · rw [climbs]
        rfl
    · have one := stemBit_eq_one zero
      obtain ⟨fits, start, accepted, climbs⟩ := ihr hr (by omega) deep
      simp only [zero, if_false, length_cons, climbFrom]
      refine ⟨by omega, start, ?_, ?_⟩
      · rw [show d + ((r.proof scheme stem slot (d + 1)).1.length + 1) =
          d + 1 + (r.proof scheme stem slot (d + 1)).1.length by omega]
        exact accepted
      · rw [climbs]
        rfl

end Complete

section Soundness
variable {d p : ℕ}

theorem Ideal.hash_empty (ideal : Ideal scheme) {t : Tree} (h : t.hash scheme = emptyHash) :
    t = .nil := by
  cases t with
  | nil => rfl
  | stem v s slots => exact absurd h (ideal.nonempty _)
  | node v l r => exact absurd h (ideal.nonempty _)

theorem Ideal.hash_stem (ideal : Ideal scheme) {t : Tree} {s : ℕ} {root : Digest}
    (h : t.hash scheme = stemHash scheme s root) :
    ∃ v slots, t = .stem v s slots ∧ slotsRoot scheme (leafSlots scheme slots) = root := by
  cases t with
  | nil => exact absurd h.symm (ideal.nonempty _)
  | stem v s' slots =>
    have same := ideal.injective h
    simp only [Preimage.stem.injEq] at same
    obtain ⟨rfl, rfl⟩ := same
    exact ⟨v, slots, rfl, rfl⟩
  | node v l r =>
    have same := ideal.injective h
    simp at same

theorem Ideal.hash_internal (ideal : Ideal scheme) {t : Tree} {a b : Digest}
    (h : t.hash scheme = internalHash scheme a b) :
    ∃ v l r, t = .node v l r ∧ l.hash scheme = a ∧ r.hash scheme = b := by
  cases t with
  | nil => exact absurd h.symm (ideal.nonempty _)
  | stem v s slots =>
    have same := ideal.injective h
    simp at same
  | node v l r =>
    have same := ideal.injective h
    simp only [Preimage.internal.injEq] at same
    exact ⟨v, l, r, rfl, same.1, same.2⟩

theorem Ideal.slot_eq (ideal : Ideal scheme) {slots : SortedMap ℕ Digest} {slot : ℕ} {x : Digest}
    (h : slot < slotCount) (siblings : { l : List Digest // l.length = 8 })
    (root : slotsRoot scheme slots = slotsRootFromPath scheme slot x siblings.1) :
    slots.getD slot emptyHash = x := by
  obtain ⟨l, eight⟩ := siblings
  have reduced : (PairFold.reduce (slotPair scheme) l.length (slotLevel slots))[0]? =
      some (PairFold.rootFromPath (slotPair scheme) l slot x) := by
    rw [eight, reduce_slotLevel, root]
    rfl
  have there := PairFold.eq_of_rootFromPath ideal.slotPair_injective
    (by rw [eight]; exact length_slotLevel slots) (by rw [eight, ← slotCount_eq]; exact h) reduced
  rw [getElem?_slotLevel slots h] at there
  exact Option.some.inj there

theorem Ideal.proof_sound (ideal : Ideal scheme) {t : Tree} {stem slot depth : ℕ}
    (low : slot < slotCount) {value : Option (List ℕ)} {siblings : List Digest}
    {terminal : ProofTerminal} {start : Digest}
    (accepted : terminalHash scheme stem slot value depth terminal = .ok start)
    (climbs : climbFrom scheme stem start d siblings = t.hash scheme) :
    value = t.valueOf stem slot d := by
  induction siblings generalizing d t with
  | nil =>
    have climbs : start = t.hash scheme := climbs
    cases terminal with
    | empty =>
      simp only [terminalHash] at accepted
      split_ifs at accepted with claimed
      cases accepted
      rw [ideal.hash_empty climbs.symm]
      simpa [Tree.valueOf, Tree.slotsAt] using claimed
    | otherStem other root =>
      simp only [terminalHash] at accepted
      split_ifs at accepted with claimed off
      cases accepted
      obtain ⟨v, slots, rfl, -⟩ := ideal.hash_stem climbs.symm
      have apart : other ≠ stem := by
        intro same
        simp [same] at off
      have none : value = none := by simpa using claimed
      simp [Tree.valueOf, Tree.slotsAt, apart, none]
    | stem slotSiblings =>
      simp only [terminalHash] at accepted
      split_ifs at accepted
      cases accepted
      obtain ⟨v, slots, rfl, root⟩ := ideal.hash_stem climbs.symm
      have agree := ideal.slot_eq low slotSiblings root
      rw [leafSlots_getD] at agree
      have held : (Tree.stem v stem slots).valueOf stem slot d =
          (slots.get? slot).map (fun e => e.1.value) := by
        simp [Tree.valueOf, Tree.slotsAt]
      rw [held]
      -- A hash of a value is not the empty hash, so presence agrees as well.
      cases hv : value with
      | none =>
        rw [hv] at agree
        cases hs : (slots.get? slot).map (fun e => e.1.value) with
        | none => rfl
        | some x =>
          rw [hs] at agree
          exact absurd agree (ideal.nonempty _)
      | some x =>
        rw [hv] at agree
        cases hs : (slots.get? slot).map (fun e => e.1.value) with
        | none =>
          rw [hs] at agree
          exact absurd agree.symm (ideal.nonempty _)
        | some y =>
          rw [hs] at agree
          have same := ideal.injective agree
          simp only [Preimage.leaf.injEq] at same
          rw [same]
  | cons sibling siblings ih =>
    rw [climbFrom] at climbs
    by_cases zero : stemBit stem d = 0
    · rw [if_pos zero] at climbs
      obtain ⟨v, l, r, rfl, left, -⟩ := ideal.hash_internal climbs.symm
      rw [ih left.symm]
      simp [Tree.valueOf, Tree.slotsAt, zero]
    · rw [if_neg zero] at climbs
      obtain ⟨v, l, r, rfl, -, right⟩ := ideal.hash_internal climbs.symm
      rw [ih right.symm]
      simp [Tree.valueOf, Tree.slotsAt, zero]

end Soundness

section Histories
variable {store : Store} {x : Versions}

theorem Sound.prove (h : Sound store x) {v : ℕ} {t : Tree} (ht : x.tree v = some t) (ns : String)
    (key : List ℕ) : StateTrie.prove store v ns key =
      .ok (t.valueOf (pathOf ns key).1 (pathOf ns key).2 0,
        ⟨(t.proof (x.scheme v) (pathOf ns key).1 (pathOf ns key).2 0).1,
          (t.proof (x.scheme v) (pathOf ns key).1 (pathOf ns key).2 0).2⟩) := by
  have has : Has store (t.live (x.scheme v) 0 0) := fun k live => (h.held v t ht k live).2
  have run := proveFrom_eq (n := stemBits) (pathOf ns key).1 (pathOf ns key).2 [] (by omega)
    (h.placed v t ht) has
  simp only [StateTrie.prove, h.schemeAt, proveUnder, requireRoot, h.rootRef, ht, bind, Except.bind]
  exact run

theorem Sound.rootAt (h : Sound store x) (v : ℕ) :
    StateTrie.rootAt store v = .ok ((x.tree v).map (Tree.hash (x.scheme v))) := by
  simp only [StateTrie.rootAt, h.rootRef, bind, Except.bind]
  cases ht : x.tree v with
  | none => rfl
  | some t => exact congrArg (fun y => Except.ok (some y)) t.getD_ref

theorem Tree.Represents.value {t : Tree} {c : Contents} {keys : Set (String × List ℕ)}
    (h : t.Represents c) (placed : t.Placed 0 0) (inj : Set.InjOn treeKeyOf keys)
    (held : ∀ k, c.get? (toLex k) ≠ none → k ∈ keys) {ns : String} {key : List ℕ}
    (mine : (ns, key) ∈ keys) :
    t.valueOf (pathOf ns key).1 (pathOf ns key).2 0 = c.get? (toLex (ns, key)) := by
  cases found : c.get? (toLex (ns, key)) with
  | some value =>
    obtain ⟨w, hw⟩ := (h ⟨ns, key, value⟩).1 found
    have there : (slotsAt (pathOf ns key).1 0 t).get? (pathOf ns key).2 = some (⟨ns, key, value⟩, w) :=
      hw
    rw [valueOf, there]
    rfl
  | none =>
    cases there : (slotsAt (pathOf ns key).1 0 t).get? (pathOf ns key).2 with
    | none => rw [valueOf, there]; rfl
    | some e =>
      have path : e.1.path = pathOf ns key := slotsOf_slotsAt _ placed _ _ there
      have holds : t.Holds e.1 := ⟨e.2, by rw [path]; exact there⟩
      have value := (h e.1).2 holds
      have other : (e.1.ns, e.1.key) ∈ keys := held _ (by rw [value]; simp)
      have same := same_key inj other mine path
      rw [same, found] at value
      cases value

theorem verifyStateProof_ok {root : Digest} {ns : String} {key : List ℕ} {value : Option (List ℕ)}
    {proof : StateProof} : verifyStateProof scheme root ns key value proof = .ok () ↔
      proof.siblings.length ≤ stemBits ∧ ∃ start,
        terminalHash scheme (pathOf ns key).1 (pathOf ns key).2 value proof.siblings.length
          proof.terminal = .ok start ∧
        climbFrom scheme (pathOf ns key).1 start 0 proof.siblings = root := by
  unfold verifyStateProof
  by_cases deep : stemBits < proof.siblings.length
  · simp only [deep, if_true, reduceCtorEq, false_iff]
    rintro ⟨fits, -⟩
    omega
  · simp only [deep, if_false]
    cases terminal : terminalHash scheme (pathOf ns key).1 (pathOf ns key).2 value
        proof.siblings.length proof.terminal with
    | error e => simp [bind, Except.bind]
    | ok start =>
      simp only [bind, Except.bind, climb_eq, Except.ok.injEq, exists_eq_left']
      by_cases same : climbFrom scheme (pathOf ns key).1 start 0 proof.siblings = root
      · simp only [same, ne_eq, not_true_eq_false, if_false, and_true]
        exact ⟨fun _ => not_lt.1 deep, fun _ => rfl⟩
      · simp [same]

/-- Every retained version proves each key's value, or its absence, and no proof is accepted under
its root for anything else. -/
theorem state_proofs_complete_sound (ops : List Op) (ns : String) (key : List ℕ)
    (inj : Set.InjOn treeKeyOf (insert (ns, key) (keysOf ops))) (ideal : ∀ scheme, Ideal scheme)
    (v : ℕ) (root : Digest) (retained : rootAt (runOps .empty ops) v = .ok (some root)) :
    ∃ scheme state, schemeAt (runOps .empty ops) v = .ok scheme ∧
      (Snapshots.empty.run ops).state v = some state ∧
      (∃ proof, prove (runOps .empty ops) v ns key = .ok (state.get? (toLex (ns, key)), proof) ∧
        verifyStateProof scheme root ns key (state.get? (toLex (ns, key))) proof = .ok ()) ∧
      ∀ value proof, verifyStateProof scheme root ns key value proof = .ok () →
        value = state.get? (toLex (ns, key)) := by
  obtain ⟨sound, -⟩ := sound_runOps ops
  have mirrors := mirrors_runOps ops inj (Set.subset_insert _ _)
  rw [sound.rootAt] at retained
  cases ht : (Versions.empty.run ops).tree v with
  | none =>
    rw [ht] at retained
    cases retained
  | some t =>
    rw [ht] at retained
    obtain rfl : t.hash ((Versions.empty.run ops).scheme v) = root := by
      simpa using retained
    cases hc : (Snapshots.empty.run ops).state v with
    | none =>
      rw [(mirrors.retained v).2 hc] at ht
      cases ht
    | some state =>
      have placed := sound.placed v t ht
      have value := (mirrors.represents v t state ht hc).value placed inj (mirrors.held v state hc)
        (Set.mem_insert (ns, key) _)
      obtain ⟨bound, low⟩ := pathOf_lt ns key
      have good := ideal ((Versions.empty.run ops).scheme v)
      refine ⟨_, state, sound.schemeAt v, rfl, ?_, ?_⟩
      · have proved := sound.prove ht ns key
        have climbs := good.proof_climbs (pathOf ns key).2 placed bound low
          (stemPrefix_zero bound) (Nat.zero_le _)
        rw [Nat.zero_add, value] at climbs
        rw [value] at proved
        exact ⟨_, proved, verifyStateProof_ok.2 climbs⟩
      · intro claimed proof accepted
        obtain ⟨-, start, terminal, climbs⟩ := verifyStateProof_ok.1 accepted
        rw [good.proof_sound low terminal climbs, value]

end Histories

end StateTrie

end Tenzro

namespace Tenzro
namespace StateTrie

theorem sampleHistory_key : insert ("state", [1]) (keysOf sampleHistory) = keysOf sampleHistory := by
  refine Set.insert_eq_of_mem ⟨_, List.mem_cons_self, ?_⟩
  simp [Op.keySet, Writes.keySet, stateWrites]

theorem sampleHistory_retained :
    (@rootAt (@runOps encodedHash .empty sampleHistory) 0).toOption.join.isSome = true := by
  decide +kernel

/-- The first version still proves the entry the second removed. -/
theorem state_proofs_complete_sound_sample : ∃ root scheme state,
    @schemeAt (@runOps encodedHash .empty sampleHistory) 0 = .ok scheme ∧
      (Snapshots.empty.run sampleHistory).state 0 = some state ∧
      (∃ proof, @prove encodedHash (@runOps encodedHash .empty sampleHistory) 0 "state" [1] =
          .ok (state.get? (toLex ("state", [1])), proof) ∧
        @verifyStateProof encodedHash scheme root "state" [1]
          (state.get? (toLex ("state", [1]))) proof = .ok ()) ∧
      ∀ value proof, @verifyStateProof encodedHash scheme root "state" [1] value proof = .ok () →
        value = state.get? (toLex ("state", [1])) := by
  have retained := sampleHistory_retained
  cases found : @rootAt (@runOps encodedHash .empty sampleHistory) 0 with
  | error e =>
    rw [found] at retained
    cases retained
  | ok answer =>
    cases answer with
    | none =>
      rw [found] at retained
      cases retained
    | some root =>
      refine ⟨root, ?_⟩
      refine @state_proofs_complete_sound encodedHash sampleHistory "state" [1] ?_
        ideal_encodedHash 0 root found
      rw [sampleHistory_key]
      exact sampleHistory_injOn

end StateTrie

end Tenzro
