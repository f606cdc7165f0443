import Tenzro.NodeStart

set_option autoImplicit false
set_option linter.dupNamespace false

/-!
# Entries present and absent

A checked existence proof that reaches the root of a store is the proof of one
of its entries, unless two strings collide. Two adjacent leaves around a key
show that it is absent.
-/
namespace Tenzro.Bridge
open ByteCodec Outcome Protobuf HashTree List

namespace Tendermint
variable [RouteCrypto]

def ExistenceProof.hashed (p : ExistenceProof) : List Bytes :=
  p.value :: climbed sha256 p.path.reverse p.leaf

/-! ### Checked paths -/

theorem climb_ok {spec : Spec} {layer : ℕ} {path : List PathStep} {x r : Bytes} :
    ExistenceProof.climb spec layer path (sha256 x) = .ok r ↔
      (∀ i s, path[i]? = some s → checkInner spec (layer + i : ℕ) s = .ok ()) ∧
        climb sha256 path.reverse x = r := by
  induction path generalizing layer x with
  | nil =>
    simp only [ExistenceProof.climb, reverse_nil, HashTree.climb, Except.ok.injEq,
      getElem?_nil, reduceCtorEq, false_implies, implies_true, true_and]
  | cons step path ih =>
    rw [ExistenceProof.climb, bind_ok, reverse_cons, climb_append]
    constructor
    · rintro ⟨_, checked, rest⟩
      obtain ⟨each, reaches⟩ := ih.1 rest
      refine ⟨fun i s at_i => ?_, reaches⟩
      cases i with
      | zero => cases at_i; exact checked
      | succ i =>
        have here := each i s at_i
        rwa [Nat.add_assoc, Nat.add_comm 1] at here
    · rintro ⟨each, reaches⟩
      refine ⟨(), each 0 step rfl, ih.2 ⟨fun i s at_i => ?_, reaches⟩⟩
      have here := each (i + 1) s at_i
      rwa [Nat.add_comm i, ← Nat.add_assoc] at here

theorem root_ok {p : ExistenceProof} {spec : Spec} {r : Bytes} :
    p.root spec = .ok r ↔ p.checkLeaf spec = .ok () ∧
      (∀ i s, p.path[i]? = some s → checkInner spec (1 + i : ℕ) s = .ok ()) ∧
        climb sha256 p.path.reverse p.leaf = r := by
  unfold ExistenceProof.root
  rw [bind_ok, ← climb_ok]
  constructor
  · rintro ⟨_, leaf, rest⟩
    exact ⟨leaf, rest⟩
  · rintro ⟨leaf, rest⟩
    exact ⟨(), leaf, rest⟩

def Genuine (spec : Spec) (s : Step) : Prop := ∃ layer : ℕ, 1 ≤ layer ∧ checkInner spec layer s = .ok ()

theorem genuine_of_root {p : ExistenceProof} {spec : Spec} {r : Bytes} (ran : p.root spec = .ok r) :
    ∀ s ∈ p.path.reverse, Genuine spec s := by
  intro s mem
  obtain ⟨i, at_i⟩ := mem_iff_getElem?.1 (mem_reverse.1 mem)
  exact ⟨1 + i, by omega, (root_ok.1 ran).2.1 i s at_i⟩

/-! ### The IAVL tree -/

theorem iavl_reads {p : ExistenceProof} {t : IavlTree} (leaf : p.checkLeaf .iavl = .ok ())
    (fits : IavlTree.Fits t) : iavlCode.Reads (Genuine .iavl) p.leaf t := by
  obtain ⟨tail, written⟩ := iavl_written t
  constructor
  · intro same
    obtain ⟨v, -, reads⟩ := checkLeaf_iavl.1 leaf
    rw [written] at same
    obtain ⟨-, values, -⟩ := reads.unique fits.reads same
    cases t with
    | leaf a => exact ⟨a, rfl⟩
    | node v l r =>
      simp only [IavlTree.height, Prod.mk.injEq] at values
      omega
  · rintro ⟨before, after⟩ y ⟨layer, positive, checked⟩ same
    obtain ⟨c, h, s, v, rest, split, reads, ⟨high, -, -⟩, around⟩ := checkInner_iavl.1 checked
    simp only at split same around
    subst split
    rw [written, append_assoc] at same
    obtain ⟨rfl, values, around_same⟩ := reads.unique fits.reads same
    cases t with
    | leaf a =>
      simp only [IavlTree.height, Prod.mk.injEq] at values
      omega
    | node v l r =>
      refine ⟨v, l, r, rfl, ?_⟩
      have inner : tail = 32 :: (iavlCode.root l ++ 32 :: iavlCode.root r) := by
        have all := written
        simp only [Code.written, iavlCode, append_assoc, singleton_append] at all
        exact (append_cancel_left all).symm
      have left := length_root iavlCode rfl l
      have digest := RouteCrypto.length_sha256 y
      rw [inner] at around_same
      cases around with
      | left w long =>
        rw [singleton_append] at around_same
        obtain ⟨child, sibling⟩ := append_inj (List.cons.inj around_same).2
          (digest.trans left.symm)
        refine .inl ⟨?_, child⟩
        simp only [Code.leftStep, iavlCode, Prod.mk.injEq]
        exact ⟨rfl, sibling⟩
      | right w long =>
        rw [append_nil, cons_append, append_assoc] at around_same
        obtain ⟨sibling, child⟩ := append_inj (List.cons.inj around_same).2
          (long.trans left.symm)
        refine .inr ⟨?_, (List.cons.inj child).2⟩
        simp only [Code.rightStep, iavlCode, Prod.mk.injEq, and_true]
        rw [sibling, append_assoc]
        rfl

theorem prefixedEntry_inj {key value key' value' : Bytes}
    (same : writeEntry key value = writeEntry key' value') :
    key = key' ∧ sha256 value = sha256 value' := by
  obtain ⟨key, rest⟩ := prefixed_append_inj same
  exact ⟨key, append_cancel_left rest⟩

theorem iavl_sound {p : ExistenceProof} {t : IavlTree} (fits : IavlTree.Fits t)
    (ran : p.root .iavl = .ok (iavlCode.root t))
    (apart : Apart sha256 p.hashed
      (t.subtrees.map iavlCode.written ++ t.leaves.map IavlLeaf.value)) :
    ∃ a, (a, p.path.reverse) ∈ iavlCode.paths t ∧ a.key = p.key ∧ a.value = p.value := by
  obtain ⟨leaf, -, reaches⟩ := root_ok.1 ran
  obtain ⟨a, mem, same⟩ := iavlCode.mem_paths
    (fun u mem => iavl_reads leaf (fits.subtree mem)) (genuine_of_root ran) reaches
    fun x hx y hy => apart x (mem_cons_of_mem _ hx) y (mem_append_left _ hy)
  obtain ⟨v, positive, reads⟩ := checkLeaf_iavl.1 leaf
  have leaf_mem := iavlCode.mem_leaves mem
  have start := (fits.subtree (Tree.leaf_mem_subtrees leaf_mem)).reads
  obtain ⟨-, -, entry⟩ := reads.unique start same
  obtain ⟨key, value⟩ := prefixedEntry_inj entry
  refine ⟨a, mem, key.symm, ?_⟩
  exact (apart p.value mem_cons_self a.value
    (mem_append_right _ (mem_map_of_mem leaf_mem)) value).symm

/-! ### The multistore -/

theorem multistore_reads {p : ExistenceProof} {m : Multistore}
    (leaf : p.checkLeaf .tendermint = .ok ()) :
    multistoreCode.Reads (Genuine .tendermint) p.leaf m := by
  have zero : p.leafPrefix = [0] := ensure_ok.1 leaf
  constructor
  · intro same
    cases m with
    | leaf a => exact ⟨a, rfl⟩
    | node b l r =>
      rw [ExistenceProof.leaf, zero] at same
      cases (List.cons.inj same).1
  · rintro ⟨before, after⟩ y ⟨layer, -, checked⟩ same
    obtain ⟨one, shape⟩ := ensure_ok.1 checked
    obtain ⟨w, rfl⟩ := head?_eq_some_iff.1 one
    cases m with
    | leaf a => cases (List.cons.inj same).1
    | node b l r =>
      refine ⟨b, l, r, rfl, ?_⟩
      have left := length_root multistoreCode rfl l
      have digest := RouteCrypto.length_sha256 y
      replace same : w ++ (sha256 y ++ after) = multistoreCode.root l ++ multistoreCode.root r :=
        (List.cons.inj same).2
      simp only [length_cons] at shape
      rcases shape with ⟨short, -⟩ | ⟨long, none⟩
      · obtain rfl : w = [] := length_eq_zero_iff.1 (by omega)
        rw [nil_append] at same
        obtain ⟨child, sibling⟩ := append_inj same (digest.trans left.symm)
        refine .inl ⟨?_, child⟩
        rw [sibling]
        rfl
      · obtain ⟨sibling, child⟩ := append_inj same (by omega)
        obtain rfl := length_eq_zero_iff.1 none
        rw [append_nil] at child
        refine .inr ⟨?_, child⟩
        rw [sibling]
        simp [Code.rightStep, multistoreCode]

theorem multistore_sound {p : ExistenceProof} {m : Multistore}
    (ran : p.root .tendermint = .ok (multistoreCode.root m)) (apart : Apart sha256 p.hashed m.hashed) :
    ⟨p.key, p.value⟩ ∈ m.leaves := by
  obtain ⟨leaf, -, reaches⟩ := root_ok.1 ran
  obtain ⟨a, mem, same⟩ := multistoreCode.mem_paths (fun u _ => multistore_reads leaf)
    (genuine_of_root ran) reaches
    fun x hx y hy => apart x (mem_cons_of_mem _ hx) y (mem_append_left _ hy)
  have leaf_mem := multistoreCode.mem_leaves mem
  have zero : p.leafPrefix = [0] := ensure_ok.1 leaf
  rw [ExistenceProof.leaf, zero] at same
  obtain ⟨key, value⟩ := prefixedEntry_inj (List.cons.inj same).2
  have root := apart p.value mem_cons_self a.root
    (mem_append_right _ (mem_map_of_mem leaf_mem)) value
  rwa [key, root]

/-! ### Proofs a store serves -/

theorem length_path_le {t : IavlTree} {a : IavlLeaf} {path : List Step}
    (mem : (a, path) ∈ iavlCode.paths t) : path.length ≤ IavlTree.height t := by
  induction t generalizing path with
  | leaf b =>
    obtain ⟨-, rfl⟩ := Prod.mk.inj (mem_singleton.1 mem)
    exact Nat.zero_le _
  | node v l r ihl ihr =>
    simp only [IavlTree.height]
    rcases mem_append.1 mem with left | right
    · obtain ⟨rest, rfl, inside⟩ := Code.mem_below.1 left
      have := ihl inside
      rw [length_cons]
      omega
    · obtain ⟨rest, rfl, inside⟩ := Code.mem_below.1 right
      have := ihr inside
      rw [length_cons]
      omega

theorem checkInner_step {v : ℕ} {l r : IavlTree} (fits : IavlTree.Fits (.node v l r)) {layer : ℕ}
    (low : layer ≤ IavlTree.height (.node v l r)) :
    checkInner .iavl layer (iavlCode.leftStep v l r) = .ok () ∧
      checkInner .iavl layer (iavlCode.rightStep v l r) = .ok () := by
  have sizes := IavlTree.height_lt_size l
  have sizes' := IavlTree.height_lt_size r
  have version := fits.version
  have start : (layer : ℤ) ≤ IavlTree.height (.node v l r) ∧
      (2 : ℤ) ≤ IavlTree.size (.node v l r) ∧ (1 : ℤ) ≤ v := by
    simp only [IavlTree.size, IavlTree.version] at version ⊢
    omega
  constructor
  · exact checkInner_iavl.2 ⟨_, _, _, _, [32], rfl, fits.reads, start,
      .left _ (length_root _ rfl r)⟩
  · refine checkInner_iavl.2 ⟨_, _, _, _, 32 :: (iavlCode.root l ++ [32]), ?_, fits.reads, start,
      .right _ (length_root _ rfl l)⟩
    exact append_assoc ..

omit [RouteCrypto] in
theorem getElem?_snoc {path : List PathStep} {last s : PathStep} {i : ℕ}
    (at_i : (path ++ [last])[i]? = some s) :
    path[i]? = some s ∨ i = path.length ∧ last = s := by
  rw [getElem?_append] at at_i
  split_ifs at at_i with low
  · exact .inl at_i
  · obtain ⟨bound, value⟩ := List.getElem?_eq_some_iff.1 at_i
    rw [length_singleton] at bound
    rw [getElem_singleton] at value
    exact .inr ⟨by omega, value⟩

theorem checkInner_path {t : IavlTree} (fits : IavlTree.Fits t) {a : IavlLeaf} {path : List Step}
    (mem : (a, path) ∈ iavlCode.paths t) (i : ℕ) (s : PathStep)
    (at_i : path.reverse[i]? = some s) : checkInner .iavl (1 + i : ℕ) s = .ok () := by
  induction t generalizing path with
  | leaf b =>
    obtain ⟨-, rfl⟩ := Prod.mk.inj (mem_singleton.1 mem)
    simp at at_i
  | node v l r ihl ihr =>
    have whole := length_path_le mem
    rcases mem_append.1 mem with left | right
    · obtain ⟨rest, rfl, inside⟩ := Code.mem_below.1 left
      rw [reverse_cons] at at_i
      rw [length_cons] at whole
      rcases getElem?_snoc at_i with low | ⟨rfl, rfl⟩
      · exact ihl fits.2.1 inside low
      · rw [length_reverse]
        exact (checkInner_step fits (by omega)).1
    · obtain ⟨rest, rfl, inside⟩ := Code.mem_below.1 right
      rw [reverse_cons] at at_i
      rw [length_cons] at whole
      rcases getElem?_snoc at_i with low | ⟨rfl, rfl⟩
      · exact ihr fits.2.2 inside low
      · rw [length_reverse]
        exact (checkInner_step fits (by omega)).2

theorem iavlProof_root {t : IavlTree} (fits : IavlTree.Fits t) {x : IavlLeaf × List Step}
    (mem : x ∈ iavlCode.paths t) : (iavlProof x).root .iavl = .ok (iavlCode.root t) := by
  obtain ⟨a, path⟩ := x
  have leaf_fits := fits.subtree (Tree.leaf_mem_subtrees (iavlCode.mem_leaves mem))
  refine root_ok.2 ⟨checkLeaf_iavl.2 ⟨a.version, ?_, leaf_fits.reads⟩, ?_, ?_⟩
  · have positive : 1 ≤ a.version := leaf_fits.1
    omega
  · exact checkInner_path fits mem
  · rw [show (iavlProof (a, path)).path.reverse = path from reverse_reverse path]
    exact iavlCode.climb_paths mem

theorem multistore_step {m : Multistore} {a : StoreRoot} {path : List Step}
    (mem : (a, path) ∈ multistoreCode.paths m) (layer : ℤ) (s : Step) (step : s ∈ path) :
    checkInner .tendermint layer s = .ok () := by
  induction m generalizing path with
  | leaf b =>
    obtain ⟨-, rfl⟩ := Prod.mk.inj (mem_singleton.1 mem)
    cases step
  | node b l r ihl ihr =>
    have digest := length_root multistoreCode rfl
    rcases mem_append.1 mem with left | right
    · obtain ⟨rest, rfl, inside⟩ := Code.mem_below.1 left
      rcases mem_cons.1 step with rfl | step
      · exact ensure_ok.2 ⟨rfl, .inl ⟨rfl, digest r⟩⟩
      · exact ihl inside step
    · obtain ⟨rest, rfl, inside⟩ := Code.mem_below.1 right
      rcases mem_cons.1 step with rfl | step
      · refine ensure_ok.2 ⟨rfl, .inr ⟨?_, rfl⟩⟩
        simp [Code.rightStep, multistoreCode, ← digest l]
      · exact ihr inside step

theorem multistoreProof_root {m : Multistore} {x : StoreRoot × List Step}
    (mem : x ∈ multistoreCode.paths m) :
    (multistoreProof x).root .tendermint = .ok (multistoreCode.root m) := by
  obtain ⟨a, path⟩ := x
  refine root_ok.2 ⟨ensure_ok.2 rfl, fun i s at_i => ?_, ?_⟩
  · have step : s ∈ path.reverse := mem_of_getElem? at_i
    exact multistore_step mem _ s (mem_reverse.1 step)
  · rw [show (multistoreProof (a, path)).path.reverse = path from reverse_reverse path]
    exact multistoreCode.climb_paths mem

end Tendermint

namespace Tendermint

/-! ### Keys in order -/

section
variable {α : Type} {f : α → Bytes} {l A B : List α} {a b : α} {k : Bytes}

theorem filter_around (sorted : (l.map f).Pairwise (· < ·)) (absent : k ∉ l.map f) :
    l = l.filter (fun a => f a < k) ++ l.filter (fun a => k < f a) := by
  induction l with
  | nil => rfl
  | cons a l ih =>
    rw [map_cons, pairwise_cons] at sorted
    obtain ⟨other, absent⟩ := not_or.1 (fun here => absent (mem_cons.2 here))
    rcases Std.lt_trichotomy (f a) k with low | same | high
    · have no : ¬ k < f a := fun h => Std.lt_irrefl (Std.lt_trans low h)
      rw [filter_cons_of_pos (by simpa using low), filter_cons_of_neg (by simpa using no),
        cons_append, ← ih sorted.2 absent]
    · exact absurd same.symm other
    · have above (c : α) (mem : c ∈ a :: l) : k < f c := by
        rcases mem_cons.1 mem with rfl | mem
        · exact high
        · exact Std.lt_trans high (sorted.1 _ (mem_map_of_mem mem))
      have below : (a :: l).filter (fun a => f a < k) = [] := by
        rw [filter_eq_nil_iff]
        intro c mem low
        exact Std.lt_irrefl (Std.lt_trans (above c mem) (of_decide_eq_true low))
      rw [below, nil_append, filter_eq_self.2]
      intro c mem
      exact decide_eq_true (above c mem)

theorem absent_between (sorted : (l.map f).Pairwise (· < ·)) (split : l = A ++ a :: b :: B)
    (low : f a < k) (high : k < f b) : k ∉ l.map f := by
  subst split
  simp only [map_append, map_cons, pairwise_append, pairwise_cons,
    mem_cons] at sorted
  obtain ⟨-, ⟨-, after, -⟩, before⟩ := sorted
  intro mem
  simp only [map_append, map_cons, mem_append, mem_cons] at mem
  rcases mem with mem | rfl | rfl | mem
  · exact Std.lt_irrefl (Std.lt_trans (before k mem _ (.inl rfl)) low)
  · exact Std.lt_irrefl low
  · exact Std.lt_irrefl high
  · exact Std.lt_irrefl (Std.lt_trans (after k mem) high)

theorem absent_after (sorted : (l.map f).Pairwise (· < ·)) (split : l = A ++ [a])
    (low : f a < k) : k ∉ l.map f := by
  subst split
  simp only [map_append, map_cons, map_nil, pairwise_append,
    mem_singleton] at sorted
  obtain ⟨-, -, before⟩ := sorted
  intro mem
  simp only [map_append, map_cons, map_nil, mem_append,
    mem_singleton] at mem
  rcases mem with mem | rfl
  · exact Std.lt_irrefl (Std.lt_trans (before k mem _ rfl) low)
  · exact Std.lt_irrefl low

theorem absent_before (sorted : (l.map f).Pairwise (· < ·)) (split : l = a :: B)
    (high : k < f a) : k ∉ l.map f := by
  subst split
  rw [map_cons, pairwise_cons] at sorted
  rw [map_cons, mem_cons]
  rintro (rfl | mem)
  · exact Std.lt_irrefl high
  · exact Std.lt_irrefl (Std.lt_trans (sorted.1 k mem) high)

end

/-! ### Encodings -/

/-- The lengths the reader of a proof takes. -/
structure ExistenceProof.Fits (p : ExistenceProof) : Prop where
  key : p.key.length ≤ 1024
  value : p.value.length ≤ 1024
  leafPrefix : p.leafPrefix.length ≤ 64
  path : p.path.length ≤ maxPath
  steps : ∀ s ∈ p.path, s.1.length ≤ 128 ∧ s.2.length ≤ 128

theorem reads_bytes {max : ℕ} {b : Bytes} (small : b.length ≤ max) (bounded : max ≤ 1024) :
    Reads (readBeBytes max) (writeBeBytes b) b :=
  Reads.readBeBytes (by omega) small

theorem ExistenceProof.Fits.reads {p : ExistenceProof} (fits : p.Fits) :
    Reads ExistenceProof.read p.write p := by
  have short : p.path.length ≤ 64 := fits.path
  unfold ExistenceProof.read ExistenceProof.write
  simp only [append_assoc]
  refine (reads_bytes fits.key le_rfl).bind ?_
  refine (reads_bytes fits.value le_rfl).bind ?_
  refine (reads_bytes fits.leafPrefix (by omega)).bind ?_
  refine (Reads.readBe (by omega)).bind ?_
  refine Reads.seq (Reads.require fits.path _) (nil_append _).symm ?_
  refine Reads.seq (Reads.repeated fun s mem => ?_) (append_nil _).symm (Reads.pure _)
  obtain ⟨before, after⟩ := fits.steps s mem
  refine (reads_bytes before (by omega)).bind ?_
  exact Reads.seq (reads_bytes after (by omega)) (append_nil _).symm (Reads.pure _)

theorem reads_side {p : Option ExistenceProof} (fits : ∀ e ∈ p, e.Fits) :
    Reads EntryProof.readSide (EntryProof.writeSide p) p := by
  cases p with
  | none =>
    refine Reads.seq (Reads.readBe (by omega)) (append_nil _).symm ?_
    rw [if_pos rfl]
    exact Reads.pure _
  | some e =>
    refine Reads.seq (Reads.readBe (by omega)) rfl ?_
    rw [if_neg (by omega), if_pos rfl]
    exact Reads.seq (fits e rfl).reads (append_nil _).symm (Reads.pure _)

theorem EntryProof.decode_absent {height : ℕ} {key : Bytes} {left right : Option ExistenceProof}
    {store : ExistenceProof} (bounded : height < 2 ^ 64) (short : key.length ≤ 1024)
    (leftFits : ∀ e ∈ left, e.Fits) (rightFits : ∀ e ∈ right, e.Fits) (storeFits : store.Fits) :
    EntryProof.decode (EntryProof.encode ⟨height, .absent key left right, store⟩) =
      .ok ⟨height, .absent key left right, store⟩ := by
  apply Reads.decodeWith
  unfold EntryProof.encode
  simp only [append_assoc]
  refine (Reads.readBe (by omega)).bind ?_
  have entry : Reads EntryProof.readEntry (beBytes 1 1 ++ (writeBeBytes key ++
      (EntryProof.writeSide left ++ EntryProof.writeSide right))) (.absent key left right) := by
    refine (Reads.readBe (by omega)).bind ?_
    rw [if_neg (by omega), if_pos rfl]
    refine (reads_bytes short le_rfl).bind ?_
    refine (reads_side leftFits).bind ?_
    exact Reads.seq (reads_side rightFits) (append_nil _).symm (Reads.pure _)
  refine Reads.seq (y := store.write) entry (by simp only [append_assoc]) ?_
  exact Reads.seq storeFits.reads (append_nil _).symm (Reads.pure _)

/-! ### Neighbours -/

theorem iavlSide_eq_one {s : PathStep} : iavlSide s = 1 ↔ s.2 = [] := by
  unfold iavlSide
  split_ifs with h <;> simp [h]

theorem iavlSide_eq_zero {s : PathStep} : iavlSide s = 0 ↔ s.2 ≠ [] := by
  unfold iavlSide
  split_ifs with h <;> simp [h]

theorem rightmost_iff {path : List PathStep} : rightmost path = true ↔ Rightmost path := by
  simp [rightmost, Rightmost, iavlSide_eq_one]

theorem leftmost_iff {path : List PathStep} : leftmost path = true ↔ Leftmost path := by
  simp [leftmost, Leftmost, iavlSide_eq_zero]

theorem partedRight_iff {left right : List PathStep} :
    partedRight left right = true ↔ Parted left right := by
  induction left generalizing right with
  | nil => simp [partedRight, Parted]
  | cons l left ih =>
    cases right with
    | nil => simp [partedRight, Parted]
    | cons r right =>
      unfold partedRight Parted
      split_ifs with same
      · exact ih
      · simp only [Bool.and_eq_true, decide_eq_true_eq, iavlSide_eq_zero, iavlSide_eq_one,
          rightmost_iff, leftmost_iff, and_assoc]

theorem rightmost_reverse {path : List PathStep} : Rightmost path.reverse ↔ Rightmost path := by
  simp [Rightmost]

theorem leftmost_reverse {path : List PathStep} : Leftmost path.reverse ↔ Leftmost path := by
  simp [Leftmost]

section
variable [RouteCrypto]

theorem iavl_hash_ne_nil (y : Bytes) : iavlCode.hash y ≠ [] := by
  intro nothing
  have digest := RouteCrypto.length_sha256 y
  rw [show sha256 y = [] from nothing] at digest
  cases digest

theorem absent_of_enclose {t : IavlTree} {key : Bytes} {left right : Option ExistenceProof}
    (sorted : (t.leaves.map IavlLeaf.key).Pairwise (· < ·))
    (proven : ∀ p ∈ left.toList ++ right.toList,
      ∃ a, (a, p.path.reverse) ∈ iavlCode.paths t ∧ a.key = p.key)
    (encloses : enclose key left right = true) : key ∉ t.leaves.map IavlLeaf.key := by
  have leaves {x y : IavlLeaf × List Step} {A B : List (IavlLeaf × List Step)}
      (split : iavlCode.paths t = A ++ x :: y :: B) :
      t.leaves = A.map Prod.fst ++ x.1 :: y.1 :: B.map Prod.fst := by
    rw [← iavlCode.map_fst_paths t, split, map_append, map_cons, map_cons]
  cases left with
  | none =>
    cases right with
    | none => cases encloses
    | some r =>
      obtain ⟨a, mem, key_a⟩ := proven r (by simp)
      simp only [enclose, Bool.and_eq_true, decide_eq_true_eq, leftmost_iff] at encloses
      obtain ⟨B, first⟩ := head?_eq_some_iff.1
        (iavlCode.first_of_leftmost mem (leftmost_reverse.2 encloses.2))
      refine absent_before sorted (a := a) (B := B.map Prod.fst) ?_ (key_a ▸ encloses.1)
      rw [← iavlCode.map_fst_paths t, first, map_cons]
  | some l =>
    obtain ⟨a, mem, key_a⟩ := proven l (by simp)
    cases right with
    | none =>
      simp only [enclose, Bool.and_eq_true, decide_eq_true_eq, rightmost_iff] at encloses
      obtain ⟨A, last⟩ := getLast?_eq_some_iff.1
        (iavlCode.last_of_rightmost iavl_hash_ne_nil mem (rightmost_reverse.2 encloses.2))
      refine absent_after sorted (a := a) (A := A.map Prod.fst) ?_ (key_a ▸ encloses.1)
      rw [← iavlCode.map_fst_paths t, last, map_append, map_cons, map_nil]
    | some r =>
      obtain ⟨b, mem_b, key_b⟩ := proven r (by simp)
      simp only [enclose, Bool.and_eq_true, decide_eq_true_eq, leftNeighbour,
        partedRight_iff] at encloses
      obtain ⟨A, B, split⟩ := iavlCode.adjacent_of_parted iavl_hash_ne_nil mem mem_b encloses.2
      exact absent_between sorted (leaves split) (key_a ▸ encloses.1.1) (key_b ▸ encloses.1.2)

theorem leftOf_eq (t : IavlTree) (key : Bytes) : IavlTree.leftOf t key =
    ((iavlCode.paths t).filter fun x => x.1.key < key).getLast?.map iavlProof := by
  rw [IavlTree.leftOf, IavlTree.proofs, filter_map, getLast?_map]
  rfl

theorem rightOf_eq (t : IavlTree) (key : Bytes) : IavlTree.rightOf t key =
    ((iavlCode.paths t).filter fun x => key < x.1.key).head?.map iavlProof := by
  rw [IavlTree.rightOf, IavlTree.proofs, filter_map, head?_map]
  rfl

theorem enclose_neighbours {t : IavlTree} {key : Bytes}
    (sorted : (t.leaves.map IavlLeaf.key).Pairwise (· < ·))
    (absent : key ∉ t.leaves.map IavlLeaf.key) :
    enclose key (IavlTree.leftOf t key) (IavlTree.rightOf t key) = true := by
  have keys : (iavlCode.paths t).map (fun x => x.1.key) = t.leaves.map IavlLeaf.key := by
    rw [← iavlCode.map_fst_paths t, map_map]
    rfl
  have split := filter_around (keys ▸ sorted) (keys ▸ absent)
  rw [leftOf_eq, rightOf_eq]
  set low := (iavlCode.paths t).filter fun x => x.1.key < key
  set high := (iavlCode.paths t).filter fun x => key < x.1.key
  have below (x : IavlLeaf × List Step) (mem : x ∈ low) : x.1.key < key :=
    of_decide_eq_true (mem_filter.1 mem).2
  have above (x : IavlLeaf × List Step) (mem : x ∈ high) : key < x.1.key :=
    of_decide_eq_true (mem_filter.1 mem).2
  cases last : low.getLast? with
  | none =>
    rw [getLast?_eq_none_iff.1 last, nil_append] at split
    obtain ⟨y, rest, eq⟩ := exists_cons_of_ne_nil (split ▸ iavlCode.paths_ne_nil t)
    have first : (iavlCode.paths t).head? = some y := by rw [split, eq]; rfl
    have left := iavlCode.leftmost_of_first iavl_hash_ne_nil first
    simp only [eq, head?_cons, Option.map_none, Option.map_some, enclose, Bool.and_eq_true,
      decide_eq_true_eq, leftmost_iff]
    exact ⟨above y (eq ▸ mem_cons_self), leftmost_reverse.2 left⟩
  | some x =>
    obtain ⟨A, eq⟩ := getLast?_eq_some_iff.1 last
    have less := below x (mem_of_getLast? last)
    cases first : high.head? with
    | none =>
      rw [head?_eq_none_iff.1 first, append_nil] at split
      have right := iavlCode.rightmost_of_last (split ▸ last)
      simp only [Option.map_none, Option.map_some, enclose, Bool.and_eq_true, decide_eq_true_eq,
        rightmost_iff]
      exact ⟨less, rightmost_reverse.2 right⟩
    | some y =>
      obtain ⟨B, eq'⟩ := head?_eq_some_iff.1 first
      have parted := iavlCode.parted_of_adjacent iavl_hash_ne_nil
        (show Adjacent (iavlCode.paths t) x y from ⟨A, B, by rw [split, eq, eq']; simp⟩)
      simp only [Option.map_some, enclose, Bool.and_eq_true, decide_eq_true_eq, leftNeighbour,
        partedRight_iff]
      refine ⟨⟨less, above y (mem_of_head? first)⟩, ?_⟩
      simpa only [iavlProof, reverse_reverse] using parted

end

end Tendermint
end Tenzro.Bridge
