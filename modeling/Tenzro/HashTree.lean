import Tenzro.ByteCodec

set_option autoImplicit false

/-!
# Leaves and their paths in a hash tree

A path lists the steps from the root down to a leaf; a step keeps what stands
before and after the hash of the child it passes through.
-/
namespace HashTree
open List

inductive Tree (α β : Type) where
  | leaf (a : α)
  | node (b : β) (left right : Tree α β)
deriving DecidableEq, Repr

abbrev Step := Bytes × Bytes

def Apart (hash : Bytes → Bytes) (xs ys : List Bytes) : Prop :=
  ∀ x ∈ xs, ∀ y ∈ ys, hash x = hash y → x = y

instance (hash : Bytes → Bytes) (xs ys : List Bytes) : Decidable (Apart hash xs ys) :=
  inferInstanceAs (Decidable (∀ x ∈ xs, ∀ y ∈ ys, hash x = hash y → x = y))

section
variable (hash : Bytes → Bytes)

def climb : List Step → Bytes → Bytes
  | [], x => hash x
  | s :: path, x => hash (s.1 ++ (climb path x ++ s.2))

def climbed : List Step → Bytes → List Bytes
  | [], x => [x]
  | s :: path, x => (s.1 ++ (climb hash path x ++ s.2)) :: climbed path x

theorem climb_eq_hash (path : List Step) (x : Bytes) : ∃ y, climb hash path x = hash y := by
  cases path with
  | nil => exact ⟨x, rfl⟩
  | cons s path => exact ⟨_, rfl⟩

theorem climb_append (path : List Step) (s : Step) (x : Bytes) :
    climb hash (path ++ [s]) x = climb hash path (s.1 ++ (hash x ++ s.2)) := by
  induction path with
  | nil => rfl
  | cons first path ih => simp only [cons_append, climb, ih]

end

/-- How leaves and inner nodes are written before they are hashed. -/
structure Code (α β : Type) where
  hash : Bytes → Bytes
  leaf : α → Bytes
  before : β → Tree α β → Tree α β → Bytes
  between : Bytes

variable {α β : Type}

namespace Tree

def leaves : Tree α β → List α
  | leaf a => [a]
  | node _ l r => l.leaves ++ r.leaves

def subtrees : Tree α β → List (Tree α β)
  | leaf a => [leaf a]
  | node b l r => node b l r :: (l.subtrees ++ r.subtrees)

theorem self_mem_subtrees (t : Tree α β) : t ∈ t.subtrees := by
  cases t with
  | leaf a => exact mem_singleton.2 rfl
  | node b l r => exact mem_cons_self

theorem leaf_mem_subtrees {t : Tree α β} {a : α} (mem : a ∈ t.leaves) : leaf a ∈ t.subtrees := by
  induction t with
  | leaf b =>
    rw [mem_singleton.1 mem]
    exact self_mem_subtrees _
  | node b l r ihl ihr =>
    rcases mem_append.1 mem with left | right
    · exact mem_cons_of_mem _ (mem_append_left _ (ihl left))
    · exact mem_cons_of_mem _ (mem_append_right _ (ihr right))

theorem leaves_ne_nil (t : Tree α β) : t.leaves ≠ [] := by
  induction t with
  | leaf a => simp [leaves]
  | node b l r ihl ihr => simp [leaves, ihl]

end Tree

namespace Code
variable (code : Code α β)

def root : Tree α β → Bytes
  | .leaf a => code.hash (code.leaf a)
  | .node b l r => code.hash (code.before b l r ++ (root l ++ (code.between ++ root r)))

def written : Tree α β → Bytes
  | .leaf a => code.leaf a
  | .node b l r => code.before b l r ++ (code.root l ++ (code.between ++ code.root r))

theorem hash_written (t : Tree α β) : code.hash (code.written t) = code.root t := by
  cases t with
  | leaf a => rfl
  | node b l r => rfl

def leftStep (b : β) (l r : Tree α β) : Step := (code.before b l r, code.between ++ code.root r)

def rightStep (b : β) (l r : Tree α β) : Step :=
  (code.before b l r ++ (code.root l ++ code.between), [])

def below (s : Step) (x : α × List Step) : α × List Step := (x.1, s :: x.2)

def paths : Tree α β → List (α × List Step)
  | .leaf a => [(a, [])]
  | .node b l r =>
    (paths l).map (below (code.leftStep b l r)) ++ (paths r).map (below (code.rightStep b l r))

theorem mem_below {l : List (α × List Step)} {s : Step} {a : α} {path : List Step} :
    (a, path) ∈ l.map (below s) ↔ ∃ rest, path = s :: rest ∧ (a, rest) ∈ l := by
  constructor
  · intro mem
    obtain ⟨⟨b, rest⟩, inside, same⟩ := mem_map.1 mem
    obtain ⟨rfl, rfl⟩ := Prod.mk.inj same
    exact ⟨rest, rfl, inside⟩
  · rintro ⟨rest, rfl, inside⟩
    exact mem_map.2 ⟨(a, rest), inside, rfl⟩

theorem map_fst_paths (t : Tree α β) : (code.paths t).map Prod.fst = t.leaves := by
  induction t with
  | leaf a => rfl
  | node b l r ihl ihr =>
    simp only [paths, Tree.leaves, map_append, map_map, ← ihl, ← ihr]
    rfl

theorem mem_leaves {t : Tree α β} {a : α} {path : List Step} (mem : (a, path) ∈ code.paths t) :
    a ∈ t.leaves := by
  rw [← code.map_fst_paths t]
  exact mem_map_of_mem mem

theorem paths_ne_nil (t : Tree α β) : code.paths t ≠ [] := by
  intro nothing
  have leaves := code.map_fst_paths t
  rw [nothing] at leaves
  exact t.leaves_ne_nil leaves.symm

theorem climb_paths {t : Tree α β} {a : α} {path : List Step} (mem : (a, path) ∈ code.paths t) :
    climb code.hash path (code.leaf a) = code.root t := by
  induction t generalizing path with
  | leaf b =>
    obtain ⟨rfl, rfl⟩ := Prod.mk.inj (mem_singleton.1 mem)
    rfl
  | node b l r ihl ihr =>
    rcases mem_append.1 mem with left | right
    · obtain ⟨rest, rfl, inside⟩ := mem_below.1 left
      simp only [climb, leftStep, ihl inside, root]
    · obtain ⟨rest, rfl, inside⟩ := mem_below.1 right
      simp only [climb, rightStep, ihr inside, root, append_assoc, append_nil]

/-! ### Collisions -/

/-- What a genuine step of the code can only be a step of. -/
structure Reads (genuine : Step → Prop) (x : Bytes) (t : Tree α β) : Prop where
  leaf : x = code.written t → ∃ a, t = .leaf a
  step : ∀ s y, genuine s → s.1 ++ (code.hash y ++ s.2) = code.written t →
    ∃ b l r, t = .node b l r ∧ (s = code.leftStep b l r ∧ code.hash y = code.root l ∨
      s = code.rightStep b l r ∧ code.hash y = code.root r)

theorem mem_paths {genuine : Step → Prop} {t : Tree α β} {path : List Step} {x : Bytes}
    (reads : ∀ u ∈ t.subtrees, code.Reads genuine x u) (steps : ∀ s ∈ path, genuine s)
    (reaches : climb code.hash path x = code.root t)
    (apart : Apart code.hash (climbed code.hash path x) (t.subtrees.map code.written)) :
    ∃ a, (a, path) ∈ code.paths t ∧ x = code.leaf a := by
  induction path generalizing t with
  | nil =>
    have same : x = code.written t := apart x (mem_singleton.2 rfl) _
      (mem_map_of_mem t.self_mem_subtrees) (reaches.trans (code.hash_written t).symm)
    obtain ⟨a, rfl⟩ := (reads t t.self_mem_subtrees).leaf same
    exact ⟨a, mem_singleton.2 rfl, same⟩
  | cons s path ih =>
    obtain ⟨first, rest⟩ := forall_mem_cons.1 steps
    have same : s.1 ++ (climb code.hash path x ++ s.2) = code.written t :=
      apart _ mem_cons_self _ (mem_map_of_mem t.self_mem_subtrees)
        (reaches.trans (code.hash_written t).symm)
    obtain ⟨y, below⟩ := climb_eq_hash code.hash path x
    rw [below] at same
    obtain ⟨b, l, r, rfl, ⟨rfl, child⟩ | ⟨rfl, child⟩⟩ :=
      (reads t t.self_mem_subtrees).step s y first same
    · have inside (u : Tree α β) (mem : u ∈ l.subtrees) : u ∈ (Tree.node b l r).subtrees :=
        mem_cons_of_mem _ (mem_append_left _ mem)
      obtain ⟨a, mem, leaf⟩ := ih (fun u mem => reads u (inside u mem)) rest (below.trans child)
        fun x hx y hy => by
          obtain ⟨u, mem, rfl⟩ := mem_map.1 hy
          exact apart x (mem_cons_of_mem _ hx) _ (mem_map_of_mem (inside u mem))
      exact ⟨a, mem_append_left _ (mem_below.2 ⟨path, rfl, mem⟩), leaf⟩
    · have inside (u : Tree α β) (mem : u ∈ r.subtrees) : u ∈ (Tree.node b l r).subtrees :=
        mem_cons_of_mem _ (mem_append_right _ mem)
      obtain ⟨a, mem, leaf⟩ := ih (fun u mem => reads u (inside u mem)) rest (below.trans child)
        fun x hx y hy => by
          obtain ⟨u, mem, rfl⟩ := mem_map.1 hy
          exact apart x (mem_cons_of_mem _ hx) _ (mem_map_of_mem (inside u mem))
      exact ⟨a, mem_append_right _ (mem_below.2 ⟨path, rfl, mem⟩), leaf⟩

end Code

/-! ### Neighbours -/

def Rightmost (path : List Step) : Prop := ∀ s ∈ path, s.2 = []

def Leftmost (path : List Step) : Prop := ∀ s ∈ path, s.2 ≠ []

/-- Where the paths part, the first goes left and then keeps right, the second goes right and
then keeps left. -/
def Parted : List Step → List Step → Prop
  | s :: path, u :: other =>
    if s = u then Parted path other else (s.2 ≠ [] ∧ u.2 = []) ∧ Rightmost path ∧ Leftmost other
  | [], _ => False
  | _ :: _, [] => False

def Adjacent {γ : Type} (l : List γ) (x y : γ) : Prop := ∃ A B, l = A ++ x :: y :: B

namespace Code
variable (code : Code α β) {b : β} {l r t : Tree α β} {x y : α × List Step}

theorem getLast?_paths_node : (code.paths (.node b l r)).getLast? =
    (code.paths r).getLast?.map (below (code.rightStep b l r)) := by
  obtain ⟨z, last⟩ := Option.isSome_iff_exists.1
    (getLast?_isSome.2 (code.paths_ne_nil r))
  rw [paths, getLast?_append, getLast?_map, last]
  rfl

theorem head?_paths_node : (code.paths (.node b l r)).head? =
    (code.paths l).head?.map (below (code.leftStep b l r)) := by
  obtain ⟨z, first⟩ := Option.isSome_iff_exists.1
    (isSome_head?.2 (code.paths_ne_nil l))
  rw [paths, head?_append, head?_map, first]
  rfl

theorem rightmost_of_last (last : (code.paths t).getLast? = some x) : Rightmost x.2 := by
  induction t generalizing x with
  | leaf a =>
    cases last
    exact forall_mem_nil _
  | node b l r ihl ihr =>
    rw [getLast?_paths_node] at last
    obtain ⟨z, inside, rfl⟩ := Option.map_eq_some_iff.1 last
    exact forall_mem_cons.2 ⟨rfl, ihr inside⟩

theorem first_of_leftmost (mem : x ∈ code.paths t) (left : Leftmost x.2) :
    (code.paths t).head? = some x := by
  induction t generalizing x with
  | leaf a => rw [mem_singleton.1 mem]; rfl
  | node b l r ihl ihr =>
    obtain ⟨a, path⟩ := x
    rcases mem_append.1 mem with inside | right
    · obtain ⟨rest, rfl, under⟩ := mem_below.1 inside
      rw [head?_paths_node, ihl (x := (a, rest)) under (forall_mem_cons.1 left).2]
      rfl
    · obtain ⟨rest, rfl, -⟩ := mem_below.1 right
      exact absurd rfl (left _ mem_cons_self)

section
variable (some_hash : ∀ y, code.hash y ≠ [])
include some_hash

theorem root_ne_nil (t : Tree α β) : code.root t ≠ [] := code.hash_written t ▸ some_hash _

theorem leftStep_after : (code.leftStep b l r).2 ≠ [] := by
  intro nothing
  exact code.root_ne_nil some_hash r (append_eq_nil_iff.1 nothing).2

theorem steps_ne : code.leftStep b l r ≠ code.rightStep b l r := fun same =>
  code.leftStep_after some_hash (congrArg Prod.snd same)

theorem leftmost_of_first (first : (code.paths t).head? = some x) : Leftmost x.2 := by
  induction t generalizing x with
  | leaf a =>
    cases first
    exact forall_mem_nil _
  | node b l r ihl ihr =>
    rw [head?_paths_node] at first
    obtain ⟨z, inside, rfl⟩ := Option.map_eq_some_iff.1 first
    exact forall_mem_cons.2 ⟨code.leftStep_after some_hash, ihl inside⟩

theorem last_of_rightmost (mem : x ∈ code.paths t) (right : Rightmost x.2) :
    (code.paths t).getLast? = some x := by
  induction t generalizing x with
  | leaf a => rw [mem_singleton.1 mem]; rfl
  | node b l r ihl ihr =>
    obtain ⟨a, path⟩ := x
    rcases mem_append.1 mem with left | inside
    · obtain ⟨rest, rfl, -⟩ := mem_below.1 left
      exact absurd (right _ mem_cons_self) (code.leftStep_after some_hash)
    · obtain ⟨rest, rfl, under⟩ := mem_below.1 inside
      rw [getLast?_paths_node, ihr (x := (a, rest)) under (forall_mem_cons.1 right).2]
      rfl

theorem adjacent_of_parted (first : x ∈ code.paths t) (second : y ∈ code.paths t)
    (parted : Parted x.2 y.2) : Adjacent (code.paths t) x y := by
  induction t generalizing x y with
  | leaf a =>
    rw [mem_singleton.1 first] at parted
    exact parted.elim
  | node b l r ihl ihr =>
    obtain ⟨a, path⟩ := x
    obtain ⟨c, other⟩ := y
    rcases mem_append.1 first with first | first <;>
      rcases mem_append.1 second with second | second
    · obtain ⟨p, rfl, here⟩ := mem_below.1 first
      obtain ⟨q, rfl, there⟩ := mem_below.1 second
      rw [Parted, if_pos rfl] at parted
      obtain ⟨A, B, inside⟩ := ihl (x := (a, p)) (y := (c, q)) here there parted
      refine ⟨A.map (below (code.leftStep b l r)), B.map (below (code.leftStep b l r)) ++
        (code.paths r).map (below (code.rightStep b l r)), ?_⟩
      simp [paths, inside, below]
    · obtain ⟨p, rfl, here⟩ := mem_below.1 first
      obtain ⟨q, rfl, there⟩ := mem_below.1 second
      rw [Parted, if_neg (code.steps_ne some_hash)] at parted
      obtain ⟨A, last⟩ := getLast?_eq_some_iff.1
        (code.last_of_rightmost some_hash (x := (a, p)) here parted.2.1)
      obtain ⟨B, start⟩ := head?_eq_some_iff.1
        (code.first_of_leftmost (x := (c, q)) there parted.2.2)
      refine ⟨A.map (below (code.leftStep b l r)), B.map (below (code.rightStep b l r)), ?_⟩
      simp [paths, last, start, below]
    · obtain ⟨p, rfl, here⟩ := mem_below.1 first
      obtain ⟨q, rfl, there⟩ := mem_below.1 second
      rw [Parted, if_neg (code.steps_ne some_hash).symm] at parted
      exact absurd rfl parted.1.1
    · obtain ⟨p, rfl, here⟩ := mem_below.1 first
      obtain ⟨q, rfl, there⟩ := mem_below.1 second
      rw [Parted, if_pos rfl] at parted
      obtain ⟨A, B, inside⟩ := ihr (x := (a, p)) (y := (c, q)) here there parted
      refine ⟨(code.paths l).map (below (code.leftStep b l r)) ++
        A.map (below (code.rightStep b l r)), B.map (below (code.rightStep b l r)), ?_⟩
      simp [paths, inside, below]

theorem parted_of_adjacent (adjacent : Adjacent (code.paths t) x y) : Parted x.2 y.2 := by
  obtain ⟨A, B, split⟩ := adjacent
  induction t generalizing x y A B with
  | leaf a =>
    have length := congrArg List.length split
    simp only [paths, length_append, length_cons, length_nil] at length
    omega
  | node b l r ihl ihr =>
    rw [paths] at split
    rcases append_eq_append_iff.1 split with ⟨A', -, inside⟩ | ⟨C, inside, rest⟩
    · obtain ⟨A₁, B₁, eq, -, tail⟩ := map_eq_append_iff.1 inside
      obtain ⟨x, B₂, rfl, rfl, more⟩ := map_eq_cons_iff.1 tail
      obtain ⟨y, B₃, rfl, rfl, -⟩ := map_eq_cons_iff.1 more
      have parted := ihr A₁ B₃ eq
      simp only [below, Parted, if_pos]
      exact parted
    · obtain ⟨A₁, B₁, eq, -, rfl⟩ := map_eq_append_iff.1 inside
      match B₁, rest with
      | [], rest =>
        obtain ⟨x, B₂, start, rfl, more⟩ := map_eq_cons_iff.1 rest.symm
        obtain ⟨y, B₃, rfl, rfl, -⟩ := map_eq_cons_iff.1 more
        have parted := ihr [] B₃ start
        simp only [below, Parted, if_pos]
        exact parted
      | [z], rest =>
        obtain ⟨rfl, more⟩ := List.cons.inj rest
        obtain ⟨y, B₂, start, rfl, -⟩ := map_eq_cons_iff.1 more.symm
        have last : (code.paths l).getLast? = some z := by
          rw [eq]
          exact getLast?_concat
        have first : (code.paths r).head? = some y := by
          rw [start]
          rfl
        simp only [below, Parted, if_neg (code.steps_ne some_hash)]
        exact ⟨⟨code.leftStep_after some_hash, rfl⟩, code.rightmost_of_last last,
          code.leftmost_of_first some_hash first⟩
      | z :: w :: B₂, rest =>
        obtain ⟨rfl, more⟩ := List.cons.inj rest
        obtain ⟨rfl, -⟩ := List.cons.inj more
        have parted := ihl A₁ B₂ eq
        simp only [below, Parted, if_pos]
        exact parted

end

end Code

end HashTree
