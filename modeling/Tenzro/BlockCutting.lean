import Tenzro.OwnBatches
import Tenzro.ExactlyOnce

set_option autoImplicit false
set_option linter.dupNamespace false

/-!
# The blocks a commit cuts its batches into

A commit that orders a transaction makes blocks of whole batches, in order.
-/
namespace Tenzro
open List

def declared (l : List OrderedBatch) : ℕ := (l.map (fun b => b.batch.transactions)).sum

theorem declared_append (l l' : List OrderedBatch) : declared (l ++ l') = declared l + declared l' := by
  unfold declared
  rw [map_append, sum_append]

theorem declared_single (b : OrderedBatch) : declared [b] = b.batch.transactions := by
  unfold declared
  exact sum_singleton

namespace Core

theorem blockChunks_nonempty (max : ℕ) (l : List OrderedBatch) (n : ℕ) (chunk : List OrderedBatch)
    (counted : n = declared chunk) (some' : chunk ≠ [] ∨ l ≠ []) :
    ∀ block ∈ blockChunks max l n chunk, block ≠ [] := by
  induction l generalizing n chunk with
  | nil =>
    intro block mem
    rw [blockChunks, mem_singleton] at mem
    rw [mem]
    simpa using some'
  | cons b l ih =>
    have filled : chunk ++ [b] ≠ [] := by simp
    unfold blockChunks
    split_ifs with cut
    · rw [forall_mem_cons]
      refine ⟨?_, ih _ [b] (declared_single b).symm (.inl (cons_ne_nil b []))⟩
      rintro rfl
      rw [counted] at cut
      exact absurd cut.1 (lt_irrefl 0)
    · exact ih _ (chunk ++ [b]) (by rw [declared_append, declared_single, counted]) (.inl filled)

theorem blockChunks_le (max : ℕ) (l : List OrderedBatch) (n : ℕ) (chunk : List OrderedBatch)
    (counted : n = declared chunk)
    (fits : (∀ b ∈ chunk, b.batch.transactions ≤ max) → n ≤ max) :
    ∀ block ∈ blockChunks max l n chunk,
      (∀ b ∈ block, b.batch.transactions ≤ max) → declared block ≤ max := by
  induction l generalizing n chunk with
  | nil =>
    intro block mem
    rw [blockChunks, mem_singleton] at mem
    rw [mem, ← counted]
    exact fits
  | cons b l ih =>
    unfold blockChunks
    split_ifs with cut
    · rw [forall_mem_cons]
      refine ⟨by rw [← counted]; exact fits, ?_⟩
      exact ih _ [b] (declared_single b).symm (fun small => small b (mem_singleton_self b))
    · refine ih _ (chunk ++ [b]) (by rw [declared_append, declared_single, counted]) ?_
      intro small
      have last := small b (mem_append_right _ (mem_singleton_self b))
      omega

def cutBlocks (released : List OrderedBatch) : List (List OrderedBatch) :=
  if released.any (fun b => 0 < b.batch.transactions)
  then blockChunks maxTransactionsPerBlock released 0 [] else []

theorem cutBlocks_nonempty (released : List OrderedBatch) :
    ∀ block ∈ cutBlocks released, block ≠ [] := by
  unfold cutBlocks
  split_ifs with holds
  · refine blockChunks_nonempty _ _ 0 [] rfl (.inr ?_)
    rintro rfl
    exact absurd holds (by simp)
  · exact forall_mem_nil _

theorem cutBlocks_le (released : List OrderedBatch) :
    ∀ block ∈ cutBlocks released,
      (∀ b ∈ block, b.batch.transactions ≤ maxTransactionsPerBlock) →
        declared block ≤ maxTransactionsPerBlock := by
  unfold cutBlocks
  split_ifs
  · exact blockChunks_le _ _ 0 [] rfl (fun _ => Nat.zero_le _)
  · exact forall_mem_nil _

variable [Hashing]

theorem flatten_cutBlocks (released : List OrderedBatch) :
    (cutBlocks released).flatten =
      if ∃ b ∈ released, 0 < b.batch.transactions then released else [] := by
  unfold cutBlocks
  simp only [any_eq_true, decide_eq_true_eq]
  split_ifs
  · rw [flatten_blockChunks, nil_append]
  · exact flatten_nil

theorem segments_takeCheckpoint (c : Core) (anchor : VertexRef) (t : ℕ) :
    (c.takeCheckpoint anchor t).segments = c.segments := by
  unfold takeCheckpoint
  dsimp only
  split_ifs <;> rfl

omit [Hashing] in
theorem segments_collectGarbage (c : Core) (r : ℕ) : (c.collectGarbage r).segments = c.segments := by
  unfold collectGarbage
  split_ifs <;> rfl

theorem segments_sealLast (c : Core) : c.sealLast.segments = c.segments := by
  unfold sealLast
  split
  · rfl
  · split_ifs <;> rfl

theorem segments_buildLoop (n : ℕ) (c : Core) : (buildLoop n c).segments = c.segments := by
  induction n generalizing c with
  | zero => rfl
  | succ n ih =>
    unfold buildLoop
    split
    · rfl
    · split_ifs
      · exact ih _
      · rfl

theorem segments_commit (c : Core) (anchor : VertexRef) :
    (c.commit anchor).segments = (c.makeSegments anchor).segments := by
  unfold commit buildCheckpoints commitOpen
  rw [segments_buildLoop, segments_sealLast, segments_collectGarbage, segments_takeCheckpoint]

omit [Hashing] in
theorem makeSegments_cut (c : Core) (anchor : VertexRef) :
    ∃ made : List WaitingSegment,
      (c.makeSegments anchor).segments = c.segments ++ made ∧
      (c.makeSegments anchor).waiting = c.waiting ++ made.map .segment ∧
      made.map WaitingSegment.batches = cutBlocks (c.releasedBy anchor) := by
  unfold makeSegments makeBlocks
  refine ⟨_, rfl, rfl, ?_⟩
  rw [map_map]
  exact zipIdx_map_fst 0 _

/-- What a commit that orders a transaction releases is cut into blocks, whole and in order, none of
batches within the limit over it; any other commit makes no block. -/
theorem commit_cuts (c : Core) (anchor : VertexRef) :
    ∃ made : List WaitingSegment, (c.commit anchor).segments = c.segments ++ made ∧
      (c.makeSegments anchor).waiting = c.waiting ++ made.map .segment ∧
      (made.map WaitingSegment.batches).flatten =
        (if ∃ b ∈ c.releasedBy anchor, 0 < b.batch.transactions then c.releasedBy anchor else []) ∧
      (∀ s ∈ made, s.batches ≠ []) ∧
      ∀ s ∈ made, (∀ b ∈ s.batches, b.batch.transactions ≤ maxTransactionsPerBlock) →
        declared s.batches ≤ maxTransactionsPerBlock := by
  obtain ⟨made, segments, waiting, cut⟩ := c.makeSegments_cut anchor
  have within : ∀ s ∈ made, s.batches ∈ cutBlocks (c.releasedBy anchor) := by
    intro s mem
    rw [← cut]
    exact mem_map_of_mem mem
  refine ⟨made, (c.segments_commit anchor).trans segments, waiting, ?_,
    fun s mem => cutBlocks_nonempty _ _ (within s mem),
    fun s mem => cutBlocks_le _ _ (within s mem)⟩
  rw [cut, flatten_cutBlocks]

end Core

def declaringVertex (transactions : ℕ) : Vertex :=
  ⟨0, 0, 3, [], [], [⟨0, 9, 5, transactions⟩], [], 1⟩

section Declared

local instance declaringHashing : Hashing :=
  namedHashing [declaringVertex 0, declaringVertex 1001] []

/-- Member 0 holds that vertex. -/
def declaringCore (transactions : ℕ) : Core :=
  let c := Core.new soloConfig Network.fourSeats 0 soloStart
  let v := declaringVertex transactions
  { c with dag := ((c.dag.expect v.digest 0).offer v).1 }

def declaredCommit (transactions : ℕ) : Core :=
  (declaringCore transactions).commit (declaringVertex transactions).reference

/-- A commit of an idle batch makes no block, and one of a batch over the limit a block over it. -/
theorem declaring_not_cut :
    ((declaringVertex 0).wellFormed Network.fourSeats = true ∧
      (declaringCore 0).releasedBy (declaringVertex 0).reference ≠ [] ∧
      (declaredCommit 0).segments = []) ∧
    ((declaringVertex 1001).wellFormed Network.fourSeats = true ∧
      (declaringCore 1001).segments = [] ∧
      ∃ s ∈ (declaredCommit 1001).segments, maxTransactionsPerBlock < declared s.batches) := by
  decide +kernel

end Declared

end Tenzro
