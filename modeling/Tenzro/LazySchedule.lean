import Tenzro.EagerSchedule

set_option autoImplicit false
set_option linter.dupNamespace false

/-!
# The lazy schedule draws the eager one

What is held of the drawn rounds (leaders, the credit after them and the
snapshots) is what drawing from round 0 gives.
-/
namespace Tenzro
open List Function Nat

theorem snapshotEvery_eq : snapshotEvery = 64 := by
  unfold snapshotEvery
  rfl

section Chunks
variable {α : Type} (chunk : ℕ → List α) {k : ℕ} (sized : ∀ r, (chunk r).length = k)
include sized

theorem length_chunks (first n : ℕ) : ((range' first n).flatMap chunk).length = n * k := by
  induction n generalizing first with
  | zero => simp
  | succ n ih =>
    rw [range'_succ, flatMap_cons, length_append, sized, ih, succ_mul, Nat.add_comm]

omit sized in
theorem chunks_append (first : ℕ) {i n : ℕ} (le : i ≤ n) :
    (range' first n).flatMap chunk =
      (range' first i).flatMap chunk ++ (range' (first + i) (n - i)).flatMap chunk := by
  rw [← flatMap_append, range'_append_1, Nat.add_sub_cancel' le]

theorem take_chunks (first : ℕ) {i n : ℕ} (le : i ≤ n) :
    ((range' first n).flatMap chunk).take (i * k) = (range' first i).flatMap chunk := by
  rw [chunks_append chunk first le]
  exact take_left' (length_chunks chunk sized first i)

theorem drop_chunks (first : ℕ) {i n : ℕ} (le : i ≤ n) :
    ((range' first n).flatMap chunk).drop (i * k) =
      (range' (first + i) (n - i)).flatMap chunk := by
  rw [chunks_append chunk first le]
  exact drop_left' (length_chunks chunk sized first i)

theorem getD_chunks (first : ℕ) {i n slot : ℕ} (lt : i < n) (within : slot < k) (d : α) :
    ((range' first n).flatMap chunk).getD (i * k + slot) d = (chunk (first + i)).getD slot d := by
  have here := drop_chunks chunk sized first lt.le
  obtain ⟨rest, more⟩ := exists_eq_succ_of_ne_zero (sub_ne_zero_of_lt lt)
  rw [more, range'_succ, flatMap_cons] at here
  rw [getD_eq_getElem?_getD, ← getElem?_drop, here,
    getElem?_append_left (by rw [sized]; exact within), getD_eq_getElem?_getD]

end Chunks

theorem foldl_range_getD {β : Type} (f : β → ℕ → β) (l : List ℕ) (start : β) :
    (List.range l.length).foldl (fun b i => f b (l.getD i 0)) start = l.foldl f start := by
  have listed : (List.range l.length).map (fun i => l.getD i 0) = l := by
    refine ext_getElem (by simp) ?_
    intro i lt lt'
    rw [getElem_map, getElem_range, getD_eq_getElem _ _ lt']
  conv_rhs => rw [← listed, foldl_map]

theorem filter_range_lt (n k : ℕ) : (List.range n).filter (· < k) = List.range (min n k) := by
  induction n with
  | zero => simp
  | succ n ih =>
    rw [range_succ, filter_append, ih]
    by_cases lt : n < k
    · rw [filter_singleton, decide_eq_true lt, Nat.min_eq_left lt.le, Nat.min_eq_left lt,
        range_succ]
      rfl
    · rw [filter_singleton, decide_eq_false lt, Nat.min_eq_right (not_lt.1 lt),
        Nat.min_eq_right (le_succ_of_le (not_lt.1 lt))]
      exact append_nil _

namespace Drawn
variable [ScheduleHash]

/-- The draws hold `m` rounds from the base on and `j` snapshots, as drawn from round 0. -/
structure Follows (entries : List Entry) (size : ℕ) (d : Drawn) (m j : ℕ) : Prop where
  slots : 0 < d.slots
  aligned : d.base % snapshotEvery = 0
  leaders : d.leaders = (range' d.base m).flatMap (leadersAt entries d.slots size)
  credit : d.credit = creditBefore entries d.slots size (d.base + m)
  snapshots : d.snapshots = (List.range j).map (fun i => (d.base + snapshotEvery * i,
    creditBefore entries d.slots size (d.base + snapshotEvery * i)))
  based : 0 < j
  taken : snapshotEvery * (j - 1) ≤ m
  full : m ≤ snapshotEvery * j

section Follows
variable {entries : List Entry} {size : ℕ} {d : Drawn} {m j : ℕ}

theorem Follows.nextRound (h : Follows entries size d m j) : d.nextRound = d.base + m := by
  unfold Drawn.nextRound
  rw [h.leaders, length_chunks _ (length_leadersAt entries d.slots size),
    Nat.mul_div_cancel _ h.slots]

theorem Follows.getD (h : Follows entries size d m j) {r slot : ℕ} (low : d.base ≤ r)
    (high : r < d.base + m) (within : slot < d.slots) :
    d.leaders.getD (d.index r slot) 0 = (leadersAt entries d.slots size r).getD slot 0 := by
  obtain ⟨i, rfl⟩ := Nat.exists_eq_add_of_le low
  unfold index
  rw [h.leaders, Nat.add_sub_cancel_left,
    getD_chunks _ (length_leadersAt entries d.slots size) _ (by omega) within]

theorem Follows.congr (h : Follows entries size d m j) {entries' : List Entry}
    (same : ∀ r < d.base + m, entryFor entries' r = entryFor entries r) :
    Follows entries' size d m j where
  slots := h.slots
  aligned := h.aligned
  leaders := by
    rw [h.leaders]
    refine flatMap_congr (fun r mem => leadersAt_congr (fun r' le => ?_))
    have range := mem_range'_1.1 mem
    exact (same r' (by omega)).symm
  credit := by
    rw [h.credit]
    exact creditBefore_congr (fun r lt => (same r lt).symm)
  snapshots := by
    rw [h.snapshots]
    refine map_congr_left (fun i mem => ?_)
    have lt := mem_range.1 mem
    have taken := h.taken
    have le : snapshotEvery * i ≤ snapshotEvery * (j - 1) := Nat.mul_le_mul_left _ (by omega)
    rw [creditBefore_congr (fun r lt => (same r (by omega)).symm)]
  based := h.based
  taken := h.taken
  full := h.full

theorem Follows.getLast? (h : Follows entries size d m j) :
    d.snapshots.getLast? = some (d.base + snapshotEvery * (j - 1),
      creditBefore entries d.slots size (d.base + snapshotEvery * (j - 1))) := by
  obtain ⟨k, rfl⟩ := exists_eq_succ_of_ne_zero (Nat.ne_of_gt h.based)
  rw [h.snapshots, range_succ, map_append, map_singleton, getLast?_concat]
  rfl

theorem Follows.draw (h : Follows entries size d m j) :
    ∃ j', Follows entries size (d.draw (entryFor entries d.nextRound)) (m + 1) j' := by
  have aligned := h.aligned
  have taken := h.taken
  have full := h.full
  have based := h.based
  rw [snapshotEvery_eq] at aligned taken full
  have drawn : d.draw (entryFor entries d.nextRound) = { d with
      leaders := d.leaders ++ leadersAt entries d.slots size (d.base + m)
      credit := creditBefore entries d.slots size (d.base + m + 1)
      snapshots :=
        if (d.base + m) % snapshotEvery = 0 ∧
            d.snapshots.getLast?.all (fun s => s.1 < d.base + m) = true
        then d.snapshots ++ [(d.base + m, d.credit)] else d.snapshots } := by
    unfold Drawn.draw
    rw [h.nextRound, h.credit]
    rfl
  have leaders : d.leaders ++ leadersAt entries d.slots size (d.base + m) =
      (range' d.base (m + 1)).flatMap (leadersAt entries d.slots size) := by
    rw [range'_1_concat, flatMap_append, ← h.leaders, flatMap_singleton]
  rw [drawn, h.getLast?, snapshotEvery_eq]
  simp only [Option.all_some, decide_eq_true_eq]
  split_ifs with due
  · have here : d.base + m = d.base + snapshotEvery * j := by
      rw [snapshotEvery_eq]
      omega
    refine ⟨j + 1, h.slots, h.aligned, leaders, rfl, ?_, succ_pos j, ?_, ?_⟩
    · simp only
      rw [range_succ, map_append, ← h.snapshots, map_singleton, ← here, h.credit]
    · rw [snapshotEvery_eq]
      omega
    · rw [snapshotEvery_eq]
      omega
  · refine ⟨j, h.slots, h.aligned, leaders, rfl, h.snapshots, h.based, ?_, ?_⟩
    · rw [snapshotEvery_eq]
      omega
    · rw [snapshotEvery_eq]
      omega

theorem Follows.replayCredit (h : Follows entries size d m j) {entries' : List Entry} (n : ℕ) :
    ∀ r, d.base ≤ r → r + n ≤ d.base + m →
      (∀ r', r ≤ r' → r' < r + n → entryFor entries' r' = entryFor entries r') →
      d.replayCredit entries' n r (creditBefore entries d.slots size r) =
        creditBefore entries d.slots size (r + n) := by
  induction n with
  | zero => exact fun _ _ _ _ => rfl
  | succ n ih =>
    intro r low high same
    have round : (List.range d.slots).foldl (fun credit slot =>
        pay (earn credit (entryFor entries' r).weights) (d.leaders.getD (d.index r slot) 0)
          (entryFor entries' r).total) (creditBefore entries d.slots size r) =
        creditBefore entries d.slots size (r + 1) := by
      rw [same r (le_refl r) (by omega), creditBefore_succ]
      conv_rhs => rw [← foldl_range_getD, length_leadersAt]
      refine foldl_ext _ _ _ (fun credit slot mem => ?_)
      rw [h.getD low (by omega) (mem_range.1 mem)]
      rfl
    unfold Drawn.replayCredit
    simp only
    rw [round, ih (r + 1) (by omega) (by omega) (fun r' le lt => same r' (by omega) (by omega)),
      Nat.add_right_comm, Nat.add_assoc]

theorem Follows.filter_snapshots (h : Follows entries size d m j) {r : ℕ} (low : d.base ≤ r) :
    d.snapshots.filter (fun s => s.1 ≤ r) =
      (List.range (min j ((r - d.base) / snapshotEvery + 1))).map (fun i =>
        (d.base + snapshotEvery * i,
          creditBefore entries d.slots size (d.base + snapshotEvery * i))) := by
  rw [h.snapshots, filter_map, ← filter_range_lt]
  congr 1
  refine filter_congr (fun i _ => ?_)
  simp only [comp_apply, decide_eq_decide]
  rw [snapshotEvery_eq]
  omega

theorem Follows.truncate (h : Follows entries size d m j) {first : ℕ} (low : d.base ≤ first)
    {entries' : List Entry}
    (same : ∀ r, d.base ≤ r → r < first → entryFor entries' r = entryFor entries r) :
    ∃ m' j', m' = min m (first - d.base) ∧ (d.truncate first entries').base = d.base ∧
      Follows entries size (d.truncate first entries') m' j' := by
  unfold Drawn.truncate
  rw [h.nextRound]
  split_ifs with beyond
  · exact ⟨m, j, by omega, rfl, h⟩
  have full := h.full
  have based := h.based
  set kept := (first - d.base) / snapshotEvery with kept_eq
  have few : min j (kept + 1) = kept + 1 := by
    rw [snapshotEvery_eq] at full kept_eq
    omega
  have snapshots := h.filter_snapshots (r := first) low
  rw [← kept_eq, few] at snapshots
  have under : d.base + snapshotEvery * kept ≤ first := by
    rw [snapshotEvery_eq] at kept_eq ⊢
    omega
  have last : (d.snapshots.filter (fun s => s.1 ≤ first)).getLastD (d.base, d.credit) =
      (d.base + snapshotEvery * kept,
        creditBefore entries d.slots size (d.base + snapshotEvery * kept)) := by
    rw [snapshots, range_succ, map_append, map_singleton, getLastD_concat]
  have replayed := h.replayCredit (first - (d.base + snapshotEvery * kept))
    (d.base + snapshotEvery * kept) (by omega) (by omega)
    (fun r le lt => same r (by omega) (by omega))
  simp only
  rw [max_eq_left low, last]
  refine ⟨first - d.base, kept + 1, by omega, trivial, h.slots, h.aligned, ?_, ?_, snapshots,
    succ_pos kept, ?_, ?_⟩
  · simp only
    rw [h.leaders]
    unfold index
    rw [Nat.add_zero]
    exact take_chunks _ (length_leadersAt entries d.slots size) _ (by omega)
  · simp only
    rw [replayed]
    congr 1
    omega
  · rw [Nat.add_sub_cancel]
    omega
  · rw [snapshotEvery_eq] at kept_eq ⊢
    omega

omit [ScheduleHash] in
theorem slots_truncate (d : Drawn) (round : ℕ) (entries : List Entry) :
    (d.truncate round entries).slots = d.slots := by
  unfold Drawn.truncate
  split_ifs <;> rfl

theorem Follows.pruneBelow (h : Follows entries size d m j) {round : ℕ} (low : d.base ≤ round) :
    ∃ m' j', (d.pruneBelow round).base =
        d.base + snapshotEvery * (min j ((round - d.base) / snapshotEvery + 1) - 1) ∧
      (d.pruneBelow round).base + m' = d.base + m ∧
      Follows entries size (d.pruneBelow round) m' j' := by
  have taken := h.taken
  have full := h.full
  have based := h.based
  set keep := min j ((round - d.base) / snapshotEvery + 1) - 1 with keep_eq
  have less : keep < j := by omega
  have within : snapshotEvery * keep ≤ snapshotEvery * (j - 1) :=
    Nat.mul_le_mul_left _ (by omega)
  have count : (d.snapshots.filter (fun s => s.1 ≤ round)).length - 1 = keep := by
    rw [h.filter_snapshots low, length_map, length_range]
  have snapshots : d.snapshots.drop keep = (List.range (j - keep)).map (fun i =>
      (d.base + snapshotEvery * keep + snapshotEvery * i,
        creditBefore entries d.slots size (d.base + snapshotEvery * keep + snapshotEvery * i))) := by
    have split : List.range j = List.range keep ++ (List.range (j - keep)).map (keep + ·) := by
      rw [← range_add, Nat.add_sub_cancel' less.le]
    rw [h.snapshots, split, map_append, drop_left' (by simp), map_map]
    refine map_congr_left (fun i _ => ?_)
    simp only [comp_apply, Nat.mul_add, Nat.add_assoc]
  have base : ((d.snapshots.drop keep).headD (d.base, d.credit)).1 =
      d.base + snapshotEvery * keep := by
    obtain ⟨k, more⟩ := exists_eq_succ_of_ne_zero (sub_ne_zero_of_lt less)
    rw [snapshots, more, range_succ_eq_map]
    rfl
  unfold Drawn.pruneBelow
  simp only
  rw [count, base]
  refine ⟨m - snapshotEvery * keep, j - keep, rfl, by omega, h.slots, ?_, ?_, ?_, snapshots,
    by omega, ?_, ?_⟩
  · simp only
    rw [add_mul_mod_self_left]
    exact h.aligned
  · simp only
    rw [h.leaders, Nat.add_sub_cancel_left]
    exact drop_chunks _ (length_leadersAt entries d.slots size) _ (by omega)
  · simp only
    rw [h.credit]
    congr 1
    omega
  · rw [snapshotEvery_eq] at *
    omega
  · rw [snapshotEvery_eq] at *
    omega

end Follows

end Drawn

section Suffixes

def Governs (all entries : List Entry) (base : ℕ) : Prop :=
  ∃ pre e post, all = pre ++ e :: post ∧ entries = e :: post ∧ (∀ x ∈ pre, x.from' ≤ base) ∧
    e.from' ≤ base ∧ ∀ x ∈ post, base < x.from'

theorem Governs.entryFor {all entries : List Entry} {base round : ℕ} (h : Governs all entries base)
    (le : base ≤ round) : entryFor entries round = entryFor all round := by
  obtain ⟨pre, e, post, rfl, rfl, -, starts, -⟩ := h
  exact (entryFor_append_left ⟨e, mem_cons_self, starts.trans le⟩).symm

theorem Governs.governing {all entries : List Entry} {base : ℕ} (h : Governs all entries base) :
    governing all base = entries := by
  obtain ⟨pre, e, post, rfl, rfl, before, starts, after⟩ := h
  have first : (pre ++ e :: post).filter (fun x => x.from' ≤ base) = pre ++ [e] := by
    rw [filter_append, filter_cons, if_pos (by simpa using starts),
      filter_eq_self.2 (fun x mem => decide_eq_true (before x mem)),
      filter_eq_nil_iff.2 (fun x mem => by simpa using after x mem)]
  unfold Tenzro.governing
  rw [first, length_append, length_singleton, Nat.add_sub_cancel]
  exact drop_left' rfl

theorem split_ordered {l : List Entry} (ordered : (l.map Entry.from').Pairwise (· < ·)) (base : ℕ) :
    l = l.filter (fun x => x.from' ≤ base) ++ l.filter (fun x => base < x.from') := by
  induction l with
  | nil => rfl
  | cons a l ih =>
    rw [map_cons, pairwise_cons] at ordered
    by_cases low : a.from' ≤ base
    · rw [filter_cons, if_pos (by simpa using low), filter_cons,
        if_neg (by simpa using low), cons_append, ← ih ordered.2]
    · have high : ∀ x ∈ a :: l, base < x.from' := by
        intro x mem
        rcases mem_cons.1 mem with rfl | mem
        · omega
        · have later := ordered.1 x.from' (mem_map_of_mem mem)
          omega
      rw [filter_eq_nil_iff.2 (fun x mem => by simpa using high x mem),
        filter_eq_self.2 (fun x mem => decide_eq_true (high x mem)), nil_append]

theorem Governs.trim {all entries : List Entry} {base base' : ℕ} (h : Governs all entries base)
    (ordered : (all.map Entry.from').Pairwise (· < ·)) (le : base ≤ base') :
    Governs all (Tenzro.governing entries base') base' := by
  obtain ⟨pre, e, post, rfl, rfl, before, starts, -⟩ := h
  have sorted : ((e :: post).map Entry.from').Pairwise (· < ·) :=
    ordered.sublist ((sublist_append_right pre _).map _)
  have split := split_ordered sorted base'
  have low : ∀ x ∈ (e :: post).filter (fun x => x.from' ≤ base'), x.from' ≤ base' :=
    fun x mem => of_decide_eq_true (mem_filter.1 mem).2
  have high : ∀ x ∈ (e :: post).filter (fun x => base' < x.from'), base' < x.from' :=
    fun x mem => of_decide_eq_true (mem_filter.1 mem).2
  have some' : (e :: post).filter (fun x => x.from' ≤ base') ≠ [] :=
    ne_nil_of_mem (mem_filter.2 ⟨mem_cons_self, decide_eq_true (starts.trans le)⟩)
  unfold Tenzro.governing
  generalize (e :: post).filter (fun x => base' < x.from') = above at split high
  generalize (e :: post).filter (fun x => x.from' ≤ base') = kept at split low some' ⊢
  obtain ⟨init, last, rfl⟩ := (eq_nil_or_concat' kept).resolve_left some'
  rw [split]
  refine ⟨pre ++ init, last, above, by simp, ?_, ?_, low last (by simp), high⟩
  · rw [length_append, length_singleton, Nat.add_sub_cancel, append_assoc]
    exact drop_left' rfl
  · intro x mem
    rcases mem_append.1 mem with old | mem
    · exact (before x old).trans le
    · exact low x (mem_append_left _ mem)

theorem Governs.redraw {all entries : List Entry} {base first : ℕ} (h : Governs all entries base)
    (before : base < first) {x : Entry} (starts : x.from' = first) :
    Governs (all.filter (fun x => x.from' < first) ++ [x])
      (entries.filter (fun x => x.from' < first) ++ [x]) base := by
  obtain ⟨pre, e, post, rfl, rfl, old, low, high⟩ := h
  refine ⟨pre, e, post.filter (fun x => x.from' < first) ++ [x], ?_, ?_, old, low, ?_⟩
  · rw [filter_append, filter_cons, if_pos (decide_eq_true (low.trans_lt before)),
      filter_eq_self.2 (fun y mem => decide_eq_true ((old y mem).trans_lt before))]
    simp
  · rw [filter_cons, if_pos (decide_eq_true (low.trans_lt before))]
    rfl
  · intro y mem
    rcases mem_append.1 mem with kept | new'
    · exact high y (mem_filter.1 kept).1
    · rw [mem_singleton.1 new', starts]
      exact before

end Suffixes

namespace Schedule
variable [ScheduleHash]

def call (c : Committee) (s : Schedule) : ScheduleCall → Schedule
  | .recordOutcome leader committed => s.recordOutcome leader committed
  | .leader round _ => s.drawThrough round
  | .advance anchorRound seed => s.advance c anchorRound seed

def runCalls (c : Committee) (s : Schedule) (calls : List ScheduleCall) : Schedule :=
  calls.foldl (call c) s

/-- The leaders of the round were drawn to be read, and neither dropped nor left to be redrawn
since. -/
def HoldsRound (s : Schedule) (round : ℕ) : Prop :=
  s.drawn.base ≤ round ∧ round < s.drawn.nextRound

def ReadsFirst (c : Committee) : Schedule → List ScheduleCall → Prop
  | _, [] => True
  | s, x :: calls =>
    (∀ anchorRound seed, x = .advance anchorRound seed → s.HoldsRound anchorRound) ∧
      (s.call c x).ReadsFirst c calls

/-- The schedule holds some rounds of the eager one, and the entries that govern them. -/
structure Draws (e : EagerSchedule) (s : Schedule) : Prop where
  slots : s.drawn.slots = e.slots
  lookahead : s.lookahead = e.lookahead
  outcomes : s.outcomes = e.outcomes
  base : s.drawn.base ≤ e.base
  entries : Governs e.entries s.entries s.drawn.base
  drawn : ∃ m j, s.drawn.Follows e.entries e.size m j

section Draws
variable {e : EagerSchedule} {s : Schedule}

theorem Draws.drawMore (h : Draws e s) (n : ℕ) :
    Draws e (s.drawMore n) ∧ (s.drawMore n).drawn.base = s.drawn.base ∧
      (s.drawMore n).drawn.nextRound = s.drawn.nextRound + n := by
  induction n generalizing s with
  | zero => exact ⟨h, rfl, rfl⟩
  | succ n ih =>
    obtain ⟨m, j, follows⟩ := h.drawn
    have governs : entryFor s.entries s.drawn.nextRound = _ := h.entries.entryFor
      (by rw [follows.nextRound]; exact Nat.le_add_right _ _)
    obtain ⟨j', next⟩ := follows.draw
    have one : Draws e { s with drawn := s.drawn.draw (entryFor s.entries s.drawn.nextRound) } := by
      rw [governs]
      exact ⟨h.slots, h.lookahead, h.outcomes, h.base, h.entries, m + 1, j', next⟩
    obtain ⟨draws, base, reached⟩ := ih one
    refine ⟨draws, base, reached.trans ?_⟩
    simp only
    rw [governs, next.nextRound, follows.nextRound]
    change s.drawn.base + (m + 1) + n = s.drawn.base + m + (n + 1)
    omega

theorem Draws.drawThrough (h : Draws e s) (round : ℕ) :
    Draws e (s.drawThrough round) ∧ (s.drawThrough round).drawn.base = s.drawn.base ∧
      (s.drawn.base ≤ round → round < (s.drawThrough round).drawn.nextRound) := by
  unfold Schedule.drawThrough
  split_ifs with old empty
  · obtain ⟨draws, base, -⟩ := h.drawMore 1
    exact ⟨draws, base, fun le => absurd old (not_lt.2 le)⟩
  · exact ⟨h, rfl, fun le => absurd old (not_lt.2 le)⟩
  · obtain ⟨draws, base, reached⟩ := h.drawMore (round + 1 - s.drawn.nextRound)
    refine ⟨draws, base, fun _ => ?_⟩
    rw [reached]
    omega

theorem Draws.leader (h : Draws e s) (sound : e.Sound) {round : ℕ} (le : s.drawn.base ≤ round)
    (slot : ℕ) : s.leader round slot = e.leader round slot := by
  obtain ⟨draws, base, reached⟩ := h.drawThrough round
  obtain ⟨m, j, follows⟩ := draws.drawn
  have high := reached le
  rw [follows.nextRound] at high
  have within : min slot (e.slots - 1) < (s.drawThrough round).drawn.slots := by
    rw [draws.slots]
    have pos := sound.slots
    omega
  unfold Schedule.leader EagerSchedule.leader EagerSchedule.leadersOf
  simp only
  rw [if_neg (by rw [base]; omega), draws.slots,
    follows.getD (by rw [base]; exact le) high within, draws.slots]

theorem Draws.recordOutcome (h : Draws e s) (leader : ValidatorIndex) (committed : Bool) :
    Draws (e.recordOutcome leader committed) (s.recordOutcome leader committed) := by
  refine ⟨h.slots, h.lookahead, ?_, h.base, h.entries, h.drawn⟩
  unfold Schedule.recordOutcome EagerSchedule.recordOutcome
  rw [h.outcomes]

/-- An advance from an anchor at or above the base. The base it leaves is the eager one if the
anchor's round is held. -/
theorem Draws.advance (h : Draws e s) (sound : e.Sound) (c : Committee) {anchorRound : ℕ}
    (low : s.drawn.base ≤ anchorRound) (seed : Digest) :
    Draws (e.advance c anchorRound seed) (s.advance c anchorRound seed) ∧
      s.drawn.base ≤ (s.advance c anchorRound seed).drawn.base ∧
      (s.HoldsRound anchorRound → (s.advance c anchorRound seed).drawn.base =
        (e.advance c anchorRound seed).base) := by
  obtain ⟨m, j, follows⟩ := h.drawn
  set first := anchorRound + s.lookahead + 1 with first_eq
  have low' : s.drawn.base ≤ first := by omega
  obtain ⟨m', j', held, base, cut⟩ :=
    follows.truncate low' (fun r le _ => h.entries.entryFor le)
  have first_eager : anchorRound + e.lookahead + 1 = first := by rw [first_eq, h.lookahead]
  have redrawn : Drawn.Follows (e.advance c anchorRound seed).entries _ _ m' j' := cut.congr (by
    intro r lt
    rw [base] at lt
    exact entryFor_redraw (sound.starts.mono (Nat.zero_le r)) (by omega) rfl)
  have low'' : (s.drawn.truncate first s.entries).base ≤ anchorRound := by
    rw [base]
    exact low
  obtain ⟨m'', j'', moved, reach, pruned⟩ := redrawn.pruneBelow low''
  have aligned := follows.aligned
  have full := cut.full
  have some' := cut.based
  rw [base] at moved reach
  have drawn : (s.advance c anchorRound seed).drawn =
      (s.drawn.truncate first s.entries).pruneBelow anchorRound := rfl
  have target : (e.advance c anchorRound seed).base =
      snapshotEvery * (anchorRound / snapshotEvery) := rfl
  rw [snapshotEvery_eq] at aligned full moved target
  have upper : (s.advance c anchorRound seed).drawn.base ≤ (e.advance c anchorRound seed).base := by
    rw [drawn, moved, target]
    omega
  have lower : s.drawn.base ≤ (s.advance c anchorRound seed).drawn.base := by
    rw [drawn, moved]
    omega
  refine ⟨⟨?_, h.lookahead, h.outcomes, upper, ?_, m'', j'', pruned⟩, lower, ?_⟩
  · exact (Drawn.slots_truncate s.drawn first s.entries).trans h.slots
  · have entries : (s.advance c anchorRound seed).entries =
        Tenzro.governing (s.entries.filter (fun x => x.from' < first) ++
          [Entry.new first (ScheduleHash.leaderSeed seed)
            (c.members.zipIdx.map (fun m => behaviourWeight s.outcomes m.1.seats m.2))])
          (s.advance c anchorRound seed).drawn.base := rfl
    have all : (e.advance c anchorRound seed).entries =
        e.entries.filter (fun x => x.from' < first) ++
          [Entry.new first (ScheduleHash.leaderSeed seed)
            (c.members.zipIdx.map (fun m => behaviourWeight s.outcomes m.1.seats m.2))] := by
      unfold EagerSchedule.advance
      rw [first_eager, h.outcomes]
    rw [entries, all]
    have before : s.drawn.base < first := by omega
    refine (h.entries.redraw before rfl).trim ?_ lower
    rw [← all]
    exact (sound.advance c anchorRound seed).ordered
  · rintro ⟨-, high⟩
    rw [follows.nextRound] at high
    rw [drawn, moved, target]
    omega

theorem draws_new (c : Committee) (epochSeed : Digest) (slots lookahead : ℕ) :
    Draws (.new c epochSeed slots lookahead) (Schedule.new c epochSeed slots lookahead) := by
  refine ⟨rfl, rfl, rfl, le_refl 0, ⟨[], _, [], rfl, rfl, ?_, le_refl 0, ?_⟩, 0, 1, ?_⟩
  · exact forall_mem_nil _
  · exact forall_mem_nil _
  · refine ⟨?_, zero_mod _, rfl, rfl, rfl, Nat.zero_lt_one, Nat.zero_le _, Nat.zero_le _⟩
    exact (EagerSchedule.sound_new c epochSeed slots lookahead).slots

/-- What a run keeps when every advance comes after the leaders of its anchor's round were read. -/
structure Kept (e : EagerSchedule) (s : Schedule) : Prop where
  sound : e.Sound
  draws : Draws e s
  base : s.drawn.base = e.base

theorem Kept.call (h : Kept e s) (c : Committee) (x : ScheduleCall)
    (first : ∀ anchorRound seed, x = .advance anchorRound seed → s.HoldsRound anchorRound) :
    Kept (e.call c x) (s.call c x) ∧ s.drawn.base ≤ (s.call c x).drawn.base := by
  cases x with
  | recordOutcome leader committed =>
    exact ⟨⟨h.sound.recordOutcome leader committed, h.draws.recordOutcome leader committed, h.base⟩,
      le_refl _⟩
  | leader round slot =>
    obtain ⟨draws, base, -⟩ := h.draws.drawThrough round
    exact ⟨⟨h.sound, draws, base.trans h.base⟩, base.ge⟩
  | advance anchorRound seed =>
    have held := first anchorRound seed rfl
    obtain ⟨draws, lower, base⟩ := h.draws.advance h.sound c held.1 seed
    exact ⟨⟨h.sound.advance c anchorRound seed, draws, base held⟩, lower⟩

theorem Kept.runCalls (c : Committee) (calls : List ScheduleCall) (h : Kept e s)
    (reads : s.ReadsFirst c calls) : Kept (e.runCalls c calls) (s.runCalls c calls) := by
  induction calls generalizing e s with
  | nil => exact h
  | cons x calls ih => exact ih (h.call c x reads.1).1 reads.2

theorem Kept.exportState (h : Kept e s) : s.exportState = e.exportState := by
  obtain ⟨m, j, follows⟩ := h.draws.drawn
  have first : s.drawn.snapshots.headD (s.drawn.base, s.drawn.credit) =
      (e.base, Drawn.creditBefore e.entries e.slots e.size e.base) := by
    obtain ⟨k, rfl⟩ := exists_eq_succ_of_ne_zero (Nat.ne_of_gt follows.based)
    rw [follows.snapshots, range_succ_eq_map, map_cons, headD_cons, Nat.mul_zero,
      Nat.add_zero, h.base, h.draws.slots]
  unfold Schedule.exportState EagerSchedule.exportState
  rw [first, ← h.base, h.draws.entries.governing, h.draws.outcomes, h.draws.slots, h.draws.lookahead]

theorem Kept.imported (h : Kept e s) : Draws e (importState s.exportState) := by
  obtain ⟨m, j, follows⟩ := h.draws.drawn
  have slots := h.sound.slots
  have lookahead := h.sound.lookahead
  have entries : (e.exportState.entries).map (fun x => Entry.new x.1 x.2.1 x.2.2) =
      Tenzro.governing e.entries e.base := by
    unfold EagerSchedule.exportState
    rw [map_map]
    refine (map_congr_left (fun x mem => ?_)).trans (map_id _)
    have total := h.sound.totals x (mem_of_mem_drop mem)
    simp only [comp_apply, Entry.new, ← total, id]
  have same : importState e.exportState = ⟨e.lookahead, Tenzro.governing e.entries e.base,
      e.outcomes, ⟨e.slots, e.base, [],
        Drawn.creditBefore e.entries e.slots e.size e.base,
        [(e.base, Drawn.creditBefore e.entries e.slots e.size e.base)]⟩⟩ := by
    unfold Schedule.importState
    rw [entries]
    unfold EagerSchedule.exportState
    rw [max_eq_left (succ_le_of_lt slots), max_eq_left (succ_le_of_lt lookahead)]
  have governs := h.draws.entries
  rw [h.base] at governs
  rw [h.exportState, same]
  refine ⟨rfl, rfl, rfl, le_refl _, ?_, 0, 1, slots, ?_, rfl, rfl, rfl, Nat.zero_lt_one,
    Nat.zero_le _, Nat.zero_le _⟩
  · rw [governs.governing]
    exact governs
  · rw [← h.base]
    exact follows.aligned

/-- Two schedules of one eager one draw the same leaders after the same calls, even if only one of
them read the anchors' rounds first. -/
theorem Kept.same_leader {c : Committee} {later : List ScheduleCall} {t : Schedule} (h : Kept e s)
    (other : Draws e t) (reads : s.ReadsFirst c later) :
    Draws (e.runCalls c later) (t.runCalls c later) := by
  induction later generalizing e s t with
  | nil => exact other
  | cons x later ih =>
    have kept := (h.call c x reads.1).1
    refine ih kept ?_ reads.2
    cases x with
    | recordOutcome leader committed => exact other.recordOutcome leader committed
    | leader round slot => exact (other.drawThrough round).1
    | advance anchorRound seed =>
      have held := reads.1 anchorRound seed rfl
      have low : t.drawn.base ≤ anchorRound := by
        have under := other.base
        have above := held.1
        rw [h.base] at above
        exact under.trans above
      exact (other.advance h.sound c low seed).1

end Draws

/-- The lazy schedule is the eager one at every round it keeps and in what it exports; a round's
leaders are distinct; an advance changes none up to the lookahead past its anchor; an imported
schedule draws the same. -/
theorem lazy_eq_eager (c : Committee) (epochSeed : Digest) (slots lookahead : ℕ)
    (calls : List ScheduleCall)
    (reads : (Schedule.new c epochSeed slots lookahead).ReadsFirst c calls) :
    let s := (Schedule.new c epochSeed slots lookahead).runCalls c calls
    let e := (EagerSchedule.new c epochSeed slots lookahead).runCalls c calls
    (∀ r slot, s.drawn.base ≤ r → s.leader r slot = e.leader r slot) ∧
      s.exportState = e.exportState ∧
      (∀ r, (e.leadersOf r).Nodup ∧ (e.leadersOf r).length = s.slots) ∧
      (∀ anchorRound seed, s.HoldsRound anchorRound → ∀ r ≤ anchorRound + s.lookahead, ∀ slot,
        (e.advance c anchorRound seed).leader r slot = e.leader r slot ∧
        ((s.advance c anchorRound seed).drawn.base ≤ r →
          (s.advance c anchorRound seed).leader r slot = s.leader r slot)) ∧
      ∀ later, s.ReadsFirst c later → ∀ r slot, (s.runCalls c later).drawn.base ≤ r →
        ((importState s.exportState).runCalls c later).leader r slot =
          (s.runCalls c later).leader r slot := by
  have start : Kept (.new c epochSeed slots lookahead) (Schedule.new c epochSeed slots lookahead) :=
    ⟨EagerSchedule.sound_new c epochSeed slots lookahead, draws_new c epochSeed slots lookahead, rfl⟩
  have kept := start.runCalls c calls reads
  intro s e
  refine ⟨fun r slot le => kept.draws.leader kept.sound le slot, kept.exportState, fun r => ?_,
    fun anchorRound seed held r le slot => ?_, fun later reads' r slot le => ?_⟩
  · refine ⟨Drawn.nodup_leadersAt kept.sound.room _ _, ?_⟩
    exact (Drawn.length_leadersAt _ _ _ _).trans kept.draws.slots.symm
  · have unchanged := kept.sound.leader_advance c seed (show r ≤ anchorRound + e.lookahead by
      rw [← kept.draws.lookahead]; exact le) slot
    refine ⟨unchanged, fun high => ?_⟩
    obtain ⟨draws, lower, -⟩ := kept.draws.advance kept.sound c held.1 seed
    rw [draws.leader (kept.sound.advance c anchorRound seed) high, unchanged,
      kept.draws.leader kept.sound (lower.trans high)]
  · have ran := kept.runCalls c later reads'
    have imported := kept.same_leader kept.imported reads'
    have under := imported.base
    rw [← ran.base] at under
    rw [imported.leader ran.sound (under.trans le), ran.draws.leader ran.sound le]

end Schedule

section Redrawn
open Committee

local instance countedDraws : ScheduleHash := ⟨fun _ round slot => round + slot, fun e d => e + d, id⟩

def redrawnCalls : List ScheduleCall := [.leader 3 0, .advance 2 9, .leader 8 1]

theorem redrawn_reads :
    (Schedule.new threeSeats 5 2 1).ReadsFirst threeSeats redrawnCalls := by
  have held : ((Schedule.new threeSeats 5 2 1).drawThrough 3).drawn.base ≤ 2 ∧
      2 < ((Schedule.new threeSeats 5 2 1).drawThrough 3).drawn.nextRound := by decide
  refine ⟨?_, ?_, ?_, trivial⟩
  · rintro _ _ ⟨⟩
  · rintro _ _ ⟨⟩
    exact held
  · rintro _ _ ⟨⟩

theorem lazy_eq_eager_redrawn :
    ((Schedule.new threeSeats 5 2 1).runCalls threeSeats redrawnCalls).exportState =
      ((EagerSchedule.new threeSeats 5 2 1).runCalls threeSeats redrawnCalls).exportState :=
  (Schedule.lazy_eq_eager threeSeats 5 2 1 redrawnCalls redrawn_reads).2.1

end Redrawn

end Tenzro
