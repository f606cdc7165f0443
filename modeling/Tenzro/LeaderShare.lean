import Tenzro.Schedule

set_option autoImplicit false
set_option linter.dupNamespace false

/-!
# What a leader's credit bounds

One slot a round and constant weights: the draw of each slot is any member
whose credit is positive once the slot's weights are earned.
-/
namespace Tenzro.Drawn
open List Nat

def creditOf (credit : List ℤ) (i : ℕ) : ℤ := credit.getD i 0

def weightOf (weights : List ℕ) (i : ℕ) : ℕ := weights.getD i 0

def slotCredit (weights : List ℕ) (credit : List ℤ) (leader : ℕ) : List ℤ :=
  pay (earn credit weights) leader weights.sum

def MayLead (weights : List ℕ) (credit : List ℤ) (leader : ℕ) : Prop :=
  leader ∈ (due (earn credit weights) weights []).map Prod.fst

def Leads (weights : List ℕ) : List ℤ → List ℕ → Prop
  | _, [] => True
  | credit, leader :: l =>
    MayLead weights credit leader ∧ Leads weights (slotCredit weights credit leader) l

def creditAfter (weights : List ℕ) (credit : List ℤ) (leaders : List ℕ) : List ℤ :=
  leaders.foldl (slotCredit weights) credit

theorem leads_append {weights : List ℕ} {credit : List ℤ} {l l' : List ℕ} :
    Leads weights credit (l ++ l') ↔
      Leads weights credit l ∧ Leads weights (creditAfter weights credit l) l' := by
  induction l generalizing credit with
  | nil => simp [Leads, creditAfter]
  | cons a l ih =>
    simp only [cons_append, Leads, ih, and_assoc]
    rfl

/-- Credits that sum to zero, none as low as the total weight below it. -/
structure Balanced (weights : List ℕ) (credit : List ℤ) : Prop where
  length : credit.length = weights.length
  sum : credit.sum = 0
  low : ∀ x ∈ credit, -(weights.sum : ℤ) < x

section Lists

theorem length_earn (credit : List ℤ) (weights : List ℕ) :
    (earn credit weights).length = credit.length := by
  induction credit generalizing weights with
  | nil => cases weights <;> rfl
  | cons c credit ih =>
    cases weights with
    | nil => rfl
    | cons w weights => simp [earn, ih]

theorem sum_earn {credit : List ℤ} {weights : List ℕ} (length : credit.length = weights.length) :
    (earn credit weights).sum = credit.sum + weights.sum := by
  induction credit generalizing weights with
  | nil =>
    rw [length_nil, eq_comm, length_eq_zero_iff] at length
    rw [length]
    rfl
  | cons c credit ih =>
    cases weights with
    | nil => simp at length
    | cons w weights =>
      have rest := ih (succ_injective length)
      simp only [earn, sum_cons, cast_add]
      omega

theorem creditOf_earn {credit : List ℤ} {weights : List ℕ}
    (length : credit.length = weights.length) (i : ℕ) :
    creditOf (earn credit weights) i = creditOf credit i + weightOf weights i := by
  unfold creditOf weightOf
  induction credit generalizing weights i with
  | nil =>
    rw [length_nil, eq_comm, length_eq_zero_iff] at length
    rw [length]
    rfl
  | cons c credit ih =>
    cases weights with
    | nil => simp at length
    | cons w weights =>
      cases i with
      | zero => rfl
      | succ i => exact ih (succ_injective length) i

theorem length_pay (credit : List ℤ) (leader total : ℕ) :
    (pay credit leader total).length = credit.length := length_modify ..

theorem sum_pay {credit : List ℤ} {leader : ℕ} (member : leader < credit.length) (total : ℕ) :
    (pay credit leader total).sum = credit.sum - total := by
  unfold pay
  induction credit generalizing leader with
  | nil => simp at member
  | cons c credit ih =>
    cases leader with
    | zero =>
      simp only [modify_zero_cons, sum_cons]
      omega
    | succ leader =>
      have rest := ih (lt_of_succ_lt_succ member)
      simp only [modify_succ_cons, sum_cons]
      omega

theorem creditOf_pay {credit : List ℤ} {leader : ℕ} (member : leader < credit.length)
    (total i : ℕ) :
    creditOf (pay credit leader total) i = creditOf credit i - if i = leader then (total : ℤ) else 0 := by
  unfold creditOf pay
  rw [getD_eq_getElem?_getD, getD_eq_getElem?_getD, getElem?_modify]
  by_cases same : leader = i
  · subst same
    simp [getElem?_eq_getElem member]
  · simp [same, Ne.symm same]

theorem mem_creditOf {credit : List ℤ} {x : ℤ} (mem : x ∈ credit) :
    ∃ i < credit.length, x = creditOf credit i := by
  obtain ⟨i, lt, rfl⟩ := getElem_of_mem mem
  exact ⟨i, lt, (getD_eq_getElem _ _ lt).symm⟩

theorem creditOf_mem {credit : List ℤ} {i : ℕ} (lt : i < credit.length) :
    creditOf credit i ∈ credit := by
  unfold creditOf
  rw [getD_eq_getElem _ _ lt]
  exact getElem_mem lt

theorem weightOf_le_sum (weights : List ℕ) (i : ℕ) : weightOf weights i ≤ weights.sum := by
  unfold weightOf
  by_cases lt : i < weights.length
  · rw [getD_eq_getElem _ _ lt]
    exact le_sum_of_mem (getElem_mem lt)
  · rw [getD_eq_default _ _ (not_lt.1 lt)]
    exact Nat.zero_le _

theorem le_of_sum {l : List ℤ} {b : ℤ} (nonneg : 0 ≤ b) (low : ∀ x ∈ l, -b < x) :
    ∀ x ∈ l, x ≤ l.sum + l.length * b := by
  induction l with
  | nil => exact fun x mem => absurd mem not_mem_nil
  | cons a l ih =>
    have above : -(l.length * b : ℤ) ≤ l.sum := by
      have lower := card_nsmul_le_sum l (-b)
        (fun x mem => (low x (mem_cons_of_mem a mem)).le)
      rw [nsmul_eq_mul] at lower
      linarith
    have first := low a mem_cons_self
    have rest := ih (fun x mem => low x (mem_cons_of_mem a mem))
    intro x mem
    rw [sum_cons, length_cons, cast_succ, add_mul, one_mul]
    rcases mem_cons.1 mem with rfl | mem
    · linarith
    · linarith [rest x mem]

end Lists

theorem mem_due {credit : List ℤ} {weights : List ℕ} {picked : List ℕ} {i w : ℕ} :
    (i, w) ∈ due credit weights picked ↔
      ∃ c, credit[i]? = some c ∧ weights[i]? = some w ∧ 0 < c ∧ i ∉ picked := by
  unfold due
  simp only [mem_map, mem_filter, Bool.and_eq_true, decide_eq_true_eq, Bool.not_eq_true',
    contains_eq_mem, decide_eq_false_iff_not]
  constructor
  · rintro ⟨⟨⟨c, w'⟩, i'⟩, ⟨mem, pos, unpicked⟩, same⟩
    cases same
    rw [mem_zipIdx_iff_getElem?, getElem?_zip_eq_some] at mem
    exact ⟨c, mem.1, mem.2, pos, unpicked⟩
  · rintro ⟨c, credited, weighed, pos, unpicked⟩
    refine ⟨((c, w), i), ⟨?_, pos, unpicked⟩, rfl⟩
    rw [mem_zipIdx_iff_getElem?, getElem?_zip_eq_some]
    exact ⟨credited, weighed⟩

theorem mayLead_iff {weights : List ℕ} {credit : List ℤ}
    (length : credit.length = weights.length) {i : ℕ} :
    MayLead weights credit i ↔
      i < weights.length ∧ 0 < creditOf credit i + weightOf weights i := by
  unfold MayLead
  rw [← creditOf_earn length]
  constructor
  · intro mem
    obtain ⟨⟨i', w⟩, entry, rfl⟩ := mem_map.1 mem
    obtain ⟨c, credited, weighed, pos, -⟩ := mem_due.1 entry
    refine ⟨(List.getElem?_eq_some_iff.1 weighed).1, ?_⟩
    unfold creditOf
    rw [getD_eq_getElem?_getD, credited]
    exact pos
  · rintro ⟨member, pos⟩
    have held : i < (earn credit weights).length := by rw [length_earn, length]; exact member
    unfold creditOf at pos
    rw [getD_eq_getElem _ _ held] at pos
    exact mem_map.2 ⟨(i, weights[i]), mem_due.2 ⟨_, getElem?_eq_getElem held,
      getElem?_eq_getElem member, pos, not_mem_nil⟩, rfl⟩

section Runs
variable {weights : List ℕ} {credit : List ℤ} {leader : ℕ}

theorem Balanced.sum_earned (h : Balanced weights credit) :
    (earn credit weights).sum = weights.sum := by
  rw [sum_earn h.length, h.sum, zero_add]

theorem Balanced.someone (h : Balanced weights credit) (weighed : 0 < weights.sum) :
    ∃ i, MayLead weights credit i := by
  by_contra! idle
  have low : ∀ x ∈ earn credit weights, x ≤ 0 := by
    intro x mem
    obtain ⟨i, lt, rfl⟩ := mem_creditOf mem
    rw [length_earn, h.length] at lt
    have not := idle i
    rw [mayLead_iff h.length] at not
    rw [creditOf_earn h.length]
    push Not at not
    exact not lt
  have total := sum_le_card_nsmul _ 0 low
  rw [smul_zero] at total
  rw [h.sum_earned] at total
  omega

theorem creditOf_slot (length : credit.length = weights.length) (member : leader < weights.length)
    (i : ℕ) : creditOf (slotCredit weights credit leader) i =
      creditOf credit i + weightOf weights i - if i = leader then (weights.sum : ℤ) else 0 := by
  unfold slotCredit
  rw [creditOf_pay (by rw [length_earn, length]; exact member), creditOf_earn length]

theorem Balanced.slot (h : Balanced weights credit) (may : MayLead weights credit leader) :
    Balanced weights (slotCredit weights credit leader) := by
  obtain ⟨member, pos⟩ := (mayLead_iff h.length).1 may
  have length : (slotCredit weights credit leader).length = weights.length := by
    unfold slotCredit
    rw [length_pay, length_earn, h.length]
  refine ⟨length, ?_, ?_⟩
  · unfold slotCredit
    rw [sum_pay (by rw [length_earn, h.length]; exact member), h.sum_earned, sub_self]
  · intro x mem
    obtain ⟨i, lt, rfl⟩ := mem_creditOf mem
    rw [creditOf_slot h.length member]
    have low := h.low _ (creditOf_mem (by rw [length, ← h.length] at lt; exact lt))
    split_ifs with same
    · rw [same]
      omega
    · omega

theorem Balanced.after (h : Balanced weights credit) {l : List ℕ} (leads : Leads weights credit l) :
    Balanced weights (creditAfter weights credit l) := by
  induction l generalizing credit with
  | nil => exact h
  | cons a l ih => exact ih (h.slot leads.1) leads.2

theorem creditOf_after (h : Balanced weights credit) {l : List ℕ} (leads : Leads weights credit l)
    (i : ℕ) : creditOf (creditAfter weights credit l) i =
      creditOf credit i + l.length * weightOf weights i - l.count i * weights.sum := by
  induction l generalizing credit with
  | nil => simp [creditAfter]
  | cons a l ih =>
    have rest := ih (h.slot leads.1) leads.2
    rw [creditOf_slot h.length ((mayLead_iff h.length).1 leads.1).1] at rest
    change creditOf (creditAfter weights (slotCredit weights credit a) l) i = _
    rw [rest, length_cons, cast_succ, add_mul, one_mul]
    by_cases same : i = a
    · subst same
      rw [count_cons_self, if_pos rfl, cast_succ]
      ring
    · rw [count_cons_of_ne (Ne.symm same), if_neg same]
      ring

theorem balanced_zero (weighed : 0 < weights.sum) :
    Balanced weights (replicate weights.length 0) where
  length := length_replicate
  sum := by simp
  low x mem := by
    rw [eq_of_mem_replicate mem]
    omega

theorem Balanced.greedy_low (h : Balanced weights credit) (weighed : 0 < weights.sum) {i : ℕ}
    (member : i < weights.length) (low : creditOf credit i ≤ 0) (n : ℕ) :
    ∃ l : List ℕ, l.length = n ∧ Leads weights credit l ∧
      creditOf (creditAfter weights credit l) i ≤ 0 := by
  induction n generalizing credit with
  | zero => exact ⟨[], rfl, trivial, low⟩
  | succ n ih =>
    have light := weightOf_le_sum weights i
    by_cases due : MayLead weights credit i
    · obtain ⟨l, length, leads, ends⟩ := ih (h.slot due)
        (by rw [creditOf_slot h.length member, if_pos rfl]; omega)
      exact ⟨i :: l, by rw [length_cons, length], ⟨due, leads⟩, ends⟩
    · obtain ⟨j, may⟩ := h.someone weighed
      have other : i ≠ j := fun same => due (same ▸ may)
      have idle := due
      rw [mayLead_iff h.length] at idle
      obtain ⟨l, length, leads, ends⟩ := ih (h.slot may) (by
        rw [creditOf_slot h.length ((mayLead_iff h.length).1 may).1, if_neg other]
        push Not at idle
        have spent := idle member
        omega)
      exact ⟨j :: l, by rw [length_cons, length], ⟨may, leads⟩, ends⟩

theorem Balanced.greedy (h : Balanced weights credit) (weighed : 0 < weights.sum) {i : ℕ}
    (member : i < weights.length) (n : ℕ) :
    ∃ l : List ℕ, l.length = n ∧ Leads weights credit l ∧
      (l.count i = n ∨ creditOf (creditAfter weights credit l) i ≤ 0) := by
  induction n generalizing credit with
  | zero => exact ⟨[], rfl, trivial, .inl rfl⟩
  | succ n ih =>
    by_cases low : creditOf credit i ≤ 0
    · obtain ⟨l, length, leads, ends⟩ := h.greedy_low weighed member low (n + 1)
      exact ⟨l, length, leads, .inr ends⟩
    · have due : MayLead weights credit i := (mayLead_iff h.length).2 ⟨member, by omega⟩
      obtain ⟨l, length, leads, ends⟩ := ih (h.slot due)
      refine ⟨i :: l, by rw [length_cons, length], ⟨due, leads⟩, ?_⟩
      cases ends with
      | inl all => exact .inl (by rw [count_cons_self, all])
      | inr spent => exact .inr spent

/-- Over `n` slots a member leads at most its share and one, whatever the seeds, exactly when its
credit leaves no room for more. -/
theorem Balanced.share (h : Balanced weights credit) (weighed : 0 < weights.sum) {i : ℕ}
    (member : i < weights.length) (n : ℕ) :
    (∀ l : List ℕ, l.length = n → Leads weights credit l →
        l.count i ≤ n * weightOf weights i / weights.sum + 1) ↔
      (creditOf credit i + (n * weightOf weights i % weights.sum : ℕ) ≤ weights.sum ∨
        n ≤ n * weightOf weights i / weights.sum + 1) := by
  have split := div_add_mod (n * weightOf weights i) weights.sum
  set share := n * weightOf weights i / weights.sum
  set rest := n * weightOf weights i % weights.sum
  have earned : (n : ℤ) * weightOf weights i = weights.sum * share + rest := by
    exact_mod_cast split.symm
  constructor
  · intro bounded
    by_contra! wide
    obtain ⟨l, length, leads, ends⟩ := h.greedy weighed member n
    have few := bounded l length leads
    cases ends with
    | inl all => omega
    | inr spent =>
      rw [creditOf_after h leads, length, earned] at spent
      have paid : (l.count i : ℤ) * weights.sum ≤ (share + 1) * weights.sum := by
        gcongr
        exact_mod_cast few
      linarith [wide.1]
  · intro room l length leads
    rcases room with low | short
    · have held : i < (creditAfter weights credit l).length := by
        rw [(h.after leads).length]
        exact member
      have above := (h.after leads).low _ (creditOf_mem held)
      rw [creditOf_after h leads, length, earned] at above
      by_contra! many
      have paid : ((share + 2 : ℕ) : ℤ) * weights.sum ≤ l.count i * weights.sum := by
        gcongr
        exact_mod_cast many
      rw [cast_add, cast_two] at paid
      linarith
    · exact (count_le_length).trans (length.le.trans short)

end Runs

section Draws

theorem pickDue_mem {l : List (ℕ × ℕ)} {draw : ℕ} (within : draw < (l.map Prod.snd).sum) :
    pickDue l draw ∈ l.map Prod.fst := by
  induction l generalizing draw with
  | nil => simp at within
  | cons e l ih =>
    obtain ⟨i, w⟩ := e
    unfold pickDue
    rw [map_cons, sum_cons] at within
    split_ifs with here
    · exact mem_cons_self
    · exact mem_cons_of_mem _ (ih (by omega))

theorem exists_pickDue {l : List (ℕ × ℕ)} (weighed : ∀ e ∈ l, 0 < e.2) {i : ℕ}
    (mem : i ∈ l.map Prod.fst) : ∃ draw < (l.map Prod.snd).sum, pickDue l draw = i := by
  induction l with
  | nil => simp at mem
  | cons e l ih =>
    obtain ⟨j, w⟩ := e
    have heavy : 0 < w := weighed _ mem_cons_self
    rw [map_cons, sum_cons]
    rcases mem_cons.1 mem with rfl | mem
    · exact ⟨0, Nat.add_pos_left heavy _, if_pos heavy⟩
    · obtain ⟨draw, within, picks⟩ := ih (fun e' mem' => weighed e' (mem_cons_of_mem _ mem')) mem
      refine ⟨w + draw, Nat.add_lt_add_left within w, ?_⟩
      unfold pickDue
      rw [if_neg (by omega), Nat.add_sub_cancel_left, picks]

variable {weights : List ℕ} {credit : List ℤ}

theorem due_weighed (positive : ∀ w ∈ weights, 0 < w) (credit : List ℤ) :
    ∀ e ∈ due credit weights [], 0 < e.2 := by
  rintro ⟨i, w⟩ mem
  obtain ⟨-, -, weighed, -⟩ := mem_due.1 mem
  exact positive w (mem_of_getElem? weighed)

theorem due_total_pos (positive : ∀ w ∈ weights, 0 < w) (weighed : 0 < weights.sum)
    (h : Balanced weights credit) :
    0 < ((due (earn credit weights) weights []).map Prod.snd).sum := by
  obtain ⟨i, may⟩ := h.someone weighed
  obtain ⟨draw, within, -⟩ := exists_pickDue (due_weighed positive _) may
  exact (Nat.zero_le draw).trans_lt within

variable [ScheduleHash]

theorem draw_mayLead {d : Drawn} {entry : Entry} (one : d.slots = 1)
    (positive : ∀ w ∈ entry.weights, 0 < w) (weighed : 0 < entry.weights.sum)
    (total : entry.total = entry.weights.sum) (h : Balanced entry.weights d.credit) :
    ∃ leader, MayLead entry.weights d.credit leader ∧
      (d.draw entry).leaders = d.leaders ++ [leader] ∧
      (d.draw entry).credit = slotCredit entry.weights d.credit leader ∧
      (d.draw entry).slots = 1 := by
  refine ⟨pickLeader entry d.nextRound 0 (earn d.credit entry.weights) [], ?_, ?_, ?_, one⟩
  · have pos := due_total_pos positive weighed h
    unfold pickLeader
    simp only
    rw [if_neg (Nat.ne_of_gt pos)]
    exact pickDue_mem (mod_lt _ pos)
  · unfold draw
    rw [one]
    rfl
  · unfold draw slotCredit
    rw [one, ← total]
    rfl

end Draws

end Tenzro.Drawn

namespace Tenzro.Committee
open Drawn Schedule List

def drawWeights (c : Committee) (outcomes : List (ValidatorIndex × Bool)) : List ℕ :=
  c.members.zipIdx.map (fun m => behaviourWeight outcomes m.1.seats m.2)

variable (c : Committee) (outcomes : List (ValidatorIndex × Bool))

theorem behaviourWeight_bounds (seats i : ℕ) :
    seats ≤ behaviourWeight outcomes seats i ∧
      behaviourWeight outcomes seats i ≤ seats * activeFactor := by
  unfold behaviourWeight failedFactor activeFactor
  simp only
  split_ifs <;> omega

theorem length_drawWeights : (c.drawWeights outcomes).length = c.size := by
  unfold drawWeights size
  rw [length_map, length_zipIdx]

theorem drawWeights_pos : ∀ w ∈ c.drawWeights outcomes, 0 < w := by
  intro w mem
  obtain ⟨⟨m, i⟩, entry, rfl⟩ := mem_map.1 mem
  have seated := c.seated m (fst_mem_of_mem_zipIdx entry)
  exact seated.trans_le (behaviourWeight_bounds outcomes m.seats i).1

theorem sum_drawWeights_pos : 0 < (c.drawWeights outcomes).sum := by
  refine sum_pos _ (c.drawWeights_pos outcomes) ?_
  rw [← length_pos_iff_ne_nil, length_drawWeights]
  exact length_pos_iff.2 c.nonempty

theorem sum_drawWeights_le : (c.drawWeights outcomes).sum ≤ maxTotalSeats * activeFactor := by
  have bound : ∀ (l : List Member) (k : ℕ),
      ((l.zipIdx k).map (fun m => behaviourWeight outcomes m.1.seats m.2)).sum ≤
        (l.map Member.seats).sum * activeFactor := by
    intro l
    induction l with
    | nil => exact fun _ => Nat.zero_le _
    | cons m l ih =>
      intro k
      have first := (behaviourWeight_bounds outcomes m.seats k).2
      have rest := ih (k + 1)
      simp only [zipIdx_cons, map_cons, sum_cons]
      rw [Nat.add_mul]
      omega
  exact (bound c.members 0).trans (Nat.mul_le_mul_right _ c.bounded)

def noCredit : List ℤ := replicate c.size 0

def FitsI64 (x : ℤ) : Prop := -2 ^ 63 ≤ x ∧ x < 2 ^ 63

theorem balanced_noCredit : Balanced (c.drawWeights outcomes) c.noCredit := by
  have start := balanced_zero (c.sum_drawWeights_pos outcomes)
  rw [length_drawWeights] at start
  exact start

theorem credit_fits {credit : List ℤ} (h : Balanced (c.drawWeights outcomes) credit) :
    ∀ x ∈ credit ++ earn credit (c.drawWeights outcomes), FitsI64 x := by
  have light := c.sum_drawWeights_le outcomes
  have small := c.small
  have low := le_of_sum (Int.natCast_nonneg _) h.low
  have wide : (credit.length : ℤ) * (c.drawWeights outcomes).sum ≤ 65535 * (4294967295 * 1000) := by
    rw [h.length, length_drawWeights]
    unfold maxTotalSeats activeFactor at light
    gcongr
    · exact_mod_cast small
    · exact_mod_cast light
  have most : ((c.drawWeights outcomes).sum : ℤ) ≤ 4294967295 * 1000 := by
    unfold maxTotalSeats activeFactor at light
    exact_mod_cast light
  have held : ∀ i < credit.length, -(4294967295 * 1000 : ℤ) < creditOf credit i ∧
      creditOf credit i ≤ 65535 * (4294967295 * 1000) := by
    intro i lt
    have below := h.low _ (creditOf_mem lt)
    have above := low _ (creditOf_mem lt)
    rw [h.sum, zero_add] at above
    exact ⟨by omega, above.trans wide⟩
  intro x mem
  unfold FitsI64
  rcases mem_append.1 mem with mem | mem
  · obtain ⟨i, lt, rfl⟩ := mem_creditOf mem
    have range := held i lt
    omega
  · obtain ⟨i, lt, rfl⟩ := mem_creditOf mem
    rw [length_earn] at lt
    have range := held i lt
    have weight := weightOf_le_sum (c.drawWeights outcomes) i
    rw [creditOf_earn h.length]
    omega

/-- With constant weights and one slot a round: credits sum to zero and fit, and a member leads at
most its share of a window and one exactly when its credit before leaves no room for more. -/
theorem leader_share (before : List ℕ)
    (drawn : Leads (c.drawWeights outcomes) c.noCredit before) :
    let weights := c.drawWeights outcomes
    let credit := creditAfter weights c.noCredit before
    credit.sum = 0 ∧ (∀ x ∈ credit ++ earn credit weights, FitsI64 x) ∧
      ∀ i < c.size, ∀ n : ℕ,
        (∀ l : List ℕ, l.length = n → Leads weights credit l →
          l.count i ≤ n * weightOf weights i / weights.sum + 1) ↔
        (creditOf credit i + (n * weightOf weights i % weights.sum : ℕ) ≤ weights.sum ∨
          n ≤ n * weightOf weights i / weights.sum + 1) := by
  have kept := (c.balanced_noCredit outcomes).after drawn
  refine ⟨kept.sum, c.credit_fits outcomes kept, fun i member n => ?_⟩
  exact kept.share (c.sum_drawWeights_pos outcomes) (by rw [length_drawWeights]; exact member) n

def threeSeats : Committee where
  epoch := 0
  members := [⟨0, 0, 1, 1⟩, ⟨1, 1, 1, 1⟩, ⟨2, 2, 1, 1⟩]
  nonempty := by decide
  small := by decide
  distinctKeys := by decide
  distinctAddresses := by decide
  seated := by decide
  bounded := by decide

/-- Once the two others led, both slots that follow are due to the first member. -/
theorem threeSeats_waits :
    Leads (threeSeats.drawWeights []) threeSeats.noCredit [1, 2] ∧
      Leads (threeSeats.drawWeights [])
        (creditAfter (threeSeats.drawWeights []) threeSeats.noCredit [1, 2]) [0, 0] := by
  unfold Leads Leads Leads MayLead
  decide +kernel

theorem leader_share_threeSeats :
    Leads (threeSeats.drawWeights []) threeSeats.noCredit [1, 2] ∧
      (creditAfter (threeSeats.drawWeights []) threeSeats.noCredit [1, 2]).sum = 0 :=
  ⟨threeSeats_waits.1, (leader_share threeSeats [] [1, 2] threeSeats_waits.1).1⟩

theorem threeSeats_leads_twice :
    let weights := threeSeats.drawWeights []
    Leads weights threeSeats.noCredit ([1, 2] ++ [0, 0]) ∧
      ¬ [0, 0].count 0 ≤ 2 * weightOf weights 0 / weights.sum + 1 :=
  ⟨leads_append.2 threeSeats_waits, by decide +kernel⟩

section Draws
variable [ScheduleHash]

/-- A schedule of one slot a round whose entries all have these weights, drawn from no credit. -/
structure DrawsOne (weights : List ℕ) (start : List ℤ) (s : Schedule) : Prop where
  slots : s.drawn.slots = 1
  entered : s.entries ≠ []
  entries : ∀ e ∈ s.entries, e.weights = weights ∧ e.total = weights.sum
  leads : Leads weights start s.drawn.leaders
  credit : s.drawn.credit = creditAfter weights start s.drawn.leaders

omit [ScheduleHash] in
theorem entryFor_mem {entries : List Entry} (entered : entries ≠ []) (round : ℕ) :
    entryFor entries round ∈ entries := by
  unfold entryFor
  cases found : entries.reverse.find? (fun e => e.from' ≤ round) with
  | none =>
    obtain ⟨e, l, rfl⟩ := exists_cons_of_ne_nil entered
    exact mem_cons_self
  | some e => exact mem_reverse.1 (mem_of_find?_eq_some found)

theorem DrawsOne.drawMore {s : Schedule} {start : List ℤ}
    (balanced : Balanced (c.drawWeights outcomes) start)
    (h : DrawsOne (c.drawWeights outcomes) start s) (n : ℕ) :
    DrawsOne (c.drawWeights outcomes) start (s.drawMore n) := by
  induction n generalizing s with
  | zero => exact h
  | succ n ih =>
    have mem := entryFor_mem h.entered s.drawn.nextRound
    obtain ⟨weights, total⟩ := h.entries _ mem
    have kept := balanced.after h.leads
    rw [← h.credit, ← weights] at kept
    obtain ⟨leader, may, leaders, credit, slots⟩ := draw_mayLead h.slots
      (by rw [weights]; exact c.drawWeights_pos outcomes)
      (by rw [weights]; exact c.sum_drawWeights_pos outcomes) (by rw [total, weights]) kept
    rw [weights, h.credit] at may credit
    refine ih ⟨slots, h.entered, h.entries, ?_, ?_⟩
    · rw [leaders]
      exact leads_append.2 ⟨h.leads, may, trivial⟩
    · rw [leaders, credit]
      unfold creditAfter
      rw [foldl_append]
      rfl

theorem leads_drawMore (seed : Digest) (lookahead n : ℕ) :
    Leads (c.drawWeights []) c.noCredit ((Schedule.new c seed 1 lookahead).drawMore n).drawn.leaders := by
  have weights : c.members.map (fun m => m.seats * activeFactor) = c.drawWeights [] := by
    conv_lhs => rw [← zipIdx_map_fst 0 c.members, map_map]
    rfl
  have one : max 1 (min 1 (max c.size 1)) = 1 := by omega
  have start : DrawsOne (c.drawWeights []) c.noCredit (Schedule.new c seed 1 lookahead) := by
    refine ⟨one, cons_ne_nil _ _, ?_, trivial, rfl⟩
    intro e mem
    rw [mem_singleton.1 mem]
    exact ⟨weights, congrArg List.sum weights⟩
  exact (start.drawMore c [] (c.balanced_noCredit []) n).leads

/-- With one slot a round, a member leads at most its share of the rounds drawn and one. -/
theorem drawMore_share (seed : Digest) (lookahead n : ℕ) {i : ℕ} (member : i < c.size) :
    let leaders := ((Schedule.new c seed 1 lookahead).drawMore n).drawn.leaders
    let weights := c.drawWeights []
    leaders.count i ≤ leaders.length * weightOf weights i / weights.sum + 1 := by
  intro leaders weights
  have weighed := c.sum_drawWeights_pos []
  have within : i < weights.length := by rwa [length_drawWeights]
  refine ((c.balanced_noCredit []).share weighed within leaders.length).2 (.inl ?_) leaders rfl
    (c.leads_drawMore seed lookahead n)
  have even : creditOf c.noCredit i = 0 := by simp [creditOf, noCredit]
  rw [even, zero_add]
  exact_mod_cast (Nat.mod_lt _ weighed).le

end Draws

local instance roundDraws : ScheduleHash := ⟨fun _ round _ => round, fun e _ => e, id⟩

theorem drawMore_share_threeSeats :
    let leaders := ((Schedule.new threeSeats 0 1 4).drawMore 6).drawn.leaders
    let weights := threeSeats.drawWeights []
    leaders.count 0 ≤ leaders.length * weightOf weights 0 / weights.sum + 1 :=
  threeSeats.drawMore_share 0 4 6 (by decide)

end Tenzro.Committee
