import Tenzro.ByteCodec
import Tenzro.FixedWidth
import Tenzro.Outcome
import Tenzro.SortedMap

set_option autoImplicit false
set_option linter.dupNamespace false

/-!
# Netted obligations

A batch of gross obligations is compressed, asset by asset, into instructions
that leave every party where the obligations would have left it.
-/

namespace Tenzro.Netting
open List Outcome

inductive SettlementError where
  | invalidAmount (reason : String)
  | nettingError (reason : String)
  | arithmeticOverflow (reason : String)
  deriving DecidableEq

/-- `Party` is the type of addresses, which the algorithm only compares. -/
structure Obligation (Party : Type) where
  debtor : Party
  creditor : Party
  asset : String
  amount : ℕ
  deriving DecidableEq

/-- `payer` and `payee` are the source's `from` and `to`. -/
structure SettlementInstruction (Party : Type) where
  payer : Party
  payee : Party
  asset : String
  amount : ℕ
  deriving DecidableEq

section
variable {Party : Type} [LinearOrder Party]

def Obligation.key (o : Obligation Party) : Party ×ₗ Party ×ₗ String ×ₗ ℕ :=
  toLex (o.debtor, toLex (o.creditor, toLex (o.asset, o.amount)))

def sortObligations (obligations : List (Obligation Party)) : List (Obligation Party) :=
  obligations.insertionSort fun a b => a.key ≤ b.key

/-- Parties of one side of an asset, with what each still owes or is owed. -/
abbrev Side (Party : Type) := List (Party × ℕ)

abbrev PositionMap (Party : Type) [LinearOrder Party] := SortedMap (String ×ₗ Party) (ℕ × ℕ)

def position (positions : PositionMap Party) (asset : String) (party : Party) : ℕ × ℕ :=
  positions.getD (toLex (asset, party)) (0, 0)

def accumulate (positions : PositionMap Party) (asset : String) (debtor creditor : Party)
    (amount : ℕ) : Except SettlementError (PositionMap Party) := do
  let d := position positions asset debtor
  let debit ← Checked.add (.arithmeticOverflow "netting debit sum overflow") 128 d.2 amount
  let positions := positions.insert (toLex (asset, debtor)) (d.1, debit)
  let c := position positions asset creditor
  let credit ← Checked.add (.arithmeticOverflow "netting credit sum overflow") 128 c.1 amount
  pure (positions.insert (toLex (asset, creditor)) (credit, c.2))

abbrev Reduced (Party : Type) := List ((String ×ₗ Party) × (Bool × ℕ))

def net : ℕ × ℕ → Option (Bool × ℕ)
  | (credit, debit) =>
    if debit < credit then some (true, credit - debit)
    else if credit < debit then some (false, debit - credit)
    else none

/-- The parties that are not flat, with whether they are owed and how much. -/
def reduce (positions : PositionMap Party) : Reduced Party :=
  positions.entries.filterMap fun e => (net e.2).map (e.1, ·)

def netPositions (obligations : List (Obligation Party)) :
    Except SettlementError (PositionMap Party) :=
  obligations.foldlM (fun p o => accumulate p o.asset o.debtor o.creditor o.amount) SortedMap.empty

def instructionPositions (instructions : List (SettlementInstruction Party)) :
    Except SettlementError (PositionMap Party) :=
  instructions.foldlM (fun p i => accumulate p i.asset i.payer i.payee i.amount) SortedMap.empty

def verifyNettingInvariant (obligations : List (Obligation Party))
    (instructions : List (SettlementInstruction Party)) : Except SettlementError Unit := do
  let expected ← netPositions obligations
  let actual ← instructionPositions instructions
  ensure (reduce expected = reduce actual)
    (.nettingError "instruction flows do not match net positions")

abbrev PerAssetLedger (Party : Type) := SortedMap String (Side Party × Side Party)

def enter (ledger : PerAssetLedger Party) (e : (String ×ₗ Party) × (Bool × ℕ)) :
    PerAssetLedger Party :=
  let (debtors, creditors) := ledger.getD (ofLex e.1).1 ([], [])
  ledger.insert (ofLex e.1).1 <|
    if e.2.1 then (debtors, creditors ++ [((ofLex e.1).2, e.2.2)])
    else (debtors ++ [((ofLex e.1).2, e.2.2)], creditors)

def perAsset (reduced : Reduced Party) : PerAssetLedger Party :=
  reduced.foldl enter SortedMap.empty

def largestFirst (parties : Side Party) : Side Party :=
  parties.insertionSort fun a b => b.2 < a.2 ∨ b.2 = a.2 ∧ a.1 ≤ b.1

def live (parties : Side Party) : Side Party := parties.filter fun p => 0 < p.2

omit [LinearOrder Party] in
theorem length_live_cons (p : Party × ℕ) (parties : Side Party) :
    (live (p :: parties)).length = (if 0 < p.2 then 1 else 0) + (live parties).length := by
  unfold live
  by_cases some : 0 < p.2
  · rw [filter_cons_of_pos (by simpa using some), length_cons, if_pos some, Nat.add_comm]
  · rw [filter_cons_of_neg (by simpa using some), if_neg some, Nat.zero_add]

def settle (asset : String) (debtors creditors : Side Party) :
    List (SettlementInstruction Party) :=
  match hd : largestFirst debtors, hc : largestFirst creditors with
  | d :: ds, c :: cs =>
    let matched := min d.2 c.2
    ⟨d.1, c.1, asset, matched⟩ ::
      settle asset (live ((d.1, d.2 - matched) :: ds)) (live ((c.1, c.2 - matched) :: cs))
  | _, _ => []
termination_by debtors.length + creditors.length
decreasing_by
  have left := congrArg length hd
  have right := congrArg length hc
  simp only [largestFirst, length_insertionSort, length_cons] at left right
  have ds_le : (live ds).length ≤ ds.length := length_filter_le ..
  have cs_le : (live cs).length ≤ cs.length := length_filter_le ..
  rw [length_live_cons, length_live_cons]
  split_ifs <;> omega

def settleAll (ledger : PerAssetLedger Party) : List (SettlementInstruction Party) :=
  ledger.entries.flatMap fun e => settle e.1 e.2.1 e.2.2

def checkObligation (o : Obligation Party) : Except SettlementError Unit := do
  ensure (o.amount ≠ 0) (.invalidAmount "obligation amount must be greater than zero")
  ensure (o.debtor ≠ o.creditor) (.nettingError "obligation debtor equals creditor")
  ensure (o.asset ≠ "") (.nettingError "obligation asset is empty")

structure NettingBatch (Party : Type) where
  obligations : List (Obligation Party)
  instructions : List (SettlementInstruction Party)
  grossTotal : ℕ
  netTotal : ℕ
  deriving DecidableEq

def computeNetting (obligations : List (Obligation Party)) :
    Except SettlementError (NettingBatch Party) := do
  ensure (obligations ≠ []) (.nettingError "obligation set is empty")
  obligations.forM checkObligation
  let sorted := sortObligations obligations
  let grossTotal ←
    Checked.sum (.arithmeticOverflow "netting gross total overflow") 128 (sorted.map (·.amount))
  let positions ← netPositions sorted
  let instructions := settleAll (perAsset (reduce positions))
  let netTotal ←
    Checked.sum (.arithmeticOverflow "netting net total overflow") 128
      (instructions.map (·.amount))
  pure ⟨sorted, instructions, grossTotal, netTotal⟩

/-! ### What obligations move -/

def moved (l : List (Obligation Party)) (p : Obligation Party → Bool) : ℕ :=
  ((l.filter p).map (·.amount)).sum

def credits (l : List (Obligation Party)) (asset : String) (party : Party) : ℕ :=
  moved l fun o => o.asset = asset ∧ o.creditor = party

def debits (l : List (Obligation Party)) (asset : String) (party : Party) : ℕ :=
  moved l fun o => o.asset = asset ∧ o.debtor = party

def total (l : List (Obligation Party)) : ℕ := (l.map (·.amount)).sum

def SettlementInstruction.flow (i : SettlementInstruction Party) : Obligation Party :=
  ⟨i.payer, i.payee, i.asset, i.amount⟩

section
variable {positions : PositionMap Party} {l : List (Obligation Party)} {o : Obligation Party}

section
omit [LinearOrder Party]

theorem moved_append (p : Obligation Party → Bool) :
    moved (l ++ [o]) p = moved l p + if p o then o.amount else 0 := by
  cases picked : p o <;> simp [moved, picked]

theorem moved_le (p : Obligation Party → Bool) : moved l p ≤ total l :=
  (filter_sublist.map _).sum_le_sum fun _ _ => Nat.zero_le _

theorem moved_perm {l' : List (Obligation Party)} (perm : l.Perm l') (p : Obligation Party → Bool) :
    moved l p = moved l' p := ((perm.filter p).map _).sum_eq

end

theorem total_sort : total (sortObligations l) = total l :=
  ((perm_insertionSort _ _).map _).sum_eq

theorem position_insert (positions : PositionMap Party) (asset other : String) (party q : Party)
    (v : ℕ × ℕ) : position (positions.insert (toLex (asset, party)) v) other q =
      if asset = other ∧ party = q then v else position positions other q := by
  simp [position, SortedMap.getD_insert, eq_comm]

/-- The sum of one component over the entries of the assets `φ` picks. -/
def held (positions : PositionMap Party) (φ : String → Bool) (f : ℕ × ℕ → ℕ) : ℕ :=
  (positions.entries.map fun e => if φ (ofLex e.1).1 then f e.2 else 0).sum

theorem held_insert (positions : PositionMap Party) (φ : String → Bool) {f : ℕ × ℕ → ℕ}
    (flat : f (0, 0) = 0) (asset : String) (party : Party) (v : ℕ × ℕ) :
    held (positions.insert (toLex (asset, party)) v) φ f +
        (if φ asset then f (position positions asset party) else 0) =
      held positions φ f + if φ asset then f v else 0 :=
  SortedMap.sum_insert positions (fun k v => if φ (ofLex k).1 then f v else 0) _ v
    (d := (0, 0)) (by simp [flat])

structure Records (positions : PositionMap Party) (l : List (Obligation Party)) : Prop where
  each asset party : position positions asset party = (credits l asset party, debits l asset party)
  owed φ : held positions φ Prod.fst = moved l (φ ·.asset)
  owing φ : held positions φ Prod.snd = moved l (φ ·.asset)

theorem accumulate_records (h : Records positions l) (fits : total l + o.amount < 2 ^ 128) :
    ∃ next, accumulate positions o.asset o.debtor o.creditor o.amount = .ok next ∧
      Records next (l ++ [o]) := by
  have room (p : Obligation Party → Bool) : moved l p + o.amount < 2 ^ 128 :=
    (Nat.add_le_add_right (moved_le p) _).trans_lt fits
  have debit : (position positions o.asset o.debtor).2 + o.amount < 2 ^ 128 := by
    rw [h.each]
    exact room _
  let v : ℕ × ℕ := ((position positions o.asset o.debtor).1,
    (position positions o.asset o.debtor).2 + o.amount)
  let first := positions.insert (toLex (o.asset, o.debtor)) v
  have first_eq (asset : String) (party : Party) : position first asset party =
      ((position positions asset party).1, (position positions asset party).2 +
        if o.asset = asset ∧ o.debtor = party then o.amount else 0) := by
    rw [position_insert]
    split_ifs with same
    · rw [← same.1, ← same.2]
    · rfl
  let w : ℕ × ℕ := ((position first o.asset o.creditor).1 + o.amount,
    (position first o.asset o.creditor).2)
  have credit : (position first o.asset o.creditor).1 + o.amount < 2 ^ 128 := by
    rw [first_eq, h.each]
    exact room _
  have sums (φ : String → Bool) (f : ℕ × ℕ → ℕ) (flat : f (0, 0) = 0) :=
    And.intro (held_insert positions φ flat o.asset o.debtor v)
      (held_insert first φ flat o.asset o.creditor w)
  refine ⟨first.insert (toLex (o.asset, o.creditor)) w, ?ran, ?each, ?owed, ?owing⟩
  case ran =>
    simp only [accumulate, Checked.add_ok debit]
    change (Checked.add _ 128 (position first o.asset o.creditor).1 o.amount >>= _) = _
    rw [Checked.add_ok credit]
    rfl
  case each =>
    intro asset party
    have last : position (first.insert (toLex (o.asset, o.creditor)) w) asset party =
        ((position first asset party).1 +
          if o.asset = asset ∧ o.creditor = party then o.amount else 0,
          (position first asset party).2) := by
      rw [position_insert]
      split_ifs with same
      · rw [← same.1, ← same.2]
      · rfl
    rw [last, first_eq, h.each]
    simp only [credits, debits, moved_append, decide_eq_true_eq]
  case owed =>
    intro φ
    obtain ⟨one, two⟩ := sums φ Prod.fst rfl
    have kept : v.1 = (position positions o.asset o.debtor).1 := rfl
    have grown : w.1 = (position first o.asset o.creditor).1 + o.amount := rfl
    rw [moved_append, ← h.owed φ]
    change held first φ Prod.fst + _ = _ at one
    split_ifs at one two ⊢ <;> omega
  case owing =>
    intro φ
    obtain ⟨one, two⟩ := sums φ Prod.snd rfl
    have grown : v.2 = (position positions o.asset o.debtor).2 + o.amount := rfl
    have kept : w.2 = (position first o.asset o.creditor).2 := rfl
    rw [moved_append, ← h.owing φ]
    change held first φ Prod.snd + _ = _ at one
    split_ifs at one two ⊢ <;> omega

theorem netPositions_ok (fits : total l < 2 ^ 128) :
    ∃ positions, netPositions l = .ok positions ∧ Records positions l := by
  induction l using reverseRecOn with
  | nil => exact ⟨SortedMap.empty, rfl, fun _ _ => rfl, fun _ => rfl, fun _ => rfl⟩
  | append_singleton l o ih =>
    rw [total, map_append, sum_append, map_singleton, sum_singleton] at fits
    obtain ⟨positions, ran, records⟩ := ih ((Nat.le_add_right ..).trans_lt fits)
    obtain ⟨next, stepped, records⟩ := accumulate_records records fits
    refine ⟨next, ?_, records⟩
    rw [netPositions, foldlM_append]
    refine bind_ok.2 ⟨positions, ran, ?_⟩
    rw [foldlM_cons]
    exact bind_ok.2 ⟨next, stepped, rfl⟩

/-! ### The sides of an asset -/

theorem net_cases (v : ℕ × ℕ) : v.2 < v.1 ∧ net v = some (true, v.1 - v.2) ∨
    v.1 < v.2 ∧ net v = some (false, v.2 - v.1) ∨ v.1 = v.2 ∧ net v = none := by
  simp only [net]
  split_ifs with more less
  · exact .inl ⟨more, rfl⟩
  · exact .inr (.inl ⟨less, rfl⟩)
  · exact .inr (.inr ⟨by omega, rfl⟩)

/-- What a party of the side is owed, or owes. -/
def surplus : Bool → ℕ × ℕ → ℕ
  | true, v => v.1 - v.2
  | false, v => v.2 - v.1

def sideOf (side : Bool) (reduced : Reduced Party) (asset : String) :
    Side Party :=
  reduced.filterMap fun e =>
    if (ofLex e.1).1 = asset ∧ e.2.1 = side then some ((ofLex e.1).2, e.2.2) else none

omit [LinearOrder Party] in
theorem getD_perAsset (reduced : Reduced Party) (asset : String) :
    (perAsset reduced).getD asset ([], []) =
      (sideOf false reduced asset, sideOf true reduced asset) := by
  induction reduced using reverseRecOn with
  | nil => rfl
  | append_singleton r e ih =>
    rw [perAsset, foldl_append]
    change (enter (perAsset r) e).getD asset _ = _
    rw [enter, SortedMap.getD_insert]
    by_cases same : asset = (ofLex e.1).1
    · subst same
      rw [if_pos rfl, ih]
      cases side : e.2.1 <;> simp [sideOf, side]
    · rw [if_neg same, ih]
      simp [sideOf, Ne.symm same]

def owes (parties : Side Party) (φ : Party → Bool) : ℕ :=
  ((parties.filter fun p => φ p.1).map (·.2)).sum

theorem owes_sideOf (side : Bool) (positions : PositionMap Party) (asset : String)
    (φ : Party → Bool) : owes (sideOf side (reduce positions) asset) φ =
      (positions.entries.map fun e =>
        if (ofLex e.1).1 = asset ∧ φ (ofLex e.1).2 then surplus side e.2 else 0).sum := by
  unfold reduce
  induction positions.entries with
  | nil => rfl
  | cons e l ih =>
    rw [map_cons, sum_cons, ← ih, filterMap_cons]
    rcases net_cases e.2 with ⟨order, reduced⟩ | ⟨order, reduced⟩ | ⟨order, reduced⟩ <;>
      rw [reduced] <;> by_cases here : (ofLex e.1).1 = asset <;>
      cases picked : φ (ofLex e.1).2 <;> cases side <;> simp [sideOf, owes, surplus, here, picked]
    all_goals omega

/-! ### The loop -/

section
omit [LinearOrder Party]

theorem owes_cons (p : Party × ℕ) (parties : Side Party) (φ : Party → Bool) :
    owes (p :: parties) φ = (if φ p.1 then p.2 else 0) + owes parties φ := by
  cases picked : φ p.1 <;> simp [owes, picked]

theorem owes_live (parties : Side Party) (φ : Party → Bool) :
    owes (live parties) φ = owes parties φ := by
  induction parties with
  | nil => rfl
  | cons p parties ih =>
    rw [owes_cons, ← ih, live, filter_cons]
    split_ifs with positive picked picked
    · rw [owes_cons, if_pos picked]
      rfl
    · rw [owes_cons, if_neg picked]
      rfl
    · have nothing : p.2 = 0 := by simpa using positive
      rw [nothing, Nat.zero_add]
      rfl
    · exact (Nat.zero_add _).symm

theorem owes_le (parties : Side Party) (φ : Party → Bool) :
    owes parties φ ≤ owes parties fun _ => true := by
  refine Sublist.sum_le_sum (Sublist.map _ ?_) fun _ _ => Nat.zero_le _
  rw [filter_true]
  exact filter_sublist

theorem owes_append (l r : Side Party) (φ : Party → Bool) :
    owes (l ++ r) φ = owes l φ + owes r φ := by
  simp [owes]

end

theorem owes_largestFirst (parties : Side Party) (φ : Party → Bool) :
    owes (largestFirst parties) φ = owes parties φ :=
  (((perm_insertionSort _ _).filter _).map _).sum_eq

theorem asset_settle (asset : String) (debtors creditors : Side Party) :
    ∀ i ∈ settle asset debtors creditors, i.asset = asset := by
  fun_induction settle asset debtors creditors with
  | case1 debtors creditors d ds c cs hd hc matched ih =>
    rintro i (_ | ⟨_, mem⟩)
    · rfl
    · exact ih i mem
  | case2 => simp

/-- When the sides hold the same, the loop ends with both drained. -/
theorem settle_drains (asset : String) (debtors creditors : Side Party)
    (balanced : owes debtors (fun _ => true) = owes creditors fun _ => true) (φ : Party → Bool) :
    (((settle asset debtors creditors).filter fun i => φ i.payer).map (·.amount)).sum =
        owes debtors φ ∧
      (((settle asset debtors creditors).filter fun i => φ i.payee).map (·.amount)).sum =
        owes creditors φ := by
  fun_induction settle asset debtors creditors with
  | case1 debtors creditors d ds c cs hd hc matched ih =>
    have left (φ : Party → Bool) := owes_largestFirst debtors φ
    have right (φ : Party → Bool) := owes_largestFirst creditors φ
    simp only [hd, hc, owes_cons] at left right
    have le_left : matched ≤ d.2 := Nat.min_le_left ..
    have le_right : matched ≤ c.2 := Nat.min_le_right ..
    rw [← left, ← right] at balanced
    simp only [if_true] at balanced
    obtain ⟨paid, received⟩ := ih (by
      simp only [owes_live, owes_cons, if_true]
      omega)
    rw [owes_live, owes_cons] at paid received
    rw [filter_cons, filter_cons, ← left, ← right]
    constructor
    · split_ifs at paid ⊢ with picked
      · rw [map_cons, sum_cons, paid]
        change matched + (d.2 - matched + owes ds φ) = d.2 + owes ds φ
        omega
      · rw [paid]
    · split_ifs at received ⊢ with picked
      · rw [map_cons, sum_cons, received]
        change matched + (c.2 - matched + owes cs φ) = c.2 + owes cs φ
        omega
      · rw [received]
  | case2 debtors creditors ended =>
    have drained : owes debtors (fun _ => true) = 0 := by
      rw [← owes_largestFirst]
      cases hd : largestFirst debtors with
      | nil => rfl
      | cons d ds =>
        rw [← hd, owes_largestFirst, balanced, ← owes_largestFirst]
        cases hc : largestFirst creditors with
        | nil => rfl
        | cons c cs => exact (ended d ds c cs hd hc).elim
    have left := owes_le debtors φ
    have right := owes_le creditors φ
    rw [← balanced] at right
    exact ⟨(Nat.le_zero.1 (drained ▸ left)).symm, (Nat.le_zero.1 (drained ▸ right)).symm⟩

theorem settle_positive (asset : String) (debtors creditors : Side Party)
    (owing : ∀ p ∈ debtors, 0 < p.2) (owed : ∀ p ∈ creditors, 0 < p.2) :
    ∀ i ∈ settle asset debtors creditors, 0 < i.amount := by
  fun_induction settle asset debtors creditors with
  | case1 debtors creditors d ds c cs hd hc matched ih =>
    rintro i (_ | ⟨_, mem⟩)
    · refine lt_min (owing d ?_) (owed c ?_)
      · exact (mem_insertionSort _).1 (hd ▸ mem_cons_self)
      · exact (mem_insertionSort _).1 (hc ▸ mem_cons_self)
    · have alive (l : Side Party) : ∀ p ∈ live l, 0 < p.2 :=
        fun p mem => of_decide_eq_true (mem_filter.1 mem).2
      exact ih (alive _) (alive _) i mem
  | case2 => simp

theorem settle_nil (asset : String) (creditors : Side Party) :
    settle asset [] creditors = [] := by
  rw [settle]
  split
  case h_1 hd hc => exact absurd hd (by simp [largestFirst])
  case h_2 => rfl

theorem length_settle (asset : String) (debtors creditors : Side Party)
    (owing : ∀ p ∈ debtors, 0 < p.2) (some : debtors ≠ [])
    (balanced : owes debtors (fun _ => true) = owes creditors fun _ => true) :
    (settle asset debtors creditors).length + 1 ≤ debtors.length + creditors.length := by
  fun_induction settle asset debtors creditors with
  | case1 debtors creditors d ds c cs hd hc matched ih =>
    have left := congrArg length hd
    have right := congrArg length hc
    simp only [largestFirst, length_insertionSort, length_cons] at left right
    have ds_le : (live ds).length ≤ ds.length := length_filter_le ..
    have cs_le : (live cs).length ≤ cs.length := length_filter_le ..
    rw [length_cons]
    by_cases drained : live ((d.1, d.2 - matched) :: ds) = []
    · rw [drained, settle_nil, length_nil]
      omega
    · have rest := ih (fun p mem => of_decide_eq_true (mem_filter.1 mem).2) drained (by
        have left := owes_largestFirst debtors fun _ => true
        have right := owes_largestFirst creditors fun _ => true
        simp only [hd, hc, owes_cons, if_true] at left right
        simp only [owes_live, owes_cons, if_true]
        omega)
      have lost : d.2 - matched = 0 ∨ c.2 - matched = 0 := by omega
      rw [length_live_cons, length_live_cons] at rest
      split_ifs at rest <;> omega
  | case2 debtors creditors ended =>
    obtain ⟨p, rest, rfl⟩ := exists_cons_of_ne_nil some
    have held := owing p mem_cons_self
    rw [owes_cons, if_pos rfl] at balanced
    cases creditors with
    | nil =>
      change p.2 + owes rest _ = 0 at balanced
      omega
    | cons c cs =>
      simp only [length_nil, length_cons]
      omega

/-! ### The instructions -/

section
variable {positions : PositionMap Party} {asset : String} {side : Bool}

theorem owes_party (party : Party) : owes (sideOf side (reduce positions) asset) (· = party) =
    surplus side (position positions asset party) := by
  rw [owes_sideOf, position, ← SortedMap.sum_single positions (surplus side) _
    (d := (0, 0)) (by cases side <;> rfl)]
  refine congrArg sum (map_congr_left fun e _ => if_congr ?_ rfl rfl)
  rw [decide_eq_true_eq, ← Prod.mk.injEq]
  exact ⟨fun h => congrArg toLex h, fun h => congrArg ofLex h⟩

theorem pos_of_net {v : ℕ × ℕ} {b : Bool} {n : ℕ} (h : net v = some (b, n)) : 0 < n := by
  rcases net_cases v with ⟨order, reduced⟩ | ⟨order, reduced⟩ | ⟨-, reduced⟩ <;>
    rw [reduced] at h <;> cases h <;> omega

theorem pos_sideOf : ∀ p ∈ sideOf side (reduce positions) asset, 0 < p.2 := by
  rintro p mem
  obtain ⟨e, reduced, picked⟩ := mem_filterMap.1 mem
  obtain ⟨f, -, mapped⟩ := mem_filterMap.1 reduced
  obtain ⟨v, found, rfl⟩ := Option.map_eq_some_iff.1 mapped
  split_ifs at picked
  cases picked
  exact pos_of_net found

theorem sides_balanced {l : List (Obligation Party)} (h : Records positions l) (asset : String) :
    owes (sideOf false (reduce positions) asset) (fun _ => true) =
      owes (sideOf true (reduce positions) asset) fun _ => true := by
  have same : held positions (· = asset) Prod.fst = held positions (· = asset) Prod.snd :=
    (h.owed (· = asset)).trans (h.owing (· = asset)).symm
  have each (entries : List ((String ×ₗ Party) × (ℕ × ℕ))) :
      (entries.map fun e => if (ofLex e.1).1 = asset ∧ true then surplus false e.2 else 0).sum +
          (entries.map fun e => if (ofLex e.1).1 = asset then e.2.1 else 0).sum =
        (entries.map fun e => if (ofLex e.1).1 = asset ∧ true then surplus true e.2 else 0).sum +
          (entries.map fun e => if (ofLex e.1).1 = asset then e.2.2 else 0).sum := by
    induction entries with
    | nil => rfl
    | cons e entries ih =>
      simp only [map_cons, sum_cons, surplus, and_true] at ih ⊢
      split_ifs <;> omega
  rw [owes_sideOf, owes_sideOf]
  have sums := each positions.entries
  simp only [held, decide_eq_true_eq] at same
  omega

theorem filter_settleAll : (settleAll (perAsset (reduce positions))).filter (·.asset = asset) =
    settle asset (sideOf false (reduce positions) asset)
      (sideOf true (reduce positions) asset) := by
  have sides := getD_perAsset (reduce positions) asset
  refine (SortedMap.filter_flatMap (perAsset (reduce positions))
    (g := fun a (v : Side Party × Side Party) => settle a v.1 v.2)
    (fun a v => asset_settle a v.1 v.2) asset).trans ?_
  rw [SortedMap.getD] at sides
  cases found : (perAsset (reduce positions)).get? asset with
  | none =>
    rw [found, Option.getD_none] at sides
    obtain ⟨debtors, creditors⟩ := Prod.mk.inj sides
    rw [← debtors, settle_nil]
    rfl
  | some v =>
    rw [found, Option.getD_some] at sides
    rw [sides]
    rfl

theorem length_sides {l : List (Obligation Party)} (h : Records positions l)
    {parties : Finset Party} (all : ∀ p, credits l asset p ≠ debits l asset p → p ∈ parties) :
    (sideOf false (reduce positions) asset).length +
      (sideOf true (reduce positions) asset).length ≤ parties.card := by
  let uneven := positions.entries.filter fun e => (ofLex e.1).1 = asset ∧ e.2.1 ≠ e.2.2
  have count : (sideOf false (reduce positions) asset).length +
      (sideOf true (reduce positions) asset).length = uneven.length := by
    simp only [uneven, reduce]
    induction positions.entries with
    | nil => rfl
    | cons e entries ih =>
      rw [filterMap_cons, filter_cons]
      by_cases here : (ofLex e.1).1 = asset
      · rcases net_cases e.2 with ⟨order, reduced⟩ | ⟨order, reduced⟩ | ⟨same, reduced⟩ <;>
          rw [reduced]
        · simp_all [sideOf, order.ne']
          omega
        · simp_all [sideOf, order.ne]
          omega
        · simp_all [sideOf]
      · cases reduced : net e.2 <;> simp_all [sideOf]
  have apart : (uneven.map fun e => (ofLex e.1).2).Nodup := by
    refine pairwise_map.2 ((positions.sorted.filter _).imp_of_mem fun {a b} left right below => ?_)
    have left := (of_decide_eq_true (mem_filter.1 left).2).1
    have right := (of_decide_eq_true (mem_filter.1 right).2).1
    intro same
    exact below.ne (Prod.ext (left.trans right.symm) same : ofLex a.1 = ofLex b.1)
  rw [count, ← length_map fun e => (ofLex e.1).2, ← toFinset_card_of_nodup apart]
  refine Finset.card_le_card fun p mem => all p ?_
  obtain ⟨e, kept, rfl⟩ := mem_map.1 (mem_toFinset.1 mem)
  obtain ⟨entry, differs⟩ := mem_filter.1 kept
  obtain ⟨rfl, uneven_here⟩ := of_decide_eq_true differs
  have found : position positions (ofLex e.1).1 (ofLex e.1).2 = e.2 :=
    congrArg (fun v => v.getD (0, 0)) (SortedMap.mem_entries.1 entry)
  rw [h.each] at found
  rw [← found] at uneven_here
  exact uneven_here

omit [LinearOrder Party] in
theorem owes_perAsset (reduced : Reduced Party) :
    ((perAsset reduced).entries.map fun e => owes e.2.1 fun _ => true).sum =
      (reduced.map fun e => if e.2.1 then 0 else e.2.2).sum := by
  induction reduced using reverseRecOn with
  | nil => rfl
  | append_singleton r e ih =>
    have entered := SortedMap.sum_insert (perAsset r)
      (fun _ (v : Side Party × Side Party) => owes v.1 fun _ => true)
      (ofLex e.1).1 (if e.2.1 then
        (((perAsset r).getD (ofLex e.1).1 ([], [])).1,
          ((perAsset r).getD (ofLex e.1).1 ([], [])).2 ++ [((ofLex e.1).2, e.2.2)])
        else (((perAsset r).getD (ofLex e.1).1 ([], [])).1 ++ [((ofLex e.1).2, e.2.2)],
          ((perAsset r).getD (ofLex e.1).1 ([], [])).2)) (d := ([], [])) rfl
    rw [perAsset, foldl_append, map_append, sum_append, ← ih]
    change ((enter (perAsset r) e).entries.map _).sum = _
    rw [enter]
    cases side : e.2.1 <;> simp [side, owes_append, owes_cons] at entered ⊢
    · have one : owes ([] : Side Party) (fun _ => true) = 0 := rfl
      omega
    · exact entered

theorem sum_settleAll {l : List (Obligation Party)} (h : Records positions l) :
    ((settleAll (perAsset (reduce positions))).map (·.amount)).sum =
      (positions.entries.map fun e => surplus false e.2).sum := by
  have each : ((perAsset (reduce positions)).entries.map fun e =>
      ((settle e.1 e.2.1 e.2.2).map (·.amount)).sum) =
      (perAsset (reduce positions)).entries.map fun e => owes e.2.1 fun _ => true := by
    refine map_congr_left fun e mem => ?_
    have sides := getD_perAsset (reduce positions) e.1
    rw [SortedMap.getD, SortedMap.mem_entries.1 mem, Option.getD_some] at sides
    rw [sides]
    have drained := (settle_drains e.1 _ _ (sides_balanced h e.1) fun _ => true).1
    rwa [filter_true] at drained
  have debtors (entries : List ((String ×ₗ Party) × (ℕ × ℕ))) :
      ((entries.filterMap fun e => (net e.2).map (e.1, ·)).map fun e =>
        if e.2.1 then 0 else e.2.2).sum = (entries.map fun e => surplus false e.2).sum := by
    induction entries with
    | nil => rfl
    | cons e entries ih =>
      rw [filterMap_cons, map_cons, sum_cons, ← ih]
      rcases net_cases e.2 with ⟨order, reduced⟩ | ⟨order, reduced⟩ | ⟨order, reduced⟩ <;>
        rw [reduced] <;> simp [surplus] <;> omega
  rw [settleAll, map_flatMap, flatMap_def, sum_flatten, map_map]
  refine (congrArg sum each).trans ((owes_perAsset _).trans ?_)
  exact debtors positions.entries

end

/-! ### The batch -/

section
variable {obligations other : List (Obligation Party)}
  {instructions : List (SettlementInstruction Party)} {batch : NettingBatch Party}

/-- The instructions move what the obligations leave each party owing or owed, and no more. -/
structure Nets (obligations : List (Obligation Party))
    (instructions : List (SettlementInstruction Party)) : Prop where
  paid asset party : debits (instructions.map (·.flow)) asset party =
    debits obligations asset party - credits obligations asset party
  received asset party : credits (instructions.map (·.flow)) asset party =
    credits obligations asset party - debits obligations asset party
  positive : ∀ i ∈ instructions, 0 < i.amount
  /-- One fewer than the parties that are not even. -/
  few asset (parties : Finset Party) :
    (∀ p, credits obligations asset p ≠ debits obligations asset p → p ∈ parties) →
      (instructions.filter (·.asset = asset)).length ≤ parties.card - 1

omit [LinearOrder Party] in
theorem moved_flow (asset : String) (ψ : Obligation Party → Prop) [DecidablePred ψ] :
    moved (instructions.map (·.flow)) (fun o => o.asset = asset ∧ ψ o) =
      (((instructions.filter (·.asset = asset)).filter (ψ ·.flow)).map (·.amount)).sum := by
  rw [moved, filter_map, map_map, filter_filter]
  refine congrArg (fun l => (map _ l).sum) (filter_congr fun i _ => ?_)
  exact (Bool.decide_and _ _).trans (Bool.and_comm _ _)

theorem nets_settleAll {positions : PositionMap Party} (h : Records positions obligations) :
    Nets obligations (settleAll (perAsset (reduce positions))) where
  paid asset party := by
    have drained := (settle_drains asset _ _ (sides_balanced h asset) (· = party)).1
    rw [owes_party, h.each, ← filter_settleAll] at drained
    exact (moved_flow _ _).trans drained
  received asset party := by
    have drained := (settle_drains asset _ _ (sides_balanced h asset) (· = party)).2
    rw [owes_party, h.each, ← filter_settleAll] at drained
    exact (moved_flow _ _).trans drained
  positive i mem := by
    have own : i ∈ (settleAll (perAsset (reduce positions))).filter (·.asset = i.asset) :=
      mem_filter.2 ⟨mem, decide_eq_true rfl⟩
    rw [filter_settleAll] at own
    exact settle_positive _ _ _ pos_sideOf pos_sideOf i own
  few asset parties all := by
    have sides := length_sides h all
    rw [filter_settleAll]
    by_cases some : sideOf false (reduce positions) asset = []
    · rw [some, settle_nil]
      exact Nat.zero_le _
    · have short := length_settle asset _ _ pos_sideOf some (sides_balanced h asset)
      omega

theorem Records.perm {positions : PositionMap Party} (h : Records positions obligations)
    (perm : obligations.Perm other) : Records positions other where
  each asset party := (h.each asset party).trans (Prod.ext (moved_perm perm _) (moved_perm perm _))
  owed φ := (h.owed φ).trans (moved_perm perm _)
  owing φ := (h.owing φ).trans (moved_perm perm _)

theorem sortObligations_perm (perm : obligations.Perm other) :
    sortObligations obligations = sortObligations other := by
  have either : Std.Total fun a b : Obligation Party => a.key ≤ b.key :=
    ⟨fun a b => le_total a.key b.key⟩
  have chained : IsTrans (Obligation Party) fun a b => a.key ≤ b.key :=
    ⟨fun _ _ _ => le_trans⟩
  refine Perm.eq_of_pairwise ?_ (pairwise_insertionSort _ obligations)
    (pairwise_insertionSort _ other)
    ((perm_insertionSort _ _).trans (perm.trans (perm_insertionSort _ _).symm))
  rintro ⟨⟩ ⟨⟩ _ _ below above
  cases toLex.injective (le_antisymm below above)
  rfl

theorem mem_reduce {positions : PositionMap Party} {k : String ×ₗ Party} {x : Bool × ℕ} :
    (k, x) ∈ reduce positions ↔ net (positions.getD k (0, 0)) = some x := by
  rw [reduce, mem_filterMap]
  constructor
  · rintro ⟨⟨j, v⟩, entry, reduced⟩
    obtain ⟨y, found, same⟩ := Option.map_eq_some_iff.1 reduced
    cases same
    rwa [SortedMap.getD, SortedMap.mem_entries.1 entry]
  · intro reduced
    cases found : positions.get? k with
    | none =>
      rw [SortedMap.getD, found] at reduced
      cases reduced
    | some v =>
      rw [SortedMap.getD, found, Option.getD_some] at reduced
      exact ⟨(k, v), SortedMap.mem_entries.2 found, Option.map_eq_some_iff.2 ⟨x, reduced, rfl⟩⟩

theorem reduce_eq_iff {positions positions' : PositionMap Party} :
    reduce positions = reduce positions' ↔ ∀ asset party,
      (position positions asset party).1 + (position positions' asset party).2 =
        (position positions asset party).2 + (position positions' asset party).1 := by
  have same (v w : ℕ × ℕ) : net v = net w ↔ v.1 + w.2 = v.2 + w.1 := by
    rcases net_cases v with ⟨order, reduced⟩ | ⟨order, reduced⟩ | ⟨order, reduced⟩ <;>
      rcases net_cases w with ⟨order', reduced'⟩ | ⟨order', reduced'⟩ | ⟨order', reduced'⟩ <;>
      rw [reduced, reduced'] <;> simp <;> omega
  have sorted (positions : PositionMap Party) :
      (reduce positions).Pairwise fun a b => a.1 < b.1 := by
    refine positions.sorted.filterMap _ fun a b below x left y right => ?_
    obtain ⟨_, -, rfl⟩ := Option.map_eq_some_iff.1 left
    obtain ⟨_, -, rfl⟩ := Option.map_eq_some_iff.1 right
    exact below
  constructor
  · intro eq asset party
    refine (same _ _).1 (Option.ext fun x => ?_)
    refine mem_reduce.symm.trans ?_
    rw [eq]
    exact mem_reduce
  · intro each
    refine SortedMap.entries_ext (sorted _) (sorted _) fun k => Option.ext fun x => ?_
    have found (q : PositionMap Party) : SortedMap.find (reduce q) k = some x ↔
        net (q.getD k (0, 0)) = some x :=
      Iff.trans ⟨SortedMap.mem_of_find, SortedMap.find_of_mem (sorted q)⟩ mem_reduce
    rw [found, found]
    exact ((same _ _).2 (each (ofLex k).1 (ofLex k).2)) ▸ Iff.rfl

theorem verify_iff (fits : total obligations < 2 ^ 128)
    (fits' : total (instructions.map (·.flow)) < 2 ^ 128) :
    verifyNettingInvariant obligations instructions = .ok () ↔ ∀ asset party,
      credits obligations asset party + debits (instructions.map (·.flow)) asset party =
        debits obligations asset party + credits (instructions.map (·.flow)) asset party := by
  obtain ⟨positions, ran, records⟩ := netPositions_ok fits
  obtain ⟨positions', ran', records'⟩ := netPositions_ok fits'
  have moves : instructionPositions instructions = .ok positions' := by
    rw [← ran', netPositions, foldlM_map]
    rfl
  have checks : verifyNettingInvariant obligations instructions = .ok () ↔
      reduce positions = reduce positions' := by
    rw [verifyNettingInvariant, ran, moves]
    exact ensure_ok
  rw [checks, reduce_eq_iff]
  simp only [records.each, records'.each]

theorem checkObligation_ok {o : Obligation Party} : checkObligation o = .ok () ↔
    o.amount ≠ 0 ∧ o.debtor ≠ o.creditor ∧ o.asset ≠ "" := by
  simp [checkObligation, bind_ok]

theorem forM_ok {l : List (Obligation Party)} :
    l.forM checkObligation = .ok () ↔ ∀ o ∈ l, checkObligation o = .ok () := by
  induction l with
  | nil => simp [pure_ok]
  | cons o l ih =>
    change (checkObligation o >>= fun _ => l.forM checkObligation) = _ ↔ _
    rw [bind_ok, forall_mem_cons, ← ih]
    constructor
    · rintro ⟨_, first, rest⟩
      exact ⟨first, rest⟩
    · rintro ⟨first, rest⟩
      exact ⟨(), first, rest⟩

theorem computeNetting_of (some : obligations ≠ [])
    (each : ∀ o ∈ obligations, checkObligation o = .ok ()) (fits : total obligations < 2 ^ 128) :
    ∃ positions, Records positions obligations ∧
      ((settleAll (perAsset (reduce positions))).map (·.amount)).sum ≤ total obligations ∧
      computeNetting obligations =
        .ok ⟨sortObligations obligations, settleAll (perAsset (reduce positions)),
          total obligations, ((settleAll (perAsset (reduce positions))).map (·.amount)).sum⟩ := by
  obtain ⟨positions, ran, records⟩ := netPositions_ok (total_sort.trans_lt fits)
  have records := records.perm (perm_insertionSort _ _)
  have less : ((settleAll (perAsset (reduce positions))).map (·.amount)).sum ≤
      total obligations := by
    have all : held positions (fun _ => true) Prod.snd = total obligations := by
      rw [records.owing, moved, filter_true]
      rfl
    rw [sum_settleAll records, ← all]
    exact sum_le_sum fun e _ => Nat.sub_le e.2.2 e.2.1
  refine ⟨positions, records, less, ?_⟩
  rw [computeNetting]
  refine bind_ok.2 ⟨(), ensure_ok.2 some, bind_ok.2 ⟨⟨⟩, forM_ok.2 each, ?_⟩⟩
  refine bind_ok.2 ⟨_, Checked.sum_ok (total_sort.trans_lt fits), bind_ok.2 ⟨positions, ran, ?_⟩⟩
  refine bind_ok.2 ⟨_, Checked.sum_ok (less.trans_lt fits), ?_⟩
  exact congrArg (fun n => Except.ok (NettingBatch.mk _ _ n _)) total_sort

theorem computeNetting_inv (went : computeNetting obligations = .ok batch) :
    obligations ≠ [] ∧ (∀ o ∈ obligations, checkObligation o = .ok ()) ∧
      total obligations < 2 ^ 128 := by
  obtain ⟨_, some, went⟩ := bind_ok.1 went
  obtain ⟨_, each, went⟩ := bind_ok.1 went
  obtain ⟨_, gross, -⟩ := bind_ok.1 went
  exact ⟨ensure_ok.1 some, forM_ok.1 each, total_sort.symm.trans_lt (Checked.sum_fits gross)⟩

/-- No sum of the computation overflows unless the gross total does. -/
theorem computeNetting_accepts : (∃ batch, computeNetting obligations = .ok batch) ↔
    obligations ≠ [] ∧
      (∀ o ∈ obligations, o.amount ≠ 0 ∧ o.debtor ≠ o.creditor ∧ o.asset ≠ "") ∧
      total obligations < 2 ^ 128 := by
  constructor
  · rintro ⟨batch, went⟩
    obtain ⟨some, each, fits⟩ := computeNetting_inv went
    exact ⟨some, fun o mem => checkObligation_ok.1 (each o mem), fits⟩
  · rintro ⟨some, each, fits⟩
    obtain ⟨_, -, -, went⟩ :=
      computeNetting_of some (fun o mem => checkObligation_ok.2 (each o mem)) fits
    exact ⟨_, went⟩

/-- Every party ends where the obligations would have left it, and the code's own check of it
passes. -/
theorem computeNetting_nets (went : computeNetting obligations = .ok batch) :
    batch.obligations.Perm obligations ∧ Nets obligations batch.instructions ∧
      batch.grossTotal = total obligations ∧
      batch.netTotal = (batch.instructions.map (·.amount)).sum ∧
      batch.netTotal ≤ batch.grossTotal ∧
      verifyNettingInvariant batch.obligations batch.instructions = .ok () := by
  obtain ⟨some, each, fits⟩ := computeNetting_inv went
  obtain ⟨positions, records, less, ran⟩ := computeNetting_of some each fits
  cases ran.symm.trans went
  have nets := nets_settleAll records
  have perm : (sortObligations obligations).Perm obligations := perm_insertionSort _ _
  refine ⟨perm, nets, rfl, rfl, less, (verify_iff ?_ ?_).2 fun asset party => ?_⟩
  · exact total_sort.trans_lt fits
  · refine lt_of_le_of_lt (le_of_eq ?_) (less.trans_lt fits)
    rw [total, map_map]
    rfl
  · change moved (sortObligations obligations) _ + _ = moved (sortObligations obligations) _ + _
    rw [moved_perm perm, moved_perm perm, nets.paid, nets.received]
    simp only [credits, debits]
    omega

theorem computeNetting_perm (perm : obligations.Perm other) :
    computeNetting obligations = .ok batch ↔ computeNetting other = .ok batch := by
  have carries {l r : List (Obligation Party)} (perm : l.Perm r)
      (went : computeNetting l = .ok batch) : computeNetting r = .ok batch := by
    obtain ⟨_, some, went⟩ := bind_ok.1 went
    obtain ⟨_, each, went⟩ := bind_ok.1 went
    rw [computeNetting]
    refine bind_ok.2 ⟨(), ensure_ok.2 fun none => ensure_ok.1 some ?_, bind_ok.2 ⟨⟨⟩, ?_, ?_⟩⟩
    · exact (none ▸ perm).eq_nil
    · exact forM_ok.2 fun o mem => forM_ok.1 each o (perm.mem_iff.2 mem)
    · rw [← sortObligations_perm perm]
      exact went
  exact ⟨carries perm, carries perm.symm⟩

theorem verifyNettingInvariant_iff (fits : total obligations < 2 ^ 128)
    (fits' : total (instructions.map (·.flow)) < 2 ^ 128) :
    verifyNettingInvariant obligations instructions = .ok () ↔ ∀ asset party,
      (credits obligations asset party : ℤ) - debits obligations asset party =
        credits (instructions.map (·.flow)) asset party -
          debits (instructions.map (·.flow)) asset party := by
  rw [verify_iff fits fits']
  refine forall₂_congr fun asset party => ?_
  omega

end

end

end

namespace Ring

def ring : List (Obligation ℕ) := [⟨1, 2, "a", 100⟩, ⟨2, 1, "a", 30⟩, ⟨2, 3, "a", 50⟩]

def batch : NettingBatch ℕ where
  obligations := [⟨1, 2, "a", 100⟩, ⟨2, 1, "a", 30⟩, ⟨2, 3, "a", 50⟩]
  instructions := [⟨1, 3, "a", 50⟩, ⟨1, 2, "a", 20⟩]
  grossTotal := 180
  netTotal := 70

theorem evaluated : computeNetting ring = .ok batch := by decide +kernel

theorem computeNetting_nets_ring :
    Nets ring batch.instructions ∧ verifyNettingInvariant batch.obligations batch.instructions =
      .ok () :=
  have netted := computeNetting_nets evaluated
  ⟨netted.2.1, netted.2.2.2.2.2⟩

theorem computeNetting_perm_ring : computeNetting ring.reverse = .ok batch :=
  (computeNetting_perm (reverse_perm ring).symm).1 evaluated

theorem verifyNettingInvariant_iff_ring : ¬ verifyNettingInvariant ring [] = .ok () := fun ok =>
  absurd ((verifyNettingInvariant_iff (by decide) (by decide)).1 ok "a" 1) (by decide)

end Ring

end Tenzro.Netting
