import Tenzro.RateReports

set_option autoImplicit false
set_option linter.dupNamespace false

/-!
# What a tally does to the records

A tally marks its epoch, freezes at most one median a symbol and puts no earlier epoch's rate in
force, and slashes whoever sealed and did not open.
-/
namespace Tenzro.Rates
open ByteCodec FixedWidth Outcome List Function Option
open Staking (VmError StakeLedger StakeAccounts)

/-! ### What the log says -/

section
variable (l : List RateLog)

def sealsOf (epoch : ℕ) : List (Bytes × ℕ) := l.filterMap fun
  | .sealed _ e v n => if e = epoch then some (v, n) else none
  | _ => none

def opensOf : List (ℕ × Bytes) := l.filterMap fun
  | .opened _ e v => some (e, v)
  | _ => none

def talliesOf : List ℕ := l.filterMap fun
  | .tallied _ e => some e
  | _ => none

def slashesOf : List (ℕ × Bytes) := l.filterMap fun
  | .unopened v e _ => some (e, v)
  | _ => none

def frozenOf : List (String × ℕ) := l.filterMap fun
  | .froze symbol e _ _ => some (symbol, e)
  | _ => none

def movesOf (symbol : String) : List ℕ := l.filterMap fun
  | .moved sym e => if sym = symbol then some e else none
  | _ => none

end

def RateLog.about : RateLog → Option ℕ
  | .sealed _ e .. | .opened _ e _ | .tallied _ e | .deleted e | .froze _ e .. | .unopened _ e _ =>
    some e
  | _ => none

def logOf (epoch : ℕ) (l : List RateLog) : List RateLog := l.filter (·.about = some epoch)

section
variable {l m : List RateLog} {epoch : ℕ} {symbol : String}

@[simp] theorem sealsOf_append : sealsOf (l ++ m) epoch = sealsOf l epoch ++ sealsOf m epoch :=
  filterMap_append ..

@[simp] theorem opensOf_append : opensOf (l ++ m) = opensOf l ++ opensOf m :=
  filterMap_append ..

@[simp] theorem talliesOf_append : talliesOf (l ++ m) = talliesOf l ++ talliesOf m :=
  filterMap_append ..

@[simp] theorem slashesOf_append : slashesOf (l ++ m) = slashesOf l ++ slashesOf m :=
  filterMap_append ..

@[simp] theorem frozenOf_append : frozenOf (l ++ m) = frozenOf l ++ frozenOf m :=
  filterMap_append ..

@[simp] theorem movesOf_append : movesOf (l ++ m) symbol = movesOf l symbol ++ movesOf m symbol :=
  filterMap_append ..

@[simp] theorem logOf_append : logOf epoch (l ++ m) = logOf epoch l ++ logOf epoch m :=
  filter_append ..

theorem mem_logOf {x : RateLog} : x ∈ logOf epoch l ↔ x ∈ l ∧ x.about = some epoch := by
  rw [logOf, mem_filter, decide_eq_true_eq]

theorem logOf_own (own : ∀ x ∈ m, x.about = some epoch) :
    logOf epoch (l ++ m) = logOf epoch l ++ m := by
  rw [logOf_append]
  exact congrArg _ (filter_eq_self.2 fun x mem => decide_eq_true (own x mem))

theorem logOf_away (away : ∀ x ∈ m, x.about ≠ some epoch) : logOf epoch (l ++ m) = logOf epoch l := by
  rw [logOf_append, append_right_eq_self, logOf, filter_eq_nil_iff]
  intro x mem
  simpa using away x mem

theorem view_logOf {β : Type} {f : RateLog → Option β} (key : β → ℕ)
    (keyed : ∀ x b, f x = some b → x.about = some (key b)) :
    (logOf epoch l).filterMap f = (l.filterMap f).filter (key · = epoch) := by
  unfold logOf
  rw [filterMap_filter, filter_filterMap]
  refine filterMap_congr fun x _ => ?_
  cases seen : f x with
  | none => simp
  | some b => simp [keyed x b seen, Option.filter]

end

/-! ### Rates stay positive -/

section
variable {rows : List RateRow} {q r : ℕ}

theorem quantileFrom_mem {total before : ℕ} (found : quantileFrom total q before rows = some r) :
    ∃ row ∈ rows, row.rate = r := by
  induction rows generalizing before with
  | nil => cases found
  | cons row rest ih =>
    unfold quantileFrom at found
    simp only at found
    split_ifs at found
    · exact ⟨row, mem_cons_self, Option.some.inj found⟩
    · obtain ⟨row', mem, eq⟩ := ih found
      exact ⟨row', mem_cons_of_mem _ mem, eq⟩

theorem stakeWeightedQuantile_mem (found : stakeWeightedQuantile rows q = some r) :
    ∃ row ∈ rows, row.rate = r := by
  have sorted {row : RateRow} (mem : row ∈ sortRows rows) : row ∈ rows := by
    unfold sortRows at mem
    exact (mergeSort_perm ..).mem_iff.1 mem
  unfold stakeWeightedQuantile at found
  simp only at found
  split_ifs at found
  rcases or_eq_some_iff.1 found with reached | ⟨-, last⟩
  · obtain ⟨row, mem, eq⟩ := quantileFrom_mem reached
    exact ⟨row, sorted mem, eq⟩
  · obtain ⟨row, mem, eq⟩ := map_eq_some_iff.1 last
    exact ⟨row, sorted (mem_of_getLast? mem), eq⟩

theorem bounded_pos (prior median rise fall : ℕ) : 0 < bounded prior median rise fall := by
  unfold bounded
  omega

theorem nextRate_pos {prior : Option ℕ} {stale : ℕ} {t : Tally} {rules : RateRules} {out : ℕ × ℕ}
    (before : ∀ p ∈ prior, 0 < p) (median : 0 < t.median)
    (next : nextRate prior stale t rules = some out) : 0 < out.1 := by
  cases prior with
  | none =>
    unfold nextRate at next
    simp only at next
    split_ifs at next
    rw [← Option.some.inj next]
    exact median
  | some p =>
    have positive := before p rfl
    unfold nextRate banded at next
    simp only at next
    split_ifs at next
    all_goals
      rw [← Option.some.inj next]
      first | exact positive | exact bounded_pos ..

end

/-! ### What stays -/

/-- The reports stay. -/
structure Kept (s s' : RateLedger) : Prop where
  pending : s'.pending = s.pending
  commits : s'.commits = s.commits
  symbols : s'.symbols = s.symbols
  submissions : s'.submissions = s.submissions

/-- The rates stay too, and nothing is logged about reports or rates put in force. -/
structure Noted (s s' : RateLedger) : Prop extends Kept s s' where
  live : s'.live = s.live
  log : ∀ e, logOf e s'.log = logOf e s.log
  moves : ∀ symbol, movesOf s'.log symbol = movesOf s.log symbol

section
variable {s s' s'' : RateLedger} {view : RateView} {symbol : String} {epoch total : ℕ}

theorem Kept.refl : Kept s s := ⟨rfl, rfl, rfl, rfl⟩

theorem Kept.trans (first : Kept s s') (second : Kept s' s'') : Kept s s'' :=
  ⟨second.pending.trans first.pending, second.commits.trans first.commits,
    second.symbols.trans first.symbols, second.submissions.trans first.submissions⟩

theorem Noted.refl : Noted s s := ⟨.refl, rfl, fun _ => rfl, fun _ => rfl⟩

theorem Noted.trans (first : Noted s s') (second : Noted s' s'') : Noted s s'' :=
  ⟨first.toKept.trans second.toKept, second.live.trans first.live,
    fun e => (second.log e).trans (first.log e), fun sym => (second.moves sym).trans (first.moves sym)⟩

theorem logged_noted {x : RateLog} (silent : x.about = none) (still : ∀ sym, movesOf [x] sym = []) :
    Noted s (s.logged x) := by
  refine ⟨⟨rfl, rfl, rfl, rfl⟩, rfl, fun e => logOf_away (by simp [silent]), fun sym => ?_⟩
  change movesOf (s.log ++ [x]) sym = _
  rw [movesOf_append, still, append_nil]

theorem heldLog_noted {reason : String} {opened : ℕ} :
    Noted s (s.heldLog view symbol epoch reason opened total) := logged_noted rfl fun _ => rfl

theorem stepAsset_noted {rate : ℕ} {asset : PeggedAsset} :
    Noted s (s.stepAsset view symbol epoch rate asset) := by
  unfold RateLedger.stepAsset
  split_ifs with other
  · exact .refl
  · cases s.currencyRate view asset.currency with
    | none => exact .refl
    | some par =>
      simp only
      have pegs {f : Bytes → PegBreaker} : Noted s { s with pegs := f } :=
        ⟨⟨rfl, rfl, rfl, rfl⟩, rfl, fun _ => rfl, fun _ => rfl⟩
      split_ifs
      · exact .refl
      · exact pegs
      · exact pegs.trans (logged_noted rfl fun _ => rfl)
      · exact pegs.trans (logged_noted rfl fun _ => rfl)

theorem observeRate_noted {rate : ℕ} : Noted s (s.observeRate view symbol epoch rate) := by
  unfold RateLedger.observeRate
  induction view.assets generalizing s with
  | nil => exact .refl
  | cons asset rest ih => exact stepAsset_noted.trans ih

theorem countBreach_noted {breach : Bool} : Noted s (s.countBreach view epoch breach) := by
  have breaker {b : RateBreaker} : Noted s { s with breaker := b } :=
    ⟨⟨rfl, rfl, rfl, rfl⟩, rfl, fun _ => rfl, fun _ => rfl⟩
  unfold RateLedger.countBreach
  simp only
  split_ifs
  · exact .refl
  · exact breaker.trans (logged_noted rfl fun _ => rfl)
  · exact breaker
  · exact breaker.trans (logged_noted rfl fun _ => rfl)
  · exact breaker

theorem countedRows_congr (kept : Kept s s') :
    s'.countedRows view symbol epoch = s.countedRows view symbol epoch := by
  unfold RateLedger.countedRows
  rw [kept.submissions]

theorem liveRecord_congr (live : s'.live = s.live) : s'.liveRecord symbol = s.liveRecord symbol := by
  unfold RateLedger.liveRecord
  rw [live]

theorem liveRecord_pos {r : LiveRate} (found : s.liveRecord symbol = some r) :
    0 < r.rateNanoUsd := by
  have positive := (filter_eq_some_iff.1 found).2
  exact of_decide_eq_true positive

/-! ### The rates in force -/

/-- The rates of a symbol put in force: each later than those before, the last one in force. -/
structure RisingAt (moves : List ℕ) (live : Option LiveRate) : Prop where
  rising : moves.Pairwise (· < ·)
  latest : ∀ e ∈ moves, ∃ r, live = some r ∧ e ≤ r.epoch
  dated : ∀ r, live = some r → r.epoch ∈ moves
  positive : ∀ r, live = some r → 0 < r.rateNanoUsd

def Rising (s : RateLedger) : Prop := ∀ symbol, RisingAt (movesOf s.log symbol) (s.live symbol)

theorem Rising.congr (rising : Rising s) (live : s'.live = s.live)
    (moves : ∀ symbol, movesOf s'.log symbol = movesOf s.log symbol) : Rising s' := by
  intro symbol
  rw [moves, live]
  exact rising symbol

theorem Rising.move (rising : Rising s) {rate : LiveRate} (positive : 0 < rate.rateNanoUsd)
    (newer : (s.liveRecord symbol).all (·.epoch < rate.epoch) = true)
    (live : s'.live = update s.live symbol (some rate))
    (moves : ∀ sym, movesOf s'.log sym = movesOf s.log sym ++
      if symbol = sym then [rate.epoch] else []) : Rising s' := by
  intro sym
  rw [moves, live]
  by_cases own : symbol = sym
  · subst own
    rw [if_pos rfl, update_self]
    have earlier : ∀ e ∈ movesOf s.log symbol, e < rate.epoch := fun e mem => by
      obtain ⟨r, found, le⟩ := (rising symbol).latest e mem
      have record : s.liveRecord symbol = some r :=
        filter_eq_some_iff.2 ⟨found, decide_eq_true ((rising symbol).positive r found)⟩
      rw [record] at newer
      have less := of_decide_eq_true newer
      omega
    refine ⟨pairwise_append.2 ⟨(rising symbol).rising, pairwise_singleton _ _,
      fun e mem e' mem' => ?_⟩, fun e mem => ⟨rate, rfl, ?_⟩, fun r found => ?_, fun r found => ?_⟩
    · rw [mem_singleton.1 mem']
      exact earlier e mem
    · rcases mem_append.1 mem with mem | mem
      · exact (earlier e mem).le
      · exact (mem_singleton.1 mem).le
    · obtain rfl := Option.some.inj found
      exact mem_append_right _ (mem_singleton_self _)
    · obtain rfl := Option.some.inj found
      exact positive
  · rw [if_neg own, append_nil, update_of_ne (Ne.symm own)]
    exact rising sym

/-! ### One symbol -/

/-- An entry that freezes the median of the reports that count. -/
def Froze (s : RateLedger) (view : RateView) (epoch : ℕ) (symbol : String) (x : RateLog) : Prop :=
  ∃ median, x = .froze symbol epoch (s.countedRows view symbol epoch) median ∧
    stakeWeightedQuantile (s.countedRows view symbol epoch) 5000 = some median

/-- The tally of one symbol: at most one median frozen, from the reports that count. -/
structure SymbolTallied (s s' : RateLedger) (view : RateView) (symbol : String) (epoch : ℕ) : Prop
    extends Kept s s' where
  log : (∀ e, logOf e s'.log = logOf e s.log) ∨ ∃ x, Froze s view epoch symbol x ∧
    ∀ e, logOf e s'.log = logOf e (s.log ++ [x])
  rising : Rising s → Rising s'

theorem Noted.tallied (noted : Noted s s') : SymbolTallied s s' view symbol epoch :=
  ⟨noted.toKept, .inl noted.log, fun rising => rising.congr noted.live noted.moves⟩

theorem finish_tallied {t : Tally} {breach frozen : Bool} {applied stale : ℕ} {s₀ : RateLedger}
    (start : Noted s₀ s) (positive : 0 < applied)
    (middle : stakeWeightedQuantile (s₀.countedRows view symbol epoch) 5000 = some t.median) :
    SymbolTallied s₀ (s.finish view symbol epoch total (s₀.countedRows view symbol epoch) t breach
      frozen applied stale) view symbol epoch := by
  unfold RateLedger.finish
  simp only
  set rows := s₀.countedRows view symbol epoch
  set held := if frozen = true then
      s.heldLog view symbol epoch (if breach = true then "dispersion" else "governance_hold")
        (rowsStake rows) total
    else s
  have holding : Noted s₀ held := by
    refine start.trans ?_
    by_cases hold : frozen = true
    · rw [show held = _ from if_pos hold]
      exact heldLog_noted
    · rw [show held = s from if_neg hold]
      exact .refl
  set mark : RateLog := .froze symbol epoch rows t.median
  have marked (e : ℕ) : logOf e (held.log ++ [mark]) = logOf e (s₀.log ++ [mark]) := by
    rw [logOf_append, holding.log, ← logOf_append]
  have unmoved (sym : String) : movesOf (held.log ++ [mark]) sym = movesOf s₀.log sym := by
    rw [movesOf_append, holding.moves]
    exact append_nil _
  have last {s₁ : RateLedger} : Noted s₁
      (s₁.logged (.finalized symbol epoch t.median applied t.full stale)) :=
    logged_noted rfl fun _ => rfl
  split_ifs with newer
  · set moved := { held.freeze symbol epoch rows ⟨t.median, applied, rows.length, rowsStake rows⟩ with
        live := update held.live symbol (some ⟨applied, epoch, stale⟩) }.logged
        (.moved symbol epoch)
    have moving : Kept held moved := ⟨rfl, rfl, rfl, rfl⟩
    have pruned : Noted moved (moved.pruneMedians symbol epoch) :=
      ⟨⟨rfl, rfl, rfl, rfl⟩, rfl, fun _ => rfl, fun _ => rfl⟩
    have observed : Noted (moved.pruneMedians symbol epoch)
        ((moved.pruneMedians symbol epoch).observeRate view symbol epoch applied) :=
      observeRate_noted
    have after := (pruned.trans observed).trans last
    refine ⟨(holding.toKept.trans moving).trans after.toKept,
      .inr ⟨mark, ⟨_, rfl, middle⟩, fun e => ?_⟩, fun rising => ?_⟩
    · refine (after.log e).trans ?_
      change logOf e (held.log ++ [mark] ++ [.moved symbol epoch]) = _
      rw [logOf_away (by simp [RateLog.about]), marked]
    · have applying : 0 < (⟨applied, epoch, stale⟩ : LiveRate).rateNanoUsd := positive
      rw [liveRecord_congr start.live] at newer
      refine rising.move applying newer ?_ fun sym => ?_
      · refine after.live.trans ?_
        change update held.live symbol _ = _
        rw [holding.live]
      · refine (after.moves sym).trans ?_
        change movesOf (held.log ++ [mark] ++ [.moved symbol epoch]) sym = _
        rw [movesOf_append, unmoved]
        unfold movesOf
        split_ifs with own <;> simp [own]
  · set kept := held.freeze symbol epoch rows ⟨t.median, applied, rows.length, rowsStake rows⟩
    have keeping : Kept held kept := ⟨rfl, rfl, rfl, rfl⟩
    refine ⟨(holding.toKept.trans keeping).trans last.toKept,
      .inr ⟨mark, ⟨_, rfl, middle⟩, fun e => (last.log e).trans (marked e)⟩,
      fun rising => rising.congr (last.live.trans holding.live) fun sym =>
        (last.moves sym).trans (unmoved sym)⟩

theorem settle_tallied {t : Tally} (median : 0 < t.median)
    (middle : stakeWeightedQuantile (s.countedRows view symbol epoch) 5000 = some t.median) :
    SymbolTallied s (s.settle view symbol epoch total (s.countedRows view symbol epoch) t) view
      symbol epoch := by
  unfold RateLedger.settle
  simp only
  set breach := dispersed t.low t.high view.params.breakerSpreadBps ||
    (symbol = feeSymbol && farFromGoverned t.median view.governanceRate view.params.breakerGapBps)
  set prior := ((s.liveRecord symbol).map LiveRate.rateNanoUsd).or
    (if symbol = feeSymbol then some view.governanceRate else none)
  have before : ∀ p ∈ prior, 0 < p := by
    intro p mem
    rcases or_eq_some_iff.1 mem with current | ⟨-, governed⟩
    · obtain ⟨r, found, rfl⟩ := map_eq_some_iff.1 current
      exact liveRecord_pos found
    · split_ifs at governed
      rw [← Option.some.inj governed]
      exact (Nat.zero_lt_one).trans_le (le_max_right _ _)
  have counted : Noted s
      (if symbol = feeSymbol then s.countBreach view epoch breach else s) := by
    by_cases fee : symbol = feeSymbol
    · rw [if_pos fee]
      exact countBreach_noted
    · rw [if_neg fee]
      exact .refl
  generalize (if symbol = feeSymbol then s.countBreach view epoch breach else s) = after at counted ⊢
  split_ifs
  · exact (counted.trans heldLog_noted).tallied
  · split
    · exact counted.tallied
    · next applied stale next =>
      exact finish_tallied counted (nextRate_pos before median next) middle

theorem tallySymbol_tallied (positive : ∀ r ∈ s.submissions symbol epoch, 0 < r.rate) :
    SymbolTallied s (s.tallySymbol view epoch total symbol) view symbol epoch := by
  unfold RateLedger.tallySymbol
  simp only
  split_ifs
  · exact Noted.refl.tallied
  · exact heldLog_noted.tallied
  · split
    · next median low high found _ _ =>
      refine settle_tallied ?_ found
      obtain ⟨row, mem, rfl⟩ := stakeWeightedQuantile_mem found
      obtain ⟨r, counted, rfl⟩ := mem_map.1 mem
      exact positive r (mem_of_mem_filter counted)
    · exact Noted.refl.tallied

/-! ### All symbols -/

structure SymbolsTallied (s s' : RateLedger) (view : RateView) (opened : List String) (epoch : ℕ) :
    Prop extends Kept s s' where
  log : ∃ m, (∀ e, logOf e s'.log = logOf e (s.log ++ m)) ∧
    (frozenOf m).Sublist (opened.map fun sym => (sym, epoch)) ∧
    ∀ x ∈ m, ∃ sym, Froze s view epoch sym x
  rising : Rising s → Rising s'

theorem tallySymbols_tallied (opened : List String)
    (positive : ∀ sym, ∀ r ∈ s.submissions sym epoch, 0 < r.rate) :
    SymbolsTallied s (opened.foldl (fun s sym => s.tallySymbol view epoch total sym) s) view
      opened epoch := by
  induction opened generalizing s with
  | nil => exact ⟨.refl, ⟨[], by simp, Sublist.refl _, nofun⟩, id⟩
  | cons sym rest ih =>
    have first : SymbolTallied s (s.tallySymbol view epoch total sym) view sym epoch :=
      tallySymbol_tallied (positive sym)
    have others := ih (s := s.tallySymbol view epoch total sym)
      (by rw [first.submissions]; exact positive)
    obtain ⟨m, log, frozen, rows⟩ := others.log
    have rows : ∀ x ∈ m, ∃ sym, Froze s view epoch sym x := fun x mem => by
      obtain ⟨sym', median, eq, middle⟩ := rows x mem
      rw [countedRows_congr first.toKept] at eq middle
      exact ⟨sym', median, eq, middle⟩
    refine ⟨first.toKept.trans others.toKept, ?_, fun rising => others.rising (first.rising rising)⟩
    rcases first.log with same | ⟨x, froze, one⟩
    · refine ⟨m, fun e => ?_, frozen.cons _, rows⟩
      rw [foldl_cons, log, logOf_append, same, ← logOf_append]
    · refine ⟨x :: m, fun e => ?_, ?_, forall_mem_cons.2 ⟨⟨sym, froze⟩, rows⟩⟩
      · rw [foldl_cons, log, logOf_append, one, ← logOf_append, append_assoc]
        rfl
      · obtain ⟨median, rfl, -⟩ := froze
        exact frozen.cons_cons _

/-! ### Forfeits -/

section
variable [StakeAccounts]

/-- The slashes of seals never opened. -/
structure Forfeited (s s' : RateLedger) (epoch : ℕ) (due : List RateCommit) : Prop
    extends Kept s s' where
  live : s'.live = s.live
  log : ∃ m, s'.log = s.log ++ m ∧ (∀ x ∈ m, ∃ v n, x = .unopened v epoch n) ∧
    slashesOf m = due.map fun c => (epoch, c.validator)

theorem forfeits_forfeited {due : List RateCommit} {bps : ℕ}
    (ran : due.foldlM (fun s c => RateLedger.forfeit s epoch bps c) s = .ok s') :
    Forfeited s s' epoch due := by
  induction due generalizing s with
  | nil =>
    obtain rfl := pure_ok.1 ran
    exact ⟨.refl, rfl, [], (append_nil _).symm, by simp, rfl⟩
  | cons c rest ih =>
    rw [foldlM_cons] at ran
    obtain ⟨s₁, first, ran⟩ := bind_ok.1 ran
    obtain ⟨⟨stakes, taken⟩, -, first⟩ := bind_ok.1 first
    obtain rfl := pure_ok.1 first
    set s₁ := { s with stakes }.logged (.unopened c.validator epoch taken)
    have first : Kept s s₁ := ⟨rfl, rfl, rfl, rfl⟩
    have others : Forfeited s₁ s' epoch rest := ih ran
    obtain ⟨m, log, marks, slashes⟩ := others.log
    refine ⟨first.trans others.toKept, others.live,
      .unopened c.validator epoch taken :: m, ?_, ?_, ?_⟩
    · rw [log]
      change s.log ++ [_] ++ m = _
      rw [append_assoc]
      rfl
    · exact forall_mem_cons.2 ⟨⟨_, _, rfl⟩, marks⟩
    · rw [map_cons, ← slashes]
      rfl

structure EpochTallied (s s' : RateLedger) (view : RateView) (epoch : ℕ) : Prop where
  pending : s'.pending = s.pending
  symbols : s'.symbols = s.symbols
  submissions : s'.submissions = s.submissions
  commits : s'.commits = update s.commits epoch
    ((s.commits epoch).map fun c => { c with forfeited := c.forfeited || !c.opened })
  log : ∃ m, (∀ e, logOf e s'.log = logOf e (s.log ++ .tallied view.hour epoch :: m)) ∧
    (∀ x ∈ m, (∃ sym, Froze s view epoch sym x) ∨ ∃ v n, x = .unopened v epoch n) ∧
    slashesOf m = ((s.commits epoch).filter fun c => !c.opened && !c.forfeited).map
      (fun c => (epoch, c.validator)) ∧
    (frozenOf m).Sublist ((s.symbols epoch).map fun sym => (sym, epoch))
  rising : Rising s → Rising s'

omit [StakeAccounts] in
theorem forfeit_none {commits : List RateCommit}
    (closed : (commits.all fun c => c.opened || c.forfeited) = true) :
    commits.map (fun c => { c with forfeited := c.forfeited || !c.opened }) = commits ∧
      (commits.filter fun c => !c.opened && !c.forfeited) = [] := by
  constructor
  · refine (map_congr_left fun c mem => ?_).trans (map_id commits)
    have marked := all_eq_true.1 closed c mem
    obtain ⟨validator, commitment, stake, opened, forfeited⟩ := c
    cases opened <;> cases forfeited <;> simp_all
  · refine filter_eq_nil_iff.2 fun c mem => ?_
    have marked := all_eq_true.1 closed c mem
    cases opened : c.opened <;> cases forfeited : c.forfeited <;> simp_all

theorem tallyRates_tallied (ran : s.tallyRates view epoch = .ok s')
    (positive : ∀ sym, ∀ r ∈ s.submissions sym epoch, 0 < r.rate) :
    EpochTallied s s' view epoch := by
  unfold RateLedger.tallyRates at ran
  simp only at ran
  set marked := s.logged (.tallied view.hour epoch)
  have same : marked.symbols epoch = s.symbols epoch := rfl
  rw [same] at ran
  set after := (s.symbols epoch).foldl
    (fun s' sym => s'.tallySymbol view epoch s.stakes.totalBonded sym) marked
  have tallied : SymbolsTallied marked after view (s.symbols epoch) epoch :=
    tallySymbols_tallied (s.symbols epoch) positive
  have commits : after.commits epoch = s.commits epoch := by
    rw [tallied.commits]
    rfl
  obtain ⟨m, log, frozen, rows⟩ := tallied.log
  have log (e : ℕ) : logOf e after.log = logOf e (s.log ++ .tallied view.hour epoch :: m) := by
    rw [log]
    change logOf e (s.log ++ [_] ++ m) = _
    rw [append_assoc]
    rfl
  have unslashed : slashesOf m = [] := filterMap_eq_nil_iff.2 fun x mem => by
    obtain ⟨_, _, rfl, -⟩ := rows x mem
    rfl
  have rising : Rising s → Rising after := fun rising => by
    refine tallied.rising (rising.congr rfl fun symbol => ?_)
    change movesOf (s.log ++ [_]) symbol = _
    rw [movesOf_append]
    exact append_nil _
  unfold RateLedger.forfeitUnopened at ran
  simp only [commits] at ran
  split_ifs at ran with closed
  · obtain rfl := Except.ok.inj ran
    obtain ⟨still, none⟩ := forfeit_none closed
    refine ⟨tallied.pending, tallied.symbols, tallied.submissions, ?_, ⟨m, log,
      fun x mem => .inl (rows x mem), ?_, frozen⟩, rising⟩
    · rw [still, update_eq_self, tallied.commits]
      rfl
    · rw [none, unslashed]
      rfl
  · obtain ⟨s₁, forfeits, ran⟩ := bind_ok.1 ran
    obtain rfl := pure_ok.1 ran
    have forfeited := forfeits_forfeited forfeits
    obtain ⟨m', log', marks, slashes⟩ := forfeited.log
    have silent : frozenOf m' = [] ∧ ∀ symbol, movesOf m' symbol = [] := by
      refine ⟨filterMap_eq_nil_iff.2 ?_, fun symbol => filterMap_eq_nil_iff.2 ?_⟩
      all_goals
        intro x mem
        obtain ⟨v, n, rfl⟩ := marks x mem
        rfl
    refine ⟨forfeited.pending.trans tallied.pending, forfeited.symbols.trans tallied.symbols,
      forfeited.submissions.trans tallied.submissions, ?_, ⟨m ++ m', fun e => ?_,
      forall_mem_append.2 ⟨fun x mem => .inl (rows x mem), fun x mem => .inr (marks x mem)⟩,
      ?_, ?_⟩, fun start => ?_⟩
    · change update s₁.commits epoch _ = _
      rw [forfeited.commits, tallied.commits]
      rfl
    · change logOf e s₁.log = _
      rw [log', logOf_append, log, ← logOf_append, append_assoc]
      rfl
    · rw [slashesOf_append, unslashed, slashes]
      rfl
    · rw [frozenOf_append, silent.1, append_nil]
      exact frozen
    · refine (rising start).congr forfeited.live fun symbol => ?_
      change movesOf s₁.log symbol = _
      rw [log', movesOf_append, silent.2, append_nil]

end

end

end Tenzro.Rates
