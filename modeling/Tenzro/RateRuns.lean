import Tenzro.RateSteps
import Tenzro.StakingSound

set_option autoImplicit false
set_option linter.dupNamespace false

/-!
# Runs of rate reports

One report tallies what is due, deletes what is old, seals, and opens; the books hold after any
sequence of them.
-/
namespace Tenzro.Rates
open ByteCodec FixedWidth Outcome List
open Staking (VmError StakeLedger StakeAccounts)

section
variable {s s' : RateLedger} {view : RateView} {hour e : ℕ}

/-! ### One report -/

def Pend (s : RateLedger) (pending : List ℕ) : Prop :=
  pending.Nodup ∧ ∀ e, e ∈ pending ↔ Waits s e

section
variable [StakeAccounts] {sender : Bytes} {keep keep' : List ℕ}

theorem tallyDue_books {due : List ℕ}
    (ran : due.foldlM (fun s e => RateLedger.tallyRates s view e) s = .ok s')
    (books : Books hour s) (now : view.hour = hour) (small : hour < 2 ^ 63)
    (apart : due.Nodup) (waits : ∀ e ∈ due, Waits s e ∧ wrappingAdd 64 e 2 < hour) :
    Books hour s' ∧ ∀ e, Waits s' e ↔ Waits s e ∧ e ∉ due := by
  induction due generalizing s with
  | nil =>
    obtain rfl := pure_ok.1 ran
    exact ⟨books, fun e => by simp⟩
  | cons e rest ih =>
    rw [foldlM_cons] at ran
    obtain ⟨s₁, first, ran⟩ := bind_ok.1 ran
    obtain ⟨⟨waits_e, late⟩, waits⟩ := forall_mem_cons.1 waits
    obtain ⟨away, apart⟩ := nodup_cons.1 apart
    obtain ⟨books₁, closed, -⟩ := tallyRates_books first books now waits_e (.inl late) small
    obtain ⟨books', after⟩ := ih ran books₁ apart fun e' mem =>
      (waits e' mem).imp_left fun h => (closed e').2 ⟨h, fun same => away (same ▸ mem)⟩
    refine ⟨books', fun e' => ?_⟩
    rw [after, closed, mem_cons, not_or, and_assoc]

variable [RedStuff.Sha256]

theorem openReport_books {mine : RateCommit} {r : RevealPayload}
    (ran : s.openReport view e sender mine r keep = .ok (s', keep')) (books : Books hour s)
    (now : view.hour = hour) (small : hour < 2 ^ 63) (opens : hour = e + 2)
    (has : mine ∈ s.commits e) (own : mine.validator = sender) (pend : Pend s keep) :
    Books hour s' ∧ Pend s' keep' := by
  unfold RateLedger.openReport at ran
  simp only [bind_ok] at ran
  obtain ⟨_, unopened, salt, -, parsed, -, _, -, rates, reported, ran⟩ := ran
  have unopened : mine.opened = false := Bool.eq_false_iff.2 (ensure_ok.1 unopened)
  have shut (life : Life) (lived : Lived hour e (s.book e) life) : life.Shut mine :=
    lived.shut small opens has unopened
  subst own
  set marked := s.markOpened view e mine.validator
  have opened : Books hour marked := markOpened_books books now opens shut
  have log : marked.log = s.log ++ [.opened view.hour e mine.validator] := rfl
  obtain ⟨life, lived⟩ := books.lives e
  obtain ⟨-, -, unopened, sealed_as⟩ := shut life lived
  have sealer : (mine.validator, mine.stake) ∈ sealsOf marked.log e := by
    rw [log, sealsOf_append, lived.sealsOf_eq]
    exact mem_append_left _ (by simpa using sealed_as)
  have opener : (e, mine.validator) ∈ opensOf marked.log := by
    rw [log, opensOf_append]
    exact mem_append_right _ (mem_singleton_self _)
  obtain ⟨apart, positive⟩ := reportRates_ok reported
  obtain ⟨filed, log, commits⟩ := fileRates_books opened sealer opener positive apart
    fun r mem filed => by
      obtain ⟨x, old, own⟩ := mem_map.1 filed
      exact unopened (own ▸ (lived.filed r.symbol x old).1.2)
  set after := rates.foldl (fun s r => s.fileRate e mine.validator mine.stake r) marked
  have waits (e' : ℕ) : Waits after e' ↔ Waits s e' := by
    rw [Waits, log]
    exact markOpened_waits
  change (if (after.commits e).all _ = true ∧ e ∈ keep then _ else _) = _ at ran
  split_ifs at ran with early
  · obtain ⟨s₁, tallied, ran⟩ := bind_ok.1 ran
    obtain ⟨rfl, rfl⟩ := Prod.mk.inj (pure_ok.1 ran)
    obtain ⟨books', closed, -⟩ := tallyRates_books tallied filed now
      ((waits e).2 ((pend.2 e).1 early.2)) (.inr (all_eq_true.1 early.1)) small
    refine ⟨books', pend.1.filter _, fun e' => ?_⟩
    rw [mem_filter, closed, waits, pend.2 e']
    simp
  · obtain ⟨rfl, rfl⟩ := Prod.mk.inj (pure_ok.1 ran)
    exact ⟨filed, pend.1, fun e' => (pend.2 e').trans (waits e').symm⟩

theorem openPrevious_books {reveal : Option RevealPayload}
    (ran : s.openPrevious view e sender reveal keep = .ok (s', keep')) (books : Books hour s)
    (now : view.hour = hour) (small : hour < 2 ^ 63) (closes : wrappingAdd 64 e 1 = hour)
    (wide : e < 2 ^ 64) (pend : Pend s keep) : Books hour s' ∧ Pend s' keep' := by
  unfold RateLedger.openPrevious at ran
  have nothing {out : RateLedger × List ℕ} (same : (s, keep) = out) :
      Books hour out.1 ∧ Pend out.1 out.2 := same ▸ ⟨books, pend⟩
  cases reveal with
  | none => exact nothing (Except.ok.inj ran)
  | some r =>
    simp only at ran
    split_ifs at ran with zero
    · cases ran
    · split at ran
      · exact nothing (Except.ok.inj ran)
      · next mine found =>
        have has := mem_of_find?_eq_some found
        have own : mine.validator = sender := by simpa using find?_some found
        refine openReport_books ran books now small ?_ has own pend
        -- A seal of the epoch before shows that the sealed epoch did not wrap around.
        obtain ⟨life, lived⟩ := books.lives (e - 1)
        have undeleted : life.deletions = 0 := by
          by_contra some
          have none : s.commits (e - 1) = [] := (lived.deleted some).1
          rw [none] at has
          cases has
        have commits : s.commits (e - 1) = life.commits := lived.kept undeleted
        rw [commits] at has
        obtain ⟨c, mem, -⟩ := mem_map.1 has
        have sealing := lived.sealing (ne_nil_of_mem mem)
        unfold wrappingAdd at closes sealing
        omega

theorem submitRate_books {p : FeeRateSubmitPayload} (ran : s.submitRate view sender p = .ok s')
    (books : Books hour s) (later : hour ≤ view.hour) (small : view.hour < 2 ^ 63)
    (wide : p.epoch < 2 ^ 64) (pend : Pend s s.pending) :
    Books view.hour s' ∧ Pend s' s'.pending := by
  unfold RateLedger.submitRate at ran
  simp only at ran
  obtain ⟨_, closes, ran⟩ := bind_ok.1 ran
  have closes := ensure_ok.1 closes
  obtain ⟨_, -, ran⟩ := bind_ok.1 ran
  obtain ⟨commitment, -, ran⟩ := bind_ok.1 ran
  obtain ⟨s₁, tallied, ran⟩ := bind_ok.1 ran
  obtain ⟨_, unsealed, ran⟩ := bind_ok.1 ran
  have unsealed := ensure_ok.1 unsealed
  obtain ⟨⟨s₂, keep'⟩, opened, ran⟩ := bind_ok.1 ran
  obtain rfl := pure_ok.1 ran
  obtain ⟨apart, waiting⟩ := pend
  have books : Books view.hour s := books.mono later
  obtain ⟨books₁, waits₁⟩ := tallyDue_books tallied books rfl small (apart.filter _)
    fun e mem => by
      obtain ⟨mem, late⟩ := mem_filter.1 mem
      exact ⟨(waiting e).1 mem, of_decide_eq_true late⟩
  obtain ⟨books₂, pruned⟩ : Books view.hour (s₁.pruneRateEpochs view s.pending) ∧
      ∀ e, Waits (s₁.pruneRateEpochs view s.pending) e ↔ Waits s₁ e :=
    pruneRateEpochs_books books₁ rfl small fun e late waits => by
      have both := (waits₁ e).1 waits
      exact both.2 (mem_filter.2 ⟨(waiting e).2 both.1, decide_eq_true late⟩)
  set clean := s₁.pruneRateEpochs view s.pending
  have first : sender ∉ (clean.commits p.epoch).map RateCommit.validator := fun mem => by
    obtain ⟨c, has, own⟩ := mem_map.1 mem
    exact unsealed (any_eq_true.2 ⟨c, has, decide_eq_true own⟩)
  have books₃ : Books view.hour
      (clean.sealReport view p.epoch sender commitment (s.stakes.bond sender)) :=
    sealReport_books books₂ rfl small closes first
  set keep := s.pending.filter fun e => ¬ wrappingAdd 64 e 2 < view.hour
  have kept (e : ℕ) : e ∈ keep ↔ Waits clean e := by
    rw [pruned, waits₁, ← waiting e]
    unfold keep
    simp only [mem_filter, decide_eq_true_eq, not_and, not_lt]
    constructor
    · rintro ⟨mem, early⟩
      exact ⟨mem, fun _ => early⟩
    · rintro ⟨mem, early⟩
      exact ⟨mem, early mem⟩
  have pend₃ : Pend (clean.sealReport view p.epoch sender commitment (s.stakes.bond sender))
      (if p.epoch ∈ keep then keep else keep ++ [p.epoch]) := by
    split_ifs with there
    · refine ⟨apart.filter _, fun e => ?_⟩
      rw [sealReport_waits books₂ small closes, kept]
      exact ⟨.inl, fun h => h.elim id fun same => same ▸ (kept _).1 there⟩
    · refine ⟨nodup_append.2 ⟨apart.filter _, nodup_singleton _,
        fun x old y new same => there (mem_singleton.1 new ▸ same ▸ old)⟩, fun e => ?_⟩
      rw [sealReport_waits books₂ small closes, mem_append, mem_singleton, kept]
  obtain ⟨books₄, apart', waiting'⟩ := openPrevious_books opened books₃ rfl small closes wide pend₃
  refine ⟨⟨books₄.lives, books₄.rising.congr rfl fun _ => rfl⟩, ?_, fun e => ?_⟩
  · exact (mergeSort_perm ..).nodup_iff.2 apart'
  · exact (mergeSort_perm ..).mem_iff.trans (waiting' e)

end

end

/-! ### Runs -/

def RateLedger.fresh (stakes : StakeLedger) (breaker : RateBreaker) (pegs : Bytes → PegBreaker) :
    RateLedger where
  stakes := stakes
  pending := []
  prunedBelow := none
  commits _ := []
  symbols _ := []
  submissions _ _ := []
  committed _ _ := none
  live _ := none
  mediansPruned _ := none
  breaker := breaker
  pegs := pegs
  log := []

/-- Runs of reports at times that do not decrease. Between two reports other transactions move
stakes and breakers. -/
inductive Reporting [StakeAccounts] [RedStuff.Sha256] : RateLedger → ℤ → Prop
  | fresh (stakes : StakeLedger) (breaker : RateBreaker) (pegs : Bytes → PegBreaker) (now : ℤ) :
      Reporting (.fresh stakes breaker pegs) now
  | submit {s s' : RateLedger} {now : ℤ} (run : Reporting s now) (view : RateView)
      (sender : Bytes) (p : FeeRateSubmitPayload) (later : now ≤ view.nowMs)
      (range : view.nowMs < 2 ^ 63) (wide : p.epoch < 2 ^ 64)
      (ran : s.submitRate view sender p = .ok s') : Reporting s' view.nowMs
  | elsewhere {s : RateLedger} {now : ℤ} (run : Reporting s now) (stakes : StakeLedger)
      (breaker : RateBreaker) (pegs : Bytes → PegBreaker) :
      Reporting { s with stakes := stakes, breaker := breaker, pegs := pegs } now

/-- What holds of the log, and of the rates in force. -/
structure Upheld (s : RateLedger) : Prop where
  sealed_once : ∀ e, ((sealsOf s.log e).map Prod.fst).Nodup
  frozen_once : (frozenOf s.log).Nodup
  /-- A median is that of reports of different validators, each sealed and opened in its hour,
  under the stake of its seal. -/
  frozen_from : ∀ symbol e rows median, .froze symbol e rows median ∈ s.log →
    stakeWeightedQuantile rows 5000 = some median ∧ (rows.map RateRow.validator).Nodup ∧
    ∀ r ∈ rows, .sealed (e + 1) e r.validator r.stake ∈ s.log ∧
      .opened (e + 2) e r.validator ∈ s.log
  moves : ∀ symbol, (movesOf s.log symbol).Pairwise (· < ·)
  live : ∀ symbol r, s.live symbol = some r → (movesOf s.log symbol).getLast? = some r.epoch
  tallied_once : (talliesOf s.log).Nodup
  pending : s.pending.Nodup ∧ ∀ e, e ∈ s.pending ↔ sealsOf s.log e ≠ [] ∧ e ∉ talliesOf s.log
  deleted_after : ∀ pre post e, s.log = pre ++ .deleted e :: post → sealsOf s.log e ≠ [] →
    e ∈ talliesOf pre
  slashed_once : (slashesOf s.log).Nodup
  /-- A slash is for a seal never opened, at a tally in a later hour. -/
  slashed : ∀ e v, (e, v) ∈ slashesOf s.log ↔
    (∃ h h' n, .sealed h e v n ∈ s.log ∧ .tallied h' e ∈ s.log ∧ h < h') ∧
      (e, v) ∉ opensOf s.log

def hourOf (ms : ℤ) : ℕ := (max ms 0 / marketEpochMs).toNat

theorem hourOf_mono {x y : ℤ} (le : x ≤ y) : hourOf x ≤ hourOf y :=
  Int.toNat_le_toNat (Int.ediv_le_ediv (by decide) (max_le_max_right 0 le))

theorem hourOf_small {ms : ℤ} (range : ms < 2 ^ 63) : hourOf ms < 2 ^ 63 := by
  unfold hourOf marketEpochMs
  omega

theorem fresh_books (stakes : StakeLedger) (breaker : RateBreaker) (pegs : Bytes → PegBreaker) :
    Books 0 (.fresh stakes breaker pegs) ∧
      Pend (.fresh stakes breaker pegs) (RateLedger.fresh stakes breaker pegs).pending := by
  have unborn (e : ℕ) : Lived 0 e (RateLedger.book (.fresh stakes breaker pegs) e) ⟨[], [], [], 0⟩ :=
    ⟨rfl, nodup_nil, nofun, nofun, nofun, .inl rfl, fun _ => rfl, nofun, nofun,
      fun _ => nodup_nil, nodup_nil⟩
  refine ⟨⟨fun e => ⟨_, unborn e⟩, fun _ => ⟨List.Pairwise.nil, nofun, nofun, nofun⟩⟩,
    nodup_nil, fun e => ?_⟩
  exact iff_of_false not_mem_nil fun waits => waits.1 rfl

section
variable [StakeAccounts] [RedStuff.Sha256] {s : RateLedger} {now : ℤ}

theorem Reporting.books (run : Reporting s now) :
    ∃ hour ≤ hourOf now, hour < 2 ^ 63 ∧ Books hour s ∧ Pend s s.pending := by
  induction run with
  | fresh stakes breaker pegs now =>
    obtain ⟨books, pend⟩ := fresh_books stakes breaker pegs
    exact ⟨0, Nat.zero_le _, by decide, books, pend⟩
  | submit run view sender p later range wide ran ih =>
    obtain ⟨hour, le, -, books, pend⟩ := ih
    obtain ⟨books', pend'⟩ := submitRate_books ran books (le.trans (hourOf_mono later))
      (hourOf_small range) wide pend
    exact ⟨view.hour, le_rfl, hourOf_small range, books', pend'⟩
  | elsewhere run stakes breaker pegs ih =>
    obtain ⟨hour, le, small, books, pend⟩ := ih
    exact ⟨hour, le, small, ⟨books.lives, books.rising.congr rfl fun _ => rfl⟩, pend⟩

omit [StakeAccounts] [RedStuff.Sha256] in
theorem Rising.last (rising : Rising s) {symbol : String} {r : LiveRate}
    (found : s.live symbol = some r) : (movesOf s.log symbol).getLast? = some r.epoch := by
  have dated := (rising symbol).dated r found
  have some_moves := ne_nil_of_mem dated
  rw [getLast?_eq_some_getLast some_moves, Option.some_inj]
  obtain ⟨r', found', le⟩ :=
    (rising symbol).latest _ (getLast_mem some_moves)
  obtain rfl := Option.some.inj (found.symm.trans found')
  refine le.antisymm ?_
  have sorted := (rising symbol).rising
  rw [← dropLast_append_getLast some_moves] at sorted dated
  rcases mem_append.1 dated with early | last
  · exact ((pairwise_append.1 sorted).2.2 _ early _ (mem_singleton_self _)).le
  · exact (mem_singleton.1 last).le

omit [StakeAccounts] [RedStuff.Sha256] in
theorem nodup_of_filter {α κ : Type} [DecidableEq κ] {l : List α} (key : α → κ)
    (each : ∀ k, (l.filter (key · = k)).Nodup) : l.Nodup := by
  classical
  rw [nodup_iff_count_le_one]
  intro a
  rw [← count_filter (p := (key · = key a)) (by simp)]
  exact nodup_iff_count_le_one.1 (each (key a)) a

section
omit [StakeAccounts] [RedStuff.Sha256]
variable {hour e : ℕ} {life : Life}

theorem Lived.mem_log (lived : Lived hour e (s.book e) life) {x : RateLog}
    (about : x.about = some e) : x ∈ s.log ↔ x ∈ life.log e := by
  have log : logOf e s.log = life.log e := lived.log
  rw [← log, mem_logOf, and_iff_left about]

theorem Lived.mem_tally (lived : Lived hour e (s.book e) life) {x : RateLog}
    (mem : x ∈ life.tally) :
    (∃ h, x = .tallied h e ∧ wrappingAdd 64 e 1 < h) ∨ life.Counted e x := by
  rcases lived.tally with none | ⟨h, m, eq, done⟩
  · rw [none] at mem
    cases mem
  · rw [eq] at mem
    rcases mem_cons.1 mem with rfl | mem
    · exact .inl ⟨h, rfl, done.later.1⟩
    · exact .inr (done.entries x mem)

theorem Lived.froze (lived : Lived hour e (s.book e) life) {symbol : String} {rows : List RateRow}
    {median : ℕ} (mem : .froze symbol e rows median ∈ s.log) :
    stakeWeightedQuantile rows 5000 = some median ∧ (rows.map RateRow.validator).Nodup ∧
      ∀ r ∈ rows, life.Reported r.validator r.stake := by
  rw [lived.mem_log rfl] at mem
  unfold Life.log at mem
  simp only [mem_append, mem_map, mem_replicate, reduceCtorEq, and_false,
    exists_false, false_or, or_false] at mem
  rcases lived.mem_tally mem with ⟨h, eq, -⟩ | ⟨_, _, _, eq, found⟩ | ⟨_, _, eq⟩
  · cases eq
  · cases eq
    exact found
  · cases eq

theorem Lived.mem_sealed (lived : Lived hour e (s.book e) life) {h n : ℕ} {v : Bytes} :
    .sealed h e v n ∈ s.log ↔
      (∃ c ∈ life.seals, c.validator = v ∧ c.stake = n) ∧ h = wrappingAdd 64 e 1 := by
  have untallied : .sealed h e v n ∉ life.tally := fun mem => by
    rcases lived.mem_tally mem with ⟨_, eq, -⟩ | ⟨_, _, _, eq, -⟩ | ⟨_, _, eq⟩ <;> cases eq
  rw [lived.mem_log rfl]
  unfold Life.log
  simp only [mem_append, mem_map, mem_replicate, reduceCtorEq, and_false,
    exists_false, untallied, or_false, RateLog.sealed.injEq, true_and]
  constructor
  · rintro ⟨c, mem, rfl, own, stake⟩
    exact ⟨⟨c, mem, own, stake⟩, rfl⟩
  · rintro ⟨⟨c, mem, own, stake⟩, rfl⟩
    exact ⟨c, mem, rfl, own, stake⟩

theorem Lived.tallied_later (lived : Lived hour e (s.book e) life) (some : life.tally ≠ []) :
    ∃ h, .tallied h e ∈ s.log ∧ wrappingAdd 64 e 1 < h := by
  rcases lived.tally with none | ⟨h, m, eq, done⟩
  · exact absurd none some
  · refine ⟨h, (lived.mem_log rfl).2 ?_, done.later.1⟩
    unfold Life.log
    rw [eq]
    simp

theorem Lived.deleted_after (lived : Lived hour e (s.book e) life) {pre post : List RateLog}
    (eq : s.log = pre ++ .deleted e :: post) (some : sealsOf s.log e ≠ []) :
    e ∈ talliesOf pre := by
  have log : logOf e s.log = life.log e := lived.log
  let front := life.seals.map (fun c => RateLog.sealed (wrappingAdd 64 e 1) e c.validator c.stake) ++
    life.openers.map (RateLog.opened (e + 2) e) ++ life.tally
  have split : front ++ replicate life.deletions (.deleted e) =
      logOf e pre ++ .deleted e :: logOf e post := by
    change life.log e = _
    rw [← log, eq, logOf_append]
    simp [logOf, RateLog.about]
  have undeleted : .deleted e ∉ front := by
    have untallied : .deleted e ∉ life.tally := fun mem => by
      rcases lived.mem_tally mem with ⟨_, eq, -⟩ | ⟨_, _, _, eq, -⟩ | ⟨_, _, eq⟩ <;> cases eq
    simp [front, untallied]
  have deletions : life.deletions ≠ 0 := fun none => by
    rw [none, replicate_zero, append_nil] at split
    exact undeleted (split ▸ mem_append_right _ mem_cons_self)
  rw [lived.sealsOf_eq, ne_eq, map_eq_nil_iff] at some
  have tallied : e ∈ talliesOf front := by
    have mem := lived.mem_talliesOf.2 ((lived.deleted deletions).2.2 some)
    have seen : talliesOf (logOf e s.log) = talliesOf front := by
      rw [log]
      change talliesOf (front ++ replicate _ _) = _
      rw [talliesOf_append]
      simp [talliesOf]
    rw [← seen, talliesOf_logOf]
    simpa using mem
  have early : front <+: logOf e pre := by
    rcases append_eq_append_iff.1 split with ⟨more, eq, -⟩ | ⟨rest, eq, cut⟩
    · exact ⟨more, eq.symm⟩
    · cases rest with
      | nil => exact ⟨[], by simpa using eq⟩
      | cons d rest =>
        obtain ⟨rfl, -⟩ := List.cons.inj cut
        exact absurd (eq ▸ mem_append_right _ mem_cons_self) undeleted
  obtain ⟨more, eq⟩ := early
  have mem : e ∈ talliesOf (logOf e pre) := by
    rw [← eq, talliesOf_append]
    exact mem_append_left _ tallied
  rw [talliesOf_logOf] at mem
  exact mem_of_mem_filter mem

end

end

/-! One validator seals two hours in a row and opens the first of them. -/

namespace TwoReports

@[reducible] def accounts : StakeAccounts where
  account := id
  treasury := replicate 32 1
  pool := replicate 32 2

@[reducible] def sha256 : RedStuff.Sha256 where
  digest b := ⟨(b ++ replicate 32 0).take 32, by simp⟩

attribute [local instance] accounts sha256

def validator : Bytes := replicate 32 3

def params : RateParams where
  quorumBps := 6666
  staleQuorumBps := 5001
  maxChangeBps := 100
  maxFallBps := 500
  staleEpochs := 6
  staleGapBps := 300
  frozen := 0
  quantileLowBps := 3334
  quantileHighBps := 6666
  minSources := 2
  breakerSpreadBps := 1000
  breakerGapBps := 5000
  breakerEpochs := 3
  tnzoUsdNano := 100000000
  mode := 1
  unopenedSlashBps := 10
  pegSuspendEpochs := 3
  pegResumeEpochs := 24
  pegResumeBandBps := 50

def view (hour : ℤ) : RateView := ⟨hour * marketEpochMs, params, []⟩

def salt : Bytes := replicate 32 7

def quotes : List RateQuote :=
  [⟨"TNZO", "one", "100000000"⟩, ⟨"tnzo", "two", "102000000"⟩]

def start : RateLedger :=
  .fresh { StakeLedger.fresh (fun _ => 0) with
    bond := Function.update (fun _ => 0) validator 100
    totalBonded := 100 } ⟨0, none⟩ fun _ => ⟨false, 0, 0, none, none, 0⟩

def first : FeeRateSubmitPayload where
  epoch := 1
  commitment := hexEncode (feeRateCommitment validator 1 salt
    [("TNZO", "one", 100000000), ("tnzo", "two", 102000000)])
  reveal := none

def second : FeeRateSubmitPayload where
  epoch := 2
  commitment := hexEncode salt
  reveal := some ⟨quotes, hexEncode salt⟩

def after (s : RateLedger) (hour : ℤ) (p : FeeRateSubmitPayload) : RateLedger :=
  (s.submitRate (view hour) validator p).toOption.getD s

theorem ok_after {s : RateLedger} {hour : ℤ} {p : FeeRateSubmitPayload}
    (ok : (s.submitRate (view hour) validator p).toOption.isSome = true) :
    s.submitRate (view hour) validator p = .ok (after s hour p) := by
  unfold after
  cases ran : s.submitRate (view hour) validator p with
  | error e =>
    rw [ran] at ok
    cases ok
  | ok s' => rfl

def sealedOnce : RateLedger := after start 2 first

def openedOnce : RateLedger := after sealedOnce 3 second

theorem evaluated : (start.submitRate (view 2) validator first).toOption.isSome = true ∧
    (sealedOnce.submitRate (view 3) validator second).toOption.isSome = true ∧
    frozenOf openedOnce.log = [("TNZO", 1)] ∧ openedOnce.pending = [2] := by decide +kernel

end TwoReports

end Tenzro.Rates
