import Tenzro.RateTally

set_option autoImplicit false
set_option linter.dupNamespace false

/-!
# Seals, openings and deletions

An epoch's reports are sealed, opened, tallied and deleted, in that order; what
the ledger holds of it, and what the log says of it, follow from who sealed and
who opened.
-/
namespace Tenzro.Rates
open ByteCodec FixedWidth Outcome List Function
open Staking (VmError StakeLedger StakeAccounts)

/-! ### Lives -/

/-- What the ledger holds of one epoch. -/
structure EpochBook where
  log : List RateLog
  commits : List RateCommit
  symbols : List String
  submissions : String → List RateSubmission

def RateLedger.book (s : RateLedger) (e : ℕ) : EpochBook :=
  ⟨logOf e s.log, s.commits e, s.symbols e, fun symbol => s.submissions symbol e⟩

/-- The seals of an epoch, those who opened theirs, what its tally logged, and how often its
reports were deleted. -/
structure Life where
  seals : List RateCommit
  openers : List Bytes
  tally : List RateLog
  deletions : ℕ

namespace Life
variable (life : Life) (e : ℕ)

def log : List RateLog :=
  life.seals.map (fun c => RateLog.sealed (wrappingAdd 64 e 1) e c.validator c.stake) ++
    life.openers.map (RateLog.opened (e + 2) e) ++ life.tally ++
    replicate life.deletions (RateLog.deleted e)

/-- The seals with their marks. -/
def commits : List RateCommit :=
  life.seals.map fun c => { c with
    opened := c.validator ∈ life.openers
    forfeited := life.tally ≠ [] ∧ c.validator ∉ life.openers }

def Reported (v : Bytes) (n : ℕ) : Prop :=
  (∃ c ∈ life.seals, c.validator = v ∧ c.stake = n) ∧ v ∈ life.openers

/-- An entry of a tally: a median of reports of different validators, or a seal never opened. -/
def Counted (x : RateLog) : Prop :=
  (∃ symbol rows median, x = .froze symbol e rows median ∧
    stakeWeightedQuantile rows 5000 = some median ∧ (rows.map RateRow.validator).Nodup ∧
    ∀ r ∈ rows, life.Reported r.validator r.stake) ∨ ∃ v n, x = .unopened v e n

/-- Who sealed and did not open. -/
def shut : List Bytes :=
  (life.seals.map RateCommit.validator).filter (· ∉ life.openers)

/-- A tally comes after the hour of the seals, when the opening hour is over or all opened. -/
structure Tallied (hour h : ℕ) (m : List RateLog) : Prop where
  later : wrappingAdd 64 e 1 < h ∧ h ≤ hour
  closed : wrappingAdd 64 e 2 < hour ∨ ∀ c ∈ life.seals, c.validator ∈ life.openers
  entries : ∀ x ∈ m, life.Counted e x
  slashes : slashesOf m = life.shut.map (e, ·)
  frozen : (frozenOf m).Nodup

end Life

/-- An epoch of the ledger lives this life. -/
structure Lived (hour e : ℕ) (b : EpochBook) (life : Life) : Prop where
  log : b.log = life.log e
  apart : (life.seals.map RateCommit.validator).Nodup
  openers : ∀ v ∈ life.openers, v ∈ life.seals.map RateCommit.validator
  sealing : life.seals ≠ [] → wrappingAdd 64 e 1 ≤ hour
  opening : life.openers ≠ [] → e + 2 ≤ hour
  tally : life.tally = [] ∨ ∃ h m, life.tally = .tallied h e :: m ∧ life.Tallied e hour h m
  kept : life.deletions = 0 → b.commits = life.commits
  deleted : life.deletions ≠ 0 → b.commits = [] ∧ e + 2 < hour ∧ (life.seals ≠ [] → life.tally ≠ [])
  filed : ∀ symbol, ∀ r ∈ b.submissions symbol, life.Reported r.validator r.stake ∧ 0 < r.rate
  filedOnce : ∀ symbol, ((b.submissions symbol).map RateSubmission.validator).Nodup
  symbols : b.symbols.Nodup

structure Books (hour : ℕ) (s : RateLedger) : Prop where
  lives : ∀ e, ∃ life, Lived hour e (s.book e) life
  rising : Rising s

def Waits (s : RateLedger) (e : ℕ) : Prop := sealsOf s.log e ≠ [] ∧ e ∉ talliesOf s.log

section
variable {s s' : RateLedger} {view : RateView} {hour e : ℕ} {b : EpochBook} {life : Life}

theorem Lived.mono {later : ℕ} (lived : Lived hour e b life) (le : hour ≤ later) :
    Lived later e b life := { lived with
  sealing := fun some => (lived.sealing some).trans le
  opening := fun some => (lived.opening some).trans le
  tally := lived.tally.imp_right fun ⟨h, m, eq, done⟩ => ⟨h, m, eq, { done with
    later := done.later.imp_right (·.trans le)
    closed := done.closed.imp_left (·.trans_le le) }⟩
  deleted := fun some => (lived.deleted some).imp_right fun rest => rest.imp_left (·.trans_le le) }

theorem Books.mono {later : ℕ} (books : Books hour s) (le : hour ≤ later) : Books later s :=
  ⟨fun e => (books.lives e).imp fun _ lived => lived.mono le, books.rising⟩

theorem Books.at_epoch (books : Books hour s) (others : ∀ e', e' ≠ e → s'.book e' = s.book e')
    (here : ∃ life, Lived hour e (s'.book e) life) (rising : Rising s') : Books hour s' := by
  refine ⟨fun e' => ?_, rising⟩
  by_cases same : e' = e
  · exact same ▸ here
  · rw [others e' same]
    exact books.lives e'

/-! ### What the log says of a life -/

theorem sealsOf_logOf {l : List RateLog} : sealsOf (logOf e l) e = sealsOf l e := by
  refine (view_logOf (fun _ => e) fun x b seen => ?_).trans (filter_eq_self.2 ?_)
  · cases x <;> simp_all [RateLog.about]
  · simp

theorem opensOf_logOf {l : List RateLog} : opensOf (logOf e l) = (opensOf l).filter (·.1 = e) := by
  refine view_logOf Prod.fst fun x b seen => ?_
  cases x <;> simp_all [RateLog.about]
  exact congrArg Prod.fst seen

theorem talliesOf_logOf {l : List RateLog} : talliesOf (logOf e l) = (talliesOf l).filter (· = e) := by
  refine view_logOf id fun x b seen => ?_
  cases x <;> simp_all [RateLog.about]

theorem slashesOf_logOf {l : List RateLog} :
    slashesOf (logOf e l) = (slashesOf l).filter (·.1 = e) := by
  refine view_logOf Prod.fst fun x b seen => ?_
  cases x <;> simp_all [RateLog.about]
  exact congrArg Prod.fst seen

theorem frozenOf_logOf {l : List RateLog} : frozenOf (logOf e l) = (frozenOf l).filter (·.2 = e) := by
  refine view_logOf Prod.snd fun x b seen => ?_
  cases x <;> simp_all [RateLog.about]
  exact congrArg Prod.snd seen

theorem Lived.views (lived : Lived hour e b life) :
    sealsOf b.log e = life.seals.map (fun c => (c.validator, c.stake)) ∧
    opensOf b.log = life.openers.map (e, ·) ∧
    talliesOf b.log = (if life.tally = [] then [] else [e]) ∧
    slashesOf b.log = (if life.tally = [] then [] else life.shut.map (e, ·)) ∧
    (frozenOf b.log).Nodup := by
  rw [lived.log]
  unfold Life.log
  rcases lived.tally with none | ⟨h, m, eq, done⟩
  · rw [none]
    simp [sealsOf, opensOf, talliesOf, slashesOf, frozenOf, filterMap_map]
  · have silent : sealsOf m e = [] ∧ opensOf m = [] ∧ talliesOf m = [] := by
      refine ⟨filterMap_eq_nil_iff.2 ?_, filterMap_eq_nil_iff.2 ?_,
        filterMap_eq_nil_iff.2 ?_⟩
      all_goals
        intro x mem
        obtain ⟨symbol, rows, median, rfl, -⟩ | ⟨v, n, rfl⟩ := done.entries x mem <;> rfl
    have cons : life.tally = [.tallied h e] ++ m := eq
    rw [cons]
    simp only [sealsOf_append, opensOf_append, talliesOf_append, slashesOf_append, frozenOf_append,
      silent, done.slashes]
    refine ⟨?_, ?_, ?_, ?_, ?_⟩
    · simp [sealsOf, filterMap_map]
    · simp [opensOf, filterMap_map]
    · simp [talliesOf, filterMap_map]
    · simp [slashesOf, filterMap_map]
    · simpa [frozenOf, filterMap_map] using done.frozen

theorem Lived.sealsOf_eq (lived : Lived hour e (s.book e) life) :
    sealsOf s.log e = life.seals.map fun c => (c.validator, c.stake) :=
  sealsOf_logOf.symm.trans lived.views.1

theorem Lived.mem_opensOf (lived : Lived hour e (s.book e) life) {v : Bytes} :
    (e, v) ∈ opensOf s.log ↔ v ∈ life.openers := by
  have seen : opensOf (logOf e s.log) = life.openers.map (e, ·) := lived.views.2.1
  have mem : (e, v) ∈ opensOf (logOf e s.log) ↔ (e, v) ∈ opensOf s.log := by
    simp [opensOf_logOf]
  rw [← mem, seen]
  simp

theorem Lived.mem_talliesOf (lived : Lived hour e (s.book e) life) :
    e ∈ talliesOf s.log ↔ life.tally ≠ [] := by
  have seen : talliesOf (logOf e s.log) = if life.tally = [] then [] else [e] :=
    lived.views.2.2.1
  have mem : e ∈ talliesOf (logOf e s.log) ↔ e ∈ talliesOf s.log := by simp [talliesOf_logOf]
  rw [← mem, seen]
  split_ifs with none <;> simp [none]

theorem Lived.mem_slashesOf (lived : Lived hour e (s.book e) life) {v : Bytes} :
    (e, v) ∈ slashesOf s.log ↔ life.tally ≠ [] ∧ v ∈ life.shut := by
  have seen : slashesOf (logOf e s.log) = if life.tally = [] then [] else life.shut.map (e, ·) :=
    lived.views.2.2.2.1
  have mem : (e, v) ∈ slashesOf (logOf e s.log) ↔ (e, v) ∈ slashesOf s.log := by
    simp [slashesOf_logOf]
  rw [← mem, seen]
  split_ifs with none <;> simp [none]

theorem Lived.waits (lived : Lived hour e (s.book e) life) :
    Waits s e ↔ life.seals ≠ [] ∧ life.tally = [] := by
  rw [Waits, lived.sealsOf_eq, lived.mem_talliesOf, not_not, ne_eq, map_eq_nil_iff]

theorem Waits.congr (same : logOf e s'.log = logOf e s.log) : Waits s' e ↔ Waits s e := by
  have tallies := Eq.to_iff (congrArg (e ∈ talliesOf ·) same)
  rw [talliesOf_logOf, talliesOf_logOf, mem_filter, mem_filter] at tallies
  rw [Waits, Waits, ← sealsOf_logOf, same, sealsOf_logOf]
  simp_all

/-! ### A tally -/

section
variable [StakeAccounts]

theorem tallyRates_books (ran : s.tallyRates view e = .ok s') (books : Books hour s)
    (now : view.hour = hour) (waits : Waits s e)
    (due : wrappingAdd 64 e 2 < hour ∨ ∀ c ∈ s.commits e, c.opened = true)
    (small : hour < 2 ^ 63) :
    Books hour s' ∧ (∀ e', Waits s' e' ↔ Waits s e' ∧ e' ≠ e) ∧ s'.pending = s.pending := by
  have positive : ∀ symbol, ∀ r ∈ s.submissions symbol e, 0 < r.rate := fun symbol r mem => by
    obtain ⟨life, lived⟩ := books.lives e
    exact (lived.filed symbol r mem).2
  have tallied : EpochTallied s s' view e := tallyRates_tallied ran positive
  obtain ⟨m, log, entries, slashes, frozen⟩ := tallied.log
  have about : ∀ x ∈ .tallied view.hour e :: m, x.about = some e := by
    refine forall_mem_cons.2 ⟨rfl, fun x mem => ?_⟩
    obtain ⟨symbol, median, rfl, -⟩ | ⟨v, n, rfl⟩ := entries x mem <;> rfl
  have others {e' : ℕ} (ne : e' ≠ e) : logOf e' s'.log = logOf e' s.log := by
    rw [log, logOf_away fun x mem => by rw [about x mem]; simpa using ne.symm]
  obtain ⟨life, lived⟩ := books.lives e
  obtain ⟨some_seal, untallied⟩ := lived.waits.1 waits
  have undeleted : life.deletions = 0 := by
    by_contra some
    exact (lived.deleted some).2.2 some_seal untallied
  have commits : s.commits e = life.commits := lived.kept undeleted
  set after : Life := { life with tally := .tallied view.hour e :: m }
  have all_opened (all : ∀ c ∈ s.commits e, c.opened = true) (c : RateCommit)
      (mem : c ∈ life.seals) : c.validator ∈ life.openers := by
    rw [commits] at all
    simpa using all _ (mem_map_of_mem mem)
  have book : s'.book e = { s.book e with log := after.log e, commits := after.commits } := by
    have before : logOf e s.log = life.log e := lived.log
    unfold RateLedger.book
    rw [log, logOf_own about, before, tallied.commits, tallied.symbols, tallied.submissions,
      update_self, commits, EpochBook.mk.injEq]
    refine ⟨?_, ?_, rfl, rfl⟩
    · simp [Life.log, after, untallied, undeleted]
    · rw [Life.commits, Life.commits, map_map, untallied]
      simp [comp_def, after]
  have lived' : Lived hour e (s'.book e) after := by
    rw [book]
    refine { lived with
      log := rfl, tally := .inr ⟨_, m, rfl, ⟨?_, now.le⟩, due.imp_right all_opened,
        fun x mem => ?_, ?_, ?_⟩
      kept := fun _ => rfl, deleted := fun some => absurd undeleted some }
    · rw [now]
      rcases due with late | all
      · have sealing := lived.sealing some_seal
        unfold wrappingAdd at late sealing ⊢
        omega
      · obtain ⟨c, mem⟩ := exists_mem_of_ne_nil _ some_seal
        have opening := lived.opening (ne_nil_of_mem (all_opened all c mem))
        unfold wrappingAdd
        omega
    · refine (entries x mem).imp_left ?_
      rintro ⟨symbol, median, rfl, middle⟩
      refine ⟨symbol, _, median, rfl, middle, ?_, fun row has => ?_⟩
      · unfold RateLedger.countedRows
        rw [map_map]
        exact (lived.filedOnce symbol).sublist (filter_sublist.map _)
      · obtain ⟨r, counted, rfl⟩ := mem_map.1 has
        exact (lived.filed symbol r (mem_of_mem_filter counted)).1
    · rw [slashes, commits, Life.commits, Life.shut, filter_map, filter_map, map_map,
        map_map, untallied]
      simp [comp_def, after]
    · have apart : ((s.symbols e).map fun symbol => (symbol, e)).Nodup :=
        lived.symbols.map fun _ _ eq => (Prod.mk.inj eq).1
      exact apart.sublist frozen
  refine ⟨books.at_epoch (fun e' ne => ?_) ⟨after, lived'⟩ (tallied.rising books.rising),
    fun e' => ?_, tallied.pending⟩
  · unfold RateLedger.book
    rw [others ne, tallied.commits, update_of_ne ne, tallied.symbols, tallied.submissions]
  · by_cases same : e' = e
    · subst same
      simp [lived'.waits, after]
    · rw [Waits.congr (others same)]
      simp [same]

end

end

section
variable {s s' : RateLedger} {view : RateView} {hour e : ℕ}

/-! ### Entries about one epoch -/

theorem Books.entry {x : RateLog} (books : Books hour s) (own : x.about = some e)
    (log : s'.log = s.log ++ [x]) (live : s'.live = s.live)
    (others : ∀ e', e' ≠ e → s'.book e' = ⟨logOf e' s'.log, s.commits e', s.symbols e',
      fun symbol => s.submissions symbol e'⟩)
    (here : ∀ life, Lived hour e (s.book e) life → ∃ life', Lived hour e
      ⟨life.log e ++ [x], s'.commits e, s'.symbols e, fun symbol => s'.submissions symbol e⟩ life') :
    Books hour s' := by
  have about : ∀ y ∈ [x], y.about = some e := by simpa using own
  have away (e' : ℕ) (ne : e' ≠ e) : s'.book e' = s.book e' := by
    rw [others e' ne, log, logOf_away fun y mem => by rw [about y mem]; simpa using ne.symm]
    rfl
  obtain ⟨life, lived⟩ := books.lives e
  have before : logOf e s.log = life.log e := lived.log
  refine books.at_epoch away ?_ (books.rising.congr live fun symbol => ?_)
  · rw [RateLedger.book, log, logOf_own about, before]
    exact here life lived
  · rw [log, movesOf_append]
    cases x <;> first | exact append_nil _ | cases own

theorem Lived.commits_of_untallied {b : EpochBook} {life : Life} (lived : Lived hour e b life)
    (untallied : life.tally = []) (undeleted : life.deletions = 0) :
    b.commits = life.seals.map fun c =>
      { c with opened := c.validator ∈ life.openers, forfeited := false } := by
  rw [lived.kept undeleted, Life.commits, untallied]
  simp

/-! ### Deletions -/

theorem waits_of_log {x : RateLog} {e' : ℕ} (log : s'.log = s.log ++ [x])
    (seals : sealsOf [x] e' = []) (tallies : talliesOf [x] = []) : Waits s' e' ↔ Waits s e' := by
  rw [Waits, log, sealsOf_append, talliesOf_append, seals, tallies, append_nil, append_nil, Waits]

theorem deleteEpoch_waits {e' : ℕ} : Waits (s.deleteEpoch e) e' ↔ Waits s e' :=
  waits_of_log (x := .deleted e) rfl rfl rfl

theorem deleteEpoch_books (books : Books hour s) (old : e + 2 < hour)
    (done : ¬Waits s e) : Books hour (s.deleteEpoch e) := by
  refine books.entry rfl rfl rfl (fun e' ne => ?_) fun life lived => ?_
  · unfold RateLedger.book RateLedger.deleteEpoch RateLedger.logged
    simp [ne]
  · refine ⟨{ life with deletions := life.deletions + 1 }, ?_⟩
    have tallied : life.seals ≠ [] → life.tally ≠ [] := fun some none =>
      done (lived.waits.2 ⟨some, none⟩)
    refine { lived with
      log := ?_, kept := nofun, deleted := fun _ => ⟨?_, old, tallied⟩
      tally := lived.tally.imp_right fun ⟨h, m, eq, done⟩ => ⟨h, m, eq, { done with }⟩
      filed := fun symbol r mem => ?_, filedOnce := fun symbol => ?_, symbols := ?_ }
    · simp [Life.log, replicate_succ']
    · exact update_self ..
    · change r ∈ (if e = e ∧ symbol ∈ s.symbols e then [] else s.submissions symbol e) at mem
      split_ifs at mem
      · cases mem
      · exact lived.filed symbol r mem
    · change ((if e = e ∧ symbol ∈ s.symbols e then [] else s.submissions symbol e).map _).Nodup
      split_ifs
      · exact nodup_nil
      · exact lived.filedOnce symbol
    · change (update s.symbols e [] e).Nodup
      rw [update_self]
      exact nodup_nil

theorem deleteEpochs_books {epochs : List ℕ} (books : Books hour s)
    (old : ∀ e ∈ epochs, e + 2 < hour) (done : ∀ e ∈ epochs, ¬Waits s e) :
    Books hour (epochs.foldl RateLedger.deleteEpoch s) ∧
      ∀ e, Waits (epochs.foldl RateLedger.deleteEpoch s) e ↔ Waits s e := by
  induction epochs generalizing s with
  | nil => exact ⟨books, fun _ => Iff.rfl⟩
  | cons e rest ih =>
    obtain ⟨old_e, old⟩ := forall_mem_cons.1 old
    obtain ⟨done_e, done⟩ := forall_mem_cons.1 done
    obtain ⟨last, waits⟩ := ih (deleteEpoch_books books old_e done_e) old fun e' mem some =>
      done e' mem (deleteEpoch_waits.1 some)
    exact ⟨last, fun e' => (waits e').trans deleteEpoch_waits⟩

theorem pruneRateEpochs_books {pending : List ℕ} (books : Books hour s) (now : view.hour = hour)
    (small : hour < 2 ^ 63) (done : ∀ e, wrappingAdd 64 e 2 < hour → ¬Waits s e) :
    Books hour (s.pruneRateEpochs view pending) ∧
      ∀ e, Waits (s.pruneRateEpochs view pending) e ↔ Waits s e := by
  unfold RateLedger.pruneRateEpochs
  simp only [now]
  set first := s.prunedBelow.getD (pending.foldl min (hour - 2))
  set last := max (min (hour - 2) (saturatingAdd 64 first maxRatePrunedEpochs)) first
  have old : ∀ e ∈ range' first (last - first), e + 2 < hour := fun e mem => by
    obtain ⟨above, below⟩ := mem_range'_1.1 mem
    omega
  obtain ⟨kept, waits⟩ := deleteEpochs_books books old fun e mem => by
    have past := old e mem
    refine done e ?_
    unfold wrappingAdd
    omega
  exact ⟨⟨kept.lives, kept.rising.congr rfl fun _ => rfl⟩, waits⟩

/-! ### Seals -/

section
variable {sender commitment : Bytes} {stake : ℕ}

theorem Lived.sealing_hour {b : EpochBook} {life : Life} (lived : Lived hour e b life)
    (small : hour < 2 ^ 63) (closes : wrappingAdd 64 e 1 = hour) :
    life.openers = [] ∧ life.tally = [] ∧ life.deletions = 0 := by
  refine ⟨?_, ?_, ?_⟩
  · by_contra some
    have opening := lived.opening some
    unfold wrappingAdd at closes
    omega
  · rcases lived.tally with none | ⟨h, m, -, done⟩
    · exact none
    · have later := done.later
      omega
  · by_contra some
    have old := (lived.deleted some).2.1
    unfold wrappingAdd at closes
    omega

theorem sealReport_waits (books : Books hour s) (small : hour < 2 ^ 63)
    (closes : wrappingAdd 64 e 1 = hour) {e' : ℕ} :
    Waits (s.sealReport view e sender commitment stake) e' ↔ Waits s e' ∨ e' = e := by
  have log : (s.sealReport view e sender commitment stake).log =
    s.log ++ [.sealed view.hour e sender stake] := rfl
  have untallied : e ∉ talliesOf s.log := by
    obtain ⟨life, lived⟩ := books.lives e
    rw [lived.mem_talliesOf, not_not]
    exact (lived.sealing_hour small closes).2.1
  have added : talliesOf [.sealed view.hour e sender stake] = [] := rfl
  by_cases same : e' = e
  · have sealed : sealsOf [.sealed view.hour e sender stake] e = [(sender, stake)] := by
      simp [sealsOf]
    rw [Waits, log, sealsOf_append, talliesOf_append, same, sealed, added]
    simp [untallied]
  · have other : sealsOf [.sealed view.hour e sender stake] e' = [] := by
      simp [sealsOf, Ne.symm same]
    rw [waits_of_log log other added]
    simp [same]

theorem sealReport_books (books : Books hour s) (now : view.hour = hour) (small : hour < 2 ^ 63)
    (closes : wrappingAdd 64 e 1 = hour)
    (first : sender ∉ (s.commits e).map RateCommit.validator) :
    Books hour (s.sealReport view e sender commitment stake) := by
  refine books.entry rfl rfl rfl (fun e' ne => ?_) fun life lived => ?_
  · unfold RateLedger.book RateLedger.sealReport RateLedger.logged RateLedger.setCommits
    simp [ne]
  · obtain ⟨unopened, untallied, undeleted⟩ := lived.sealing_hour small closes
    have commits : s.commits e = _ := lived.commits_of_untallied untallied undeleted
    have unsealed : sender ∉ life.seals.map RateCommit.validator := by
      rw [commits, map_map] at first
      exact first
    set mine : RateCommit := ⟨sender, commitment, stake, false, false⟩
    have sealed_more {v : Bytes} {n : ℕ} (reported : life.Reported v n) :
        Life.Reported { life with seals := life.seals ++ [mine] } v n :=
      reported.imp_left fun ⟨c, mem, own⟩ => ⟨c, mem_append_left _ mem, own⟩
    refine ⟨{ life with seals := life.seals ++ [mine] }, { lived with
      log := ?_, apart := ?_, openers := fun v mem => ?_, sealing := fun _ => closes.le
      tally := .inl untallied, kept := fun _ => ?_, deleted := fun some => absurd undeleted some
      filed := fun symbol r mem => (lived.filed symbol r mem).imp_left sealed_more }⟩
    · simp [Life.log, unopened, untallied, undeleted, now, closes, mine]
    · rw [map_append, map_singleton, nodup_append_comm]
      exact nodup_cons.2 ⟨unsealed, lived.apart⟩
    · rw [unopened] at mem
      cases mem
    · change update s.commits e _ e = _
      rw [update_self, commits, Life.commits, untallied, unopened]
      simp [mine]

end

/-! ### Openings -/

section
variable {sender : Bytes} {mine : RateCommit}

theorem openFirst_eq {commits : List RateCommit}
    (apart : (commits.map RateCommit.validator).Nodup) : openFirst sender commits =
      commits.map fun c => if c.validator = sender then { c with opened := true } else c := by
  induction commits with
  | nil => rfl
  | cons c rest ih =>
    obtain ⟨away, apart⟩ := nodup_cons.1 apart
    unfold openFirst
    rw [map_cons]
    split_ifs with own
    · refine congrArg _ ((map_congr_left fun c' has => ?_).trans (map_id rest)).symm
      have ne : c'.validator ≠ sender := fun same => away (own.trans same.symm ▸
        mem_map_of_mem has)
      exact if_neg ne
    · rw [ih apart]

/-- A seal found shut in its opening hour: its epoch is kept and not tallied yet. -/
structure Life.Shut (life : Life) (mine : RateCommit) : Prop where
  untallied : life.tally = []
  undeleted : life.deletions = 0
  unopened : mine.validator ∉ life.openers
  sealed_as : ∃ c ∈ life.seals, c.validator = mine.validator ∧ c.stake = mine.stake

theorem Lived.shut {life : Life} (lived : Lived hour e (s.book e) life) (small : hour < 2 ^ 63)
    (opens : hour = e + 2) (has : mine ∈ s.commits e) (shut : mine.opened = false) :
    life.Shut mine := by
  have undeleted : life.deletions = 0 := by
    by_contra some
    have none : s.commits e = [] := (lived.deleted some).1
    rw [none] at has
    cases has
  have commits : s.commits e = life.commits := lived.kept undeleted
  rw [commits] at has
  obtain ⟨c, mem, rfl⟩ := mem_map.1 has
  have unopened : c.validator ∉ life.openers := by simpa using shut
  refine ⟨?_, undeleted, unopened, c, mem, rfl, rfl⟩
  rcases lived.tally with none | ⟨h, m, -, done⟩
  · exact none
  · rcases done.closed with late | all
    · unfold wrappingAdd at late
      omega
    · exact absurd (all c mem) unopened

theorem markOpened_waits {e' : ℕ} : Waits (s.markOpened view e sender) e' ↔ Waits s e' :=
  waits_of_log (x := .opened view.hour e sender) rfl rfl rfl

theorem markOpened_books (books : Books hour s) (now : view.hour = hour) (opens : hour = e + 2)
    (shut : ∀ life, Lived hour e (s.book e) life → life.Shut mine) :
    Books hour (s.markOpened view e mine.validator) := by
  refine books.entry rfl rfl rfl (fun e' ne => ?_) fun life lived => ?_
  · unfold RateLedger.book RateLedger.markOpened RateLedger.logged RateLedger.setCommits
    simp [ne]
  · obtain ⟨untallied, undeleted, unopened, c, mem, own, -⟩ := shut life lived
    have commits : s.commits e = _ := lived.commits_of_untallied untallied undeleted
    refine ⟨{ life with openers := life.openers ++ [mine.validator] }, { lived with
      log := ?_, openers := ?_, opening := fun _ => opens.ge, tally := .inl untallied
      kept := fun _ => ?_, deleted := fun some => absurd undeleted some
      filed := fun symbol r mem => ?_ }⟩
    · simp [Life.log, untallied, undeleted, now, opens]
    · exact forall_mem_append.2 ⟨lived.openers,
        forall_mem_singleton.2 (own ▸ mem_map_of_mem mem)⟩
    · change update s.commits e _ e = _
      have apart : ((s.commits e).map RateCommit.validator).Nodup := by
        rw [commits, map_map]
        exact lived.apart
      rw [update_self, openFirst_eq apart, commits, Life.commits, map_map, untallied]
      refine map_congr_left fun c' _ => ?_
      simp only [comp_apply]
      split_ifs with same <;> simp [same]
    · obtain ⟨⟨sealer, opener⟩, positive⟩ := lived.filed symbol r mem
      exact ⟨⟨sealer, mem_append_left _ opener⟩, positive⟩

/-! ### Filing what was opened -/

theorem readQuotes_ok {quotes : List RateQuote} {sources sources' : List String}
    {rates rates' : List ℕ} (ran : readQuotes sources rates quotes = .ok (sources', rates'))
    (same : sources.length = rates.length) (positive : ∀ r ∈ rates, 0 < r) :
    sources'.length = rates'.length ∧ ∀ r ∈ rates', 0 < r := by
  induction quotes generalizing sources rates with
  | nil =>
    obtain ⟨rfl, rfl⟩ := Prod.mk.inj (Except.ok.inj ran)
    exact ⟨same, positive⟩
  | cons q rest ih =>
    unfold readQuotes at ran
    simp only at ran
    obtain ⟨_, -, ran⟩ := bind_ok.1 ran
    obtain ⟨_, -, ran⟩ := bind_ok.1 ran
    split at ran
    · cases ran
    · next rate found =>
      refine ih ran ?_ ?_
      · rw [length_append, length_append, same]
        rfl
      · refine forall_mem_append.2 ⟨positive, fun r mem => ?_⟩
        rw [mem_singleton.1 mem]
        exact of_decide_eq_true (Option.filter_eq_some_iff.1 found).2

theorem reportRate_pos {quotes : List RateQuote} {least : ℕ} {out : ℕ × List String}
    (ran : reportRate quotes least = .ok out) : 0 < out.1 := by
  obtain ⟨⟨sources, rates⟩, read, ran⟩ := bind_ok.1 ran
  obtain ⟨_, enough, ran⟩ := bind_ok.1 ran
  have enough := ensure_ok.1 enough
  rw [← pure_ok.1 ran]
  obtain ⟨same, positive⟩ := readQuotes_ok read rfl (by simp)
  have inside : (rates.length - 1) / 2 < (rates.insertionSort (· ≤ ·)).length := by
    rw [length_insertionSort]
    unfold minRateSources at enough
    omega
  change 0 < (rates.insertionSort (· ≤ ·)).getD _ 0
  rw [getD_eq_getElem _ _ inside]
  exact positive _ ((mem_insertionSort _).1 (getElem_mem inside))

theorem rates_of_symbols {symbols : List String} {out : List SymbolRate}
    (read : Forall₂ (fun symbol (r : SymbolRate) => r.symbol = symbol ∧ 0 < r.rate)
      symbols out) : out.map SymbolRate.symbol = symbols ∧ ∀ r ∈ out, 0 < r.rate := by
  induction read with
  | nil => exact ⟨rfl, by simp⟩
  | cons here _ ih => exact ⟨congrArg₂ _ here.1 ih.1, forall_mem_cons.2 ⟨here.2, ih.2⟩⟩

theorem reportRates_ok {quotes : List RateQuote} {least : ℕ} {out : List SymbolRate}
    (ran : reportRates quotes least = .ok out) :
    (out.map SymbolRate.symbol).Nodup ∧ ∀ r ∈ out, 0 < r.rate := by
  obtain ⟨_, -, ran⟩ := bind_ok.1 ran
  obtain ⟨named, -, ran⟩ := bind_ok.1 ran
  obtain ⟨_, -, ran⟩ := bind_ok.1 ran
  have distinct : ((named.map Prod.fst).dedup.mergeSort fun a b => a ≤ b).Nodup :=
    (mergeSort_perm ..).nodup_iff.2 (nodup_dedup _)
  obtain ⟨names, positive⟩ := rates_of_symbols ((mapM_ok.1 ran).imp fun symbol r one => by
    obtain ⟨⟨rate, sources⟩, reported, one⟩ := bind_ok.1 one
    rw [← pure_ok.1 one]
    exact ⟨rfl, reportRate_pos reported⟩)
  exact ⟨names ▸ distinct, positive⟩

variable {stake : ℕ}

theorem fileRate_books {r : SymbolRate} (books : Books hour s)
    (sealer : (sender, stake) ∈ sealsOf s.log e) (opener : (e, sender) ∈ opensOf s.log)
    (positive : 0 < r.rate)
    (first : sender ∉ (s.submissions r.symbol e).map RateSubmission.validator) :
    Books hour (s.fileRate e sender stake r) := by
  obtain ⟨life, lived⟩ := books.lives e
  rw [lived.sealsOf_eq] at sealer
  have reported : life.Reported sender stake :=
    ⟨by simpa using sealer, lived.mem_opensOf.1 opener⟩
  have submissions (symbol : String) : (s.fileRate e sender stake r).submissions symbol e =
      if symbol = r.symbol then s.submissions symbol e ++ [⟨sender, r.rate, stake, r.sources⟩]
      else s.submissions symbol e := by
    unfold RateLedger.fileRate
    by_cases same : symbol = r.symbol <;> simp [same]
  refine books.at_epoch (fun e' ne => ?_) ⟨life, { lived with
    filed := fun symbol x mem => ?_, filedOnce := fun symbol => ?_, symbols := ?_ }⟩
    (books.rising.congr rfl fun _ => rfl)
  · unfold RateLedger.book RateLedger.fileRate
    simp only [update_of_ne ne, EpochBook.mk.injEq, true_and]
    funext symbol
    by_cases same : symbol = r.symbol <;> simp [same, ne]
  · change x ∈ (s.fileRate e sender stake r).submissions symbol e at mem
    rw [submissions] at mem
    split_ifs at mem
    · rcases mem_append.1 mem with old | new
      · exact lived.filed symbol x old
      · rw [mem_singleton.1 new]
        exact ⟨reported, positive⟩
    · exact lived.filed symbol x mem
  · change (((s.fileRate e sender stake r).submissions symbol e).map _).Nodup
    rw [submissions]
    split_ifs with same
    · rw [map_append, map_singleton, nodup_append_comm, same]
      exact nodup_cons.2 ⟨first, lived.filedOnce r.symbol⟩
    · exact lived.filedOnce symbol
  · change (update s.symbols e _ e).Nodup
    rw [update_self]
    split_ifs with there
    · exact lived.symbols
    · rw [nodup_append_comm]
      exact nodup_cons.2 ⟨there, lived.symbols⟩

theorem fileRates_books {rates : List SymbolRate} (books : Books hour s)
    (sealer : (sender, stake) ∈ sealsOf s.log e) (opener : (e, sender) ∈ opensOf s.log)
    (positive : ∀ r ∈ rates, 0 < r.rate) (apart : (rates.map SymbolRate.symbol).Nodup)
    (first : ∀ r ∈ rates, sender ∉ (s.submissions r.symbol e).map RateSubmission.validator) :
    Books hour (rates.foldl (fun s r => s.fileRate e sender stake r) s) ∧
      (rates.foldl (fun s r => s.fileRate e sender stake r) s).log = s.log ∧
      (rates.foldl (fun s r => s.fileRate e sender stake r) s).commits = s.commits := by
  induction rates generalizing s with
  | nil => exact ⟨books, rfl, rfl⟩
  | cons r rest ih =>
    obtain ⟨positive_r, positive⟩ := forall_mem_cons.1 positive
    obtain ⟨first_r, first⟩ := forall_mem_cons.1 first
    obtain ⟨away, apart⟩ := nodup_cons.1 apart
    refine ih (fileRate_books books sealer opener positive_r first_r) sealer opener positive apart
      fun r' mem => ?_
    have ne : r'.symbol ≠ r.symbol := fun same => away (same ▸ mem_map_of_mem mem)
    change sender ∉ List.map _ (update s.submissions r.symbol _ r'.symbol e)
    rw [update_of_ne ne]
    exact first r' mem

end

end

end Tenzro.Rates
