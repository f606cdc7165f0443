import Tenzro.Reconciliation

set_option autoImplicit false
set_option linter.dupNamespace false

/-!
# Runs of the books and the locks

Entries are judged once, in the order the lock recorded them, against plans
that only move forward.
-/
namespace Tenzro.Settlement
open ByteCodec ProofVerifiers Outcome List Function
open Bridge (toAsciiLower)

section
variable [SchemeHash]

/-! ### The hash chain -/

omit [SchemeHash] in
theorem packedEntry_injective {acc acc' : Word} {e e' : Entry} (fits : e.amount < 2 ^ 256)
    (fits' : e'.amount < 2 ^ 256) (same : packedEntry acc e.plan e.leg e.kind e.amount =
      packedEntry acc' e'.plan e'.leg e'.kind e'.amount) : acc = acc' ∧ e = e' := by
  unfold packedEntry at same
  have words : ∀ w w' : Word, w.1.length = w'.1.length := fun w w' => w.2.trans w'.2.symm
  obtain ⟨same, amounts⟩ := append_inj' same (by rw [length_beBytes, length_beBytes])
  obtain ⟨same, kinds⟩ := append_inj' same rfl
  obtain ⟨same, legs⟩ := append_inj' same (words _ _)
  obtain ⟨same, plans⟩ := append_inj' same (words _ _)
  obtain ⟨-, accs⟩ := append_inj' same (words _ _)
  have amount := beBytes_injective (w := 32) (by omega) (by omega) amounts
  obtain ⟨plan, leg, kind, n⟩ := e
  obtain ⟨plan', leg', kind', n'⟩ := e'
  simp only at amounts kinds legs plans amount
  rw [Subtype.ext accs, Subtype.ext plans, Subtype.ext legs, (List.cons.inj kinds).1, amount]
  exact ⟨rfl, rfl⟩

theorem lockHash_append {l : List Entry} {e : Entry} :
    lockHash (l ++ [e]) = sha (packedEntry (lockHash l) e.plan e.leg e.kind e.amount) :=
  foldl_append ..

theorem hashedFrom_append {l : List Entry} {e : Entry} : ∀ acc, hashedFrom acc (l ++ [e]) =
    hashedFrom acc l ++ [packedEntry (l.foldl (fun acc e =>
      sha (packedEntry acc e.plan e.leg e.kind e.amount)) acc) e.plan e.leg e.kind e.amount] := by
  induction l with
  | nil => exact fun _ => rfl
  | cons x rest ih =>
    intro acc
    change _ :: hashedFrom _ (rest ++ [e]) = _
    rw [ih]
    rfl

/-- No two different byte strings hashed for the two lists have one hash. -/
def NoCollision (l l' : List Entry) : Prop :=
  ∀ x ∈ hashedFrom ProofVerifiers.empty l, ∀ y ∈ hashedFrom ProofVerifiers.empty l',
    sha x = sha y → x = y

theorem lockHash_binding {l l' : List Entry} (length : l.length = l'.length)
    (fits : ∀ e ∈ l, e.amount < 2 ^ 256) (fits' : ∀ e ∈ l', e.amount < 2 ^ 256)
    (apart : NoCollision l l') (same : lockHash l = lockHash l') : l = l' := by
  induction l using reverseRecOn generalizing l' with
  | nil => exact (length_eq_zero_iff.1 length.symm).symm
  | append_singleton l e ih =>
    rcases eq_nil_or_concat l' with rfl | ⟨m, e', rfl⟩
    · simp at length
    · rw [concat_eq_append] at *
      rw [lockHash_append, lockHash_append] at same
      unfold NoCollision at apart
      rw [hashedFrom_append, hashedFrom_append] at apart
      have packed := apart _ (mem_append_right _ (mem_singleton_self _)) _
        (mem_append_right _ (mem_singleton_self _)) same
      obtain ⟨before, rfl⟩ := packedEntry_injective (fits e (by simp)) (fits' e' (by simp)) packed
      have rest : l = m := ih (by simpa using length) (fun x mem => fits x (by simp [mem]))
        (fun x mem => fits' x (by simp [mem])) (fun x mem y mem' => apart x
          (mem_append_left _ mem) y (mem_append_left _ mem')) before
      rw [rest]

theorem fold_entry {e : ReconEntry} (small : e.amount < 2 ^ 128) (acc : Word) :
    e.fold acc = sha (packedEntry acc e.planId e.legId e.kind.byte e.amount) := by
  unfold ReconEntry.fold reconStep
  rw [packedEntry_eq small]

theorem foldl_fold {entries : List ReconEntry} {l : List Entry}
    (small : ∀ e ∈ entries, e.amount < 2 ^ 128) :
    entries.foldl ReconEntry.fold (lockHash l) = lockHash (l ++ entries.map ReconEntry.entry) := by
  induction entries generalizing l with
  | nil =>
    rw [map_nil, append_nil]
    rfl
  | cons e rest ih =>
    have next : e.fold (lockHash l) = lockHash (l ++ [e.entry]) := by
      rw [fold_entry (small e mem_cons_self), lockHash_append]
      rfl
    rw [foldl_cons, next, ih fun x mem => small x (mem_cons_of_mem _ mem),
      append_assoc]
    rfl

/-! ### What an entry must name -/

/-- An entry names a lock leg of the route, of the leg's amount. -/
structure Names (plan : SettlementPlan) (route : Route) (leg : Word) (amount : ℕ) : Prop where
  lockLeg : ∃ l chain, planLeg plan leg = some l ∧ l.kind = .remoteLock route.1 chain amount ∧
    toAsciiLower chain = route.2

def Committed (plan : SettlementPlan) : Prop := plan.decision.map PlanDecision.commit = some true

def Agrees (plans : Plans) (route : Route) (e : ReconEntry) : Prop :=
  ∃ plan, plans e.planId = some plan ∧ Names plan route e.legId e.amount ∧
    (e.kind = .released → Committed plan) ∧ (e.kind = .refunded → ¬ Committed plan)

variable {v : ReconView} {plans plans' : Plans} {route : Route} {e : ReconEntry}

theorem disagreement_none : disagreement v plans route e = none ↔ Agrees plans route e := by
  unfold disagreement Agrees
  cases held : plans e.planId with
  | none => exact iff_of_false nofun fun ⟨_, found, _⟩ => nomatch found
  | some plan =>
    simp only
    cases at_leg : planLeg plan e.legId with
    | none =>
      refine iff_of_false nofun ?_
      rintro ⟨_, ⟨⟩, ⟨_, _, found, -⟩, -⟩
      rw [at_leg] at found
      cases found
    | some l =>
      obtain ⟨kind, required, usdE6⟩ := l
      have other : ∀ k, kind = k → (∀ a c n, k ≠ .remoteLock a c n) → ¬ ∃ q, some plan = some q ∧
          Names q route e.legId e.amount ∧ (e.kind = .released → Committed q) ∧
            (e.kind = .refunded → ¬ Committed q) := by
        rintro k rfl not_lock ⟨_, ⟨⟩, ⟨_, _, found, is_lock, -⟩, -⟩
        rw [at_leg] at found
        cases found
        exact not_lock _ _ _ is_lock
      cases kind with
      | nativeTransfer => exact iff_of_false nofun (other _ rfl nofun)
      | netted => exact iff_of_false nofun (other _ rfl nofun)
      | ibcTransfer => exact iff_of_false nofun (other _ rfl nofun)
      | hashLocked => exact iff_of_false nofun (other _ rfl nofun)
      | railInstruction => exact iff_of_false nofun (other _ rfl nofun)
      | remoteLock a c amount =>
        simp only
        split_ifs with elsewhere unequal
        · refine iff_of_false nofun ?_
          rintro ⟨_, ⟨⟩, ⟨_, _, found, is_lock, lower⟩, -⟩
          rw [at_leg] at found
          cases found
          cases is_lock
          exact elsewhere.elim (fun no => no rfl) fun no => no lower
        · refine iff_of_false nofun ?_
          rintro ⟨_, ⟨⟩, ⟨_, _, found, is_lock, -⟩, -⟩
          rw [at_leg] at found
          cases found
          cases is_lock
          exact unequal rfl
        · rw [not_or, not_not, not_not] at elsewhere
          rw [not_not] at unequal
          have names : Names plan route e.legId e.amount :=
            ⟨_, c, at_leg, by rw [elsewhere.1, unequal], elsewhere.2⟩
          have reduce : (∃ q, some plan = some q ∧ Names q route e.legId e.amount ∧
              (e.kind = .released → Committed q) ∧ (e.kind = .refunded → ¬ Committed q)) ↔
              (e.kind = .released → Committed plan) ∧ (e.kind = .refunded → ¬ Committed plan) :=
            ⟨fun ⟨_, same, _, both⟩ => by cases same; exact both, fun both => ⟨plan, rfl, names, both⟩⟩
          rw [reduce]
          unfold Committed
          cases e.kind with
          | locked => simp
          | released =>
            cases decided : plan.decision.map PlanDecision.commit with
            | none => simp
            | some committed => cases committed <;> simp
          | refunded =>
            cases decided : plan.decision.map PlanDecision.commit with
            | none => simp
            | some committed => cases committed <;> simp

end

section
variable [SchemeHash] {v : ReconView} {books books' : ReconBooks} {call : ReconCall} {route : Route}
  {plans plans' : Plans} {digest : Bytes} {attested : Bool} {w : ReconWorld}

/-! ### One reconciliation -/

theorem mem_mismatchesFrom {position : ℕ} {acc : Word} {entries : List ReconEntry}
    {m : ReconMismatch} (mem : m ∈ mismatchesFrom v plans call digest attested position acc entries) :
    ∃ i e, entries[i]? = some e ∧ m.position = position + i + 1 ∧ m.entry = e ∧
      m.route = call.route ∧ ¬ Agrees plans call.route e := by
  induction entries generalizing position acc with
  | nil => exact absurd mem not_mem_nil
  | cons e rest ih =>
    have later : m ∈ mismatchesFrom v plans call digest attested (position + 1) (e.fold acc) rest →
        ∃ i e', (e :: rest)[i]? = some e' ∧ m.position = position + i + 1 ∧ m.entry = e' ∧
          m.route = call.route ∧ ¬ Agrees plans call.route e' := by
      intro mem
      obtain ⟨i, e', found, at_i, rest⟩ := ih mem
      exact ⟨i + 1, e', found, by omega, rest⟩
    unfold mismatchesFrom at mem
    cases judged : disagreement v plans call.route e with
    | none =>
      simp only [judged] at mem
      exact later mem
    | some found =>
      obtain ⟨reason, cost⟩ := found
      simp only [judged] at mem
      rcases mem_cons.1 mem with rfl | mem
      · refine ⟨0, e, rfl, rfl, rfl, rfl, fun agrees => ?_⟩
        rw [disagreement_none.2 agrees] at judged
        cases judged
      · exact later mem

theorem exists_mismatch {position i : ℕ} {acc : Word} {entries : List ReconEntry} {e : ReconEntry}
    (at_i : entries[i]? = some e) (accused : ¬ Agrees plans call.route e) :
    ∃ m ∈ mismatchesFrom v plans call digest attested position acc entries,
      m.position = position + i + 1 := by
  induction entries generalizing position acc i with
  | nil => cases at_i
  | cons x rest ih =>
    unfold mismatchesFrom
    cases i with
    | zero =>
      have same : x = e := Option.some.inj at_i
      subst same
      cases judged : disagreement v plans call.route x with
      | none => exact absurd (disagreement_none.1 judged) accused
      | some found =>
        obtain ⟨reason, cost⟩ := found
        simp only
        exact ⟨_, mem_cons_self, rfl⟩
    | succ i =>
      obtain ⟨m, mem, same⟩ : ∃ m ∈ mismatchesFrom v plans call digest attested (position + 1)
          (x.fold acc) rest, m.position = position + 1 + i + 1 := ih at_i
      refine ⟨m, ?_, by omega⟩
      cases disagreement v plans call.route x with
      | none => exact mem
      | some found => exact mem_cons_of_mem _ mem

theorem mismatchesFrom_nil {position : ℕ} {acc : Word} {entries : List ReconEntry}
    (agree : ∀ e ∈ entries, Agrees plans call.route e) :
    mismatchesFrom v plans call digest attested position acc entries = [] := by
  refine eq_nil_iff_forall_not_mem.2 fun m mem => ?_
  obtain ⟨i, e, found, -, -, -, accused⟩ := mem_mismatchesFrom mem
  exact accused (agree e (mem_of_getElem? found))

omit [SchemeHash] in
theorem written_of {found : List ReconMismatch} {f : Route → ℕ → Option ReconMismatch} {p : ℕ}
    {m : ReconMismatch} (held : found.foldl writeMismatch f route p = some m) :
    (m ∈ found ∧ m.route = route ∧ m.position = p) ∨ f route p = some m := by
  induction found generalizing f with
  | nil => exact .inr held
  | cons x rest ih =>
    rcases ih held with ⟨mem, own⟩ | old
    · exact .inl ⟨mem_cons_of_mem _ mem, own⟩
    · unfold writeMismatch at old
      by_cases same : route = x.route
      · subst same
        rw [update_self] at old
        by_cases here : p = x.position
        · subst here
          rw [update_self] at old
          cases old
          exact .inl ⟨mem_cons_self, rfl, rfl⟩
        · rw [update_of_ne here] at old
          exact .inr old
      · rw [update_of_ne same] at old
        exact .inr old

omit [SchemeHash] in
theorem written_kept {found : List ReconMismatch} {f : Route → ℕ → Option ReconMismatch} {p : ℕ}
    (held : (f route p).isSome) : (found.foldl writeMismatch f route p).isSome := by
  induction found generalizing f with
  | nil => exact held
  | cons x rest ih =>
    refine ih ?_
    unfold writeMismatch
    by_cases same : route = x.route
    · subst same
      rw [update_self]
      by_cases here : p = x.position
      · rw [here, update_self]
        rfl
      · rw [update_of_ne here]
        exact held
    · rw [update_of_ne same]
      exact held

omit [SchemeHash] in
theorem written_new {found : List ReconMismatch} {f : Route → ℕ → Option ReconMismatch}
    {m : ReconMismatch} (mem : m ∈ found) :
    (found.foldl writeMismatch f m.route m.position).isSome := by
  induction found generalizing f with
  | nil => exact absurd mem not_mem_nil
  | cons x rest ih =>
    rcases mem_cons.1 mem with rfl | mem
    · refine written_kept (f := writeMismatch f m) ?_
      unfold writeMismatch
      rw [update_self, update_self]
      rfl
    · exact ih mem

/-- How far a route's lock is reconciled. -/
def ReconBooks.state (books : ReconBooks) (route : Route) : ReconState :=
  (books.recon route).getD ReconState.fresh

def found (v : ReconView) (books : ReconBooks) (call : ReconCall) (digest : Bytes)
    (attested : Bool) : List ReconMismatch :=
  mismatchesFrom v books.plans call digest attested (books.state call.route).count
    (books.state call.route).acc call.entries

/-- A reconciliation that succeeds: what it checked and what it wrote. -/
structure Reconciled (v : ReconView) (books : ReconBooks) (call : ReconCall) (books' : ReconBooks)
    (count : ℕ) (acc : Word) (digest : Bytes) (attested : Bool) : Prop where
  proven : v.proven = some (count, acc, digest, attested)
  counted : count = (books.state call.route).count + call.entries.length
  folded : call.entries.foldl ReconEntry.fold (books.state call.route).acc = acc
  plans : books'.plans = books.plans
  recon : books'.recon = update books.recon call.route (some ⟨count, acc, digest, v.nowMs,
    (books.state call.route).mismatches ++
      (found v books call digest attested).map ReconMismatch.position⟩)
  mismatches : books'.mismatches =
    (found v books call digest attested).foldl writeMismatch books.mismatches
  quiet : found v books call digest attested = [] →
    books'.stops = books.stops ∧ books'.slashed = books.slashed
  others : ∀ r, r ≠ call.route → books'.stops r = books.stops r
  slashed : ∀ s ∈ books'.slashed, s ∈ books.slashed ∨ s.route = call.route
  stopped : found v books call digest attested ≠ [] →
    ∃ t, books'.stops call.route = some t ∧ t.mode ≠ .opened

section
variable {count : ℕ} {acc : Word}

theorem Reconciled.state (done : Reconciled v books call books' count acc digest attested) :
    books'.state call.route = ⟨count, acc, digest, v.nowMs, (books.state call.route).mismatches ++
      (found v books call digest attested).map ReconMismatch.position⟩ := by
  unfold ReconBooks.state
  rw [done.recon, update_self]
  rfl

theorem Reconciled.state_of_ne (done : Reconciled v books call books' count acc digest attested)
    (other : route ≠ call.route) : books'.state route = books.state route := by
  unfold ReconBooks.state
  rw [done.recon, update_of_ne other]

end

omit [SchemeHash] in
theorem trip_stopped {stops : Route → Option BridgeCircuitTrip} {t : BridgeCircuitTrip}
    (closed : t.mode ≠ .opened) : ∃ t', trip stops route t route = some t' ∧ t'.mode ≠ .opened := by
  unfold trip
  split_ifs with kept
  · obtain ⟨e, held, stopped⟩ := (Option.any_eq_true ..).1 kept.2
    refine ⟨e, held, ?_⟩
    rcases of_decide_eq_true stopped with paused | same
    · rw [paused]
      exact nofun
    · rw [same]
      exact closed
  · exact ⟨t, update_self .., closed⟩

omit [SchemeHash] in
theorem trip_other {stops : Route → Option BridgeCircuitTrip} {t : BridgeCircuitTrip} {r : Route}
    (other : r ≠ route) : trip stops route t r = stops r := by
  unfold trip
  split_ifs
  · rfl
  · exact update_of_ne other ..

omit [SchemeHash] in
theorem accuse_ok {n : ℕ} (ran : accuse v books route n attested = .ok books') :
    books'.plans = books.plans ∧ books'.recon = books.recon ∧
      books'.mismatches = books.mismatches ∧
        (n = 0 → books'.stops = books.stops ∧ books'.slashed = books.slashed) ∧
          (∀ r, r ≠ route → books'.stops r = books.stops r) ∧
            (∀ s ∈ books'.slashed, s ∈ books.slashed ∨ s.route = route) ∧
              (n ≠ 0 → ∃ t, books'.stops route = some t ∧ t.mode ≠ .opened) := by
  unfold accuse at ran
  split_ifs at ran with nothing slashes
  · cases ran
    exact ⟨rfl, rfl, rfl, fun _ => ⟨rfl, rfl⟩, fun _ _ => rfl, fun _ mem => .inl mem,
      fun some_found => absurd nothing some_found⟩
  · unfold slashCommittee at ran
    cases known : v.committees with
    | none =>
      simp only [known] at ran
      cases ran
      exact ⟨rfl, rfl, rfl, fun zero => absurd zero nothing, fun _ other => trip_other other,
        fun _ mem => .inl mem, fun _ => trip_stopped nofun⟩
    | some c =>
      simp only [known] at ran
      obtain ⟨_, -, ran⟩ := bind_ok.1 ran
      obtain rfl := pure_ok.1 ran
      refine ⟨rfl, rfl, rfl, fun zero => absurd zero nothing, fun _ other => trip_other other,
        fun s mem => ?_, fun _ => trip_stopped nofun⟩
      rcases mem_append.1 mem with old | new
      · exact .inl old
      · obtain ⟨m, -, rfl⟩ := mem_map.1 new
        exact .inr rfl
  · cases ran
    exact ⟨rfl, rfl, rfl, fun zero => absurd zero nothing, fun _ other => trip_other other,
      fun _ mem => .inl mem, fun _ => trip_stopped nofun⟩

theorem reconcile_ok (ran : reconcile v books call = .ok books') :
    ∃ count acc digest attested, Reconciled v books call books' count acc digest attested := by
  obtain ⟨_, -, ran⟩ := bind_ok.1 ran
  cases proven : v.proven with
  | none =>
    simp only [proven] at ran
    cases ran
  | some p =>
    obtain ⟨count, acc, digest, attested⟩ := p
    simp only [proven] at ran
    obtain ⟨_, counted, ran⟩ := bind_ok.1 ran
    obtain ⟨_, folded, ran⟩ := bind_ok.1 ran
    obtain ⟨accused, accusing, ran⟩ := bind_ok.1 ran
    obtain ⟨_, -, ran⟩ := bind_ok.1 ran
    obtain rfl := pure_ok.1 ran
    obtain ⟨plans, recon, mismatches, quiet, others, slashed, stopped⟩ := accuse_ok accusing
    exact ⟨count, acc, digest, attested, proven, ensure_ok.1 counted, ensure_ok.1 folded, plans,
      recon, mismatches, fun nothing => quiet (length_eq_zero_iff.2 nothing), others, slashed,
      fun something => stopped fun zero => something (length_eq_zero_iff.1 zero)⟩

/-! ### The lock's entries -/

/-- The checkpoint a route proves is the lock's and free of collisions, amounts fit their widths,
and only reconciliation stops a route in its own name. -/
def Genuine (route : Route) (w : ReconWorld) : ReconStep → Prop
  | .plan _ _ => True
  | .policy r stop => r = route → ∀ t, stop = some t → t.authority ≠ .reconciliation
  | .records r e => r = route → e.amount < 2 ^ 256
  | .reconcile v call => call.route = route → (∀ e ∈ call.entries, e.amount < 2 ^ 128) ∧
      ∀ count acc digest attested, v.proven = some (count, acc, digest, attested) →
        count ≤ (w.log route).length ∧ acc = lockHash ((w.log route).take count) ∧
          NoCollision ((w.log route).take (w.books.state route).count ++
            call.entries.map ReconEntry.entry) ((w.log route).take count)

/-- How the books of a route follow its lock. -/
structure Tracked (w : ReconWorld) (route : Route) : Prop where
  kept : WellKept w.books.plans
  count : (w.books.state route).count ≤ (w.log route).length
  acc : (w.books.state route).acc = lockHash ((w.log route).take (w.books.state route).count)
  fits : ∀ e ∈ w.log route, e.amount < 2 ^ 256
  recorded : ∀ p m, w.books.mismatches route p = some m →
    ∃ i, p = i + 1 ∧ (w.log route)[i]? = some m.entry.entry

omit [SchemeHash] in
theorem entry_fits {e : ReconEntry} (small : e.amount < 2 ^ 128) : e.entry.amount < 2 ^ 256 :=
  small.trans (by decide)

theorem Tracked.slice (tracked : Tracked w route) (own : call.route = route)
    (genuine : Genuine route w (.reconcile v call)) {count : ℕ} {acc : Word}
    (done : Reconciled v w.books call books' count acc digest attested) :
    (w.log route).take count =
      (w.log route).take (w.books.state route).count ++ call.entries.map ReconEntry.entry := by
  subst own
  obtain ⟨small, checkpoint⟩ := genuine rfl
  obtain ⟨room, hash, apart⟩ := checkpoint count acc digest attested done.proven
  have folded := done.folded
  rw [tracked.acc, foldl_fold small, hash] at folded
  refine (lockHash_binding ?_ (fun e mem => ?_) (fun e mem => tracked.fits e (mem_of_mem_take mem))
    apart folded).symm
  · rw [length_append, length_take, length_take, length_map,
      min_eq_left tracked.count, min_eq_left room]
    exact done.counted.symm
  · rcases mem_append.1 mem with old | new
    · exact tracked.fits e (mem_of_mem_take old)
    · obtain ⟨e', mem', rfl⟩ := mem_map.1 new
      exact entry_fits (small e' mem')

omit [SchemeHash] in
theorem getElem?_of_take {α : Type} {l a b : List α} {n i : ℕ} {x : α} (taken : l.take n = a ++ b)
    (at_i : b[i]? = some x) : l[a.length + i]? = some x := by
  have inside : (a ++ b)[a.length + i]? = some x := by
    rw [getElem?_append_right (Nat.le_add_right _ _), Nat.add_sub_cancel_left]
    exact at_i
  rw [← taken, getElem?_take] at inside
  split_ifs at inside
  exact inside

theorem Tracked.entry_at (tracked : Tracked w route) (own : call.route = route)
    (genuine : Genuine route w (.reconcile v call)) {count : ℕ} {acc : Word}
    (done : Reconciled v w.books call books' count acc digest attested) {i : ℕ} {e : ReconEntry}
    (at_i : call.entries[i]? = some e) :
    (w.log route)[(w.books.state route).count + i]? = some e.entry := by
  have mapped : (call.entries.map ReconEntry.entry)[i]? = some e.entry := by
    rw [getElem?_map, at_i]
    rfl
  have found := getElem?_of_take (tracked.slice own genuine done) mapped
  rw [length_take, min_eq_left tracked.count] at found
  exact found

theorem Tracked.reconcile (tracked : Tracked w route)
    (genuine : Genuine route w (.reconcile v call)) (ran : reconcile v w.books call = .ok books') :
    Tracked { w with books := books' } route := by
  obtain ⟨count, acc, digest, attested, done⟩ := reconcile_ok ran
  by_cases own : call.route = route
  · subst own
    obtain ⟨-, checkpoint⟩ := genuine rfl
    obtain ⟨room, hash, -⟩ := checkpoint count acc digest attested done.proven
    have state := done.state
    refine ⟨done.plans ▸ tracked.kept, ?_, ?_, tracked.fits, fun p m held => ?_⟩
    · rw [state]
      exact room
    · rw [state]
      exact hash
    · simp only [done.mismatches] at held
      rcases written_of held with ⟨mem, -, at_p⟩ | old
      · obtain ⟨i, e, at_i, position, entry, -, -⟩ := mem_mismatchesFrom mem
        refine ⟨(w.books.state call.route).count + i, at_p.symm.trans position, ?_⟩
        rw [entry]
        exact tracked.entry_at rfl genuine done at_i
      · exact tracked.recorded p m old
  · have state := done.state_of_ne (Ne.symm own)
    refine ⟨done.plans ▸ tracked.kept, ?_, ?_, tracked.fits, fun p m held => ?_⟩
    · rw [state]
      exact tracked.count
    · rw [state]
      exact tracked.acc
    · simp only [done.mismatches] at held
      rcases written_of held with ⟨mem, at_route, -⟩ | old
      · obtain ⟨-, -, -, -, -, from_call, -⟩ := mem_mismatchesFrom mem
        exact absurd (from_call.symm.trans at_route) own
      · exact tracked.recorded p m old

theorem Tracked.step {a : ReconStep} (tracked : Tracked w route) (genuine : Genuine route w a) :
    Tracked (w.step a) route := by
  cases a with
  | plan v op =>
    unfold ReconWorld.step
    cases ran : executePlan v w.books.plans op with
    | error e =>
      simp only [ran]
      exact tracked
    | ok plans =>
      simp only [ran]
      exact ⟨(executePlan_kept tracked.kept ran).kept, tracked.count, tracked.acc, tracked.fits,
        tracked.recorded⟩
  | policy r stop =>
    exact ⟨tracked.kept, tracked.count, tracked.acc, tracked.fits, tracked.recorded⟩
  | records r e =>
    by_cases own : r = route
    · subst own
      have log : (w.step (.records r e)).log r = w.log r ++ [e] := update_self ..
      refine ⟨tracked.kept, ?_, ?_, fun x mem => ?_, fun p m held => ?_⟩
      · rw [log, length_append]
        exact tracked.count.trans (Nat.le_add_right _ _)
      · change (w.books.state r).acc = lockHash (List.take (w.books.state r).count _)
        rw [log, take_append_of_le_length tracked.count]
        exact tracked.acc
      · rw [log] at mem
        rcases mem_append.1 mem with old | new
        · exact tracked.fits x old
        · rw [mem_singleton.1 new]
          exact genuine rfl
      · obtain ⟨i, rfl, at_i⟩ := tracked.recorded p m held
        refine ⟨i, rfl, ?_⟩
        rw [log, getElem?_append_left (List.getElem?_eq_some_iff.1 at_i).1]
        exact at_i
    · have log : (w.step (.records r e)).log route = w.log route :=
        update_of_ne (Ne.symm own) ..
      refine ⟨tracked.kept, ?_, ?_, ?_, ?_⟩
      · rw [log]
        exact tracked.count
      · rw [log]
        exact tracked.acc
      · rw [log]
        exact tracked.fits
      · rw [log]
        exact tracked.recorded
  | reconcile v call =>
    unfold ReconWorld.step
    cases ran : Settlement.reconcile v w.books call with
    | error e =>
      simp only [ran]
      exact tracked
    | ok books' =>
      simp only [ran]
      exact tracked.reconcile genuine ran

theorem Tracked.run {steps : List ReconStep} (tracked : Tracked w route)
    (genuine : w.Along (Genuine route) steps) : Tracked (w.run steps) route := by
  induction steps generalizing w with
  | nil => exact tracked
  | cons a rest ih => exact ih (tracked.step genuine.1) genuine.2

theorem tracked_start : Tracked .start route where
  kept _ _ held := nomatch held
  count := Nat.zero_le _
  acc := rfl
  fits _ mem := absurd mem not_mem_nil
  recorded _ _ held := nomatch held

end

end Tenzro.Settlement
