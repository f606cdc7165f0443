import Tenzro.Books
import Tenzro.Outcome
import Tenzro.ProofVerifiersSound

set_option autoImplicit false
set_option linter.dupNamespace false

/-!
# Legs of a settlement plan

A leg is locked once and then released or refunded once. Every move is folded into one hash. The
contracts of three chains are compared with the machine of this module.
-/
namespace Tenzro.Settlement
open ByteCodec ProofVerifiers List Function
open Book (SumsTo)

/-! ### The finality verifier -/

/-- A plan's proven outcome. -/
inductive Decision where
  | commit
  | abort
deriving DecidableEq, Repr

inductive LegState where
  | locked
  | released
  | refunded
deriving DecidableEq, Repr

inductive LegError where
  | notLocked
  | unproven
  | tooEarly
deriving DecidableEq, Repr

def decisionLen : ℕ := 42

def reconDomain : Bytes := utf8 "tenzro/settlement/recon/v1"

def reconLocked : UInt8 := 1

def reconReleased : UInt8 := 2

def reconRefunded : UInt8 := 3

def reconBytes (acc planId legId : Word) (kind : UInt8) (amount : ℕ) : Bytes :=
  reconDomain ++ acc.1 ++ planId.1 ++ legId.1 ++ [kind] ++ replicate 16 0 ++ beBytes 16 amount

def decodeDecision (planId : Word) (decision : Bytes) : Option Decision :=
  if decision.length ≠ decisionLen ∨ decision.getD 0 0 ≠ 1 ∨ decision.drop 10 ≠ planId.1 then none
  else if decision.getD 1 0 = 1 then some .commit
  else if decision.getD 1 0 = 2 then some .abort
  else none

def escapeLeg (state : LegState) (now escapeAt : ℕ) : Except LegError LegState :=
  if state ≠ .locked then .error .notLocked
  else if now < escapeAt then .error .tooEarly
  else .ok .refunded

section
variable [SchemeHash]

def legId (planId : Word) (index : UInt8) : Word :=
  sha (utf8 "tenzro/plan/leg/v1" ++ planId.1 ++ [index])

def reconStep (acc planId legId : Word) (kind : UInt8) (amount : ℕ) : Word :=
  sha (reconBytes acc planId legId kind amount)

def decisionTreeKey (planId : Word) : Word :=
  FinalityVerifier.systemSlotTreeKey (utf8 "decision:") planId

def provenOutcome (root planId : Word) (decision proof : Bytes) : Option Decision :=
  match decodeDecision planId decision with
  | none => none
  | some outcome =>
    if FinalityVerifier.verifyAt root (decisionTreeKey planId) (some decision) proof then some outcome
    else none

def settleLeg (state : LegState) (root planId : Word) (decision proof : Bytes) :
    Except LegError LegState :=
  if state ≠ .locked then .error .notLocked
  else
    match provenOutcome root planId decision proof with
    | none => .error .unproven
    | some .commit => .ok .released
    | some .abort => .ok .refunded

end

/-! ### The machine -/

structure Terms (Account Asset : Type) where
  payer : Account
  recipient : Account
  asset : Asset
  amount : ℕ
  escapeAt : ℕ
deriving DecidableEq, Repr

structure Leg (Account Asset : Type) where
  terms : Terms Account Asset
  state : LegState
deriving DecidableEq, Repr

structure Entry where
  plan : Word
  leg : Word
  kind : UInt8
  amount : ℕ
deriving DecidableEq, Repr

inductive Cause where
  | proven (root : Word) (decision proof : Bytes)
  | escaped (now : ℕ)
deriving DecidableEq, Repr

structure Payout (Account Asset : Type) where
  plan : Word
  leg : Word
  dest : Account
  asset : Asset
  amount : ℕ
  cause : Cause
deriving DecidableEq, Repr

/-- The legs, what was recorded of them, oldest first, and what they paid. -/
structure Machine (Account Asset : Type) where
  legs : Word → Option (Leg Account Asset)
  entries : List Entry
  payouts : List (Payout Account Asset)

def LegState.kind : LegState → UInt8
  | locked => reconLocked
  | released => reconReleased
  | refunded => reconRefunded

section
variable {Account Asset : Type}

def Terms.payee (t : Terms Account Asset) : LegState → Account
  | .released => t.recipient
  | _ => t.payer

namespace Machine

def empty : Machine Account Asset := ⟨fun _ => none, [], []⟩

def lock (m : Machine Account Asset) (plan leg : Word) (t : Terms Account Asset) :
    Machine Account Asset where
  legs := update m.legs leg (some ⟨t, .locked⟩)
  entries := m.entries ++ [⟨plan, leg, reconLocked, t.amount⟩]
  payouts := m.payouts

def move (m : Machine Account Asset) (plan leg : Word) (t : Terms Account Asset) (next : LegState)
    (cause : Cause) : Machine Account Asset where
  legs := update m.legs leg (some ⟨t, next⟩)
  entries := m.entries ++ [⟨plan, leg, next.kind, t.amount⟩]
  payouts := m.payouts ++ [⟨plan, leg, t.payee next, t.asset, t.amount, cause⟩]

section
variable {m : Machine Account Asset} {plan leg : Word} {t : Terms Account Asset} {next : LegState}
  {cause : Cause}

@[simp] theorem legs_lock : (m.lock plan leg t).legs =
    update m.legs leg (some ⟨t, .locked⟩) := rfl

@[simp] theorem entries_lock : (m.lock plan leg t).entries =
    m.entries ++ [⟨plan, leg, reconLocked, t.amount⟩] := rfl

@[simp] theorem payouts_lock : (m.lock plan leg t).payouts = m.payouts := rfl

@[simp] theorem legs_move : (m.move plan leg t next cause).legs =
    update m.legs leg (some ⟨t, next⟩) := rfl

@[simp] theorem entries_move : (m.move plan leg t next cause).entries =
    m.entries ++ [⟨plan, leg, next.kind, t.amount⟩] := rfl

@[simp] theorem payouts_move : (m.move plan leg t next cause).payouts =
    m.payouts ++ [⟨plan, leg, t.payee next, t.asset, t.amount, cause⟩] := rfl

end

end Machine

variable [SchemeHash]

def Cause.Allows (plan : Word) (t : Terms Account Asset) (next : LegState) : Cause → Prop
  | .proven root decision proof => settleLeg .locked root plan decision proof = .ok next
  | .escaped now => escapeLeg .locked now t.escapeAt = .ok next

inductive Reach : Machine Account Asset → Prop where
  | empty : Reach .empty
  | lock {m : Machine Account Asset} {plan leg : Word} {t : Terms Account Asset} (before : Reach m)
    (index : UInt8) (own : leg = legId plan index) (absent : m.legs leg = none) :
    Reach (m.lock plan leg t)
  | move {m : Machine Account Asset} {plan leg : Word} {t : Terms Account Asset} {next : LegState}
    {cause : Cause} (before : Reach m) (index : UInt8) (own : leg = legId plan index)
    (held : m.legs leg = some ⟨t, .locked⟩) (allowed : cause.Allows plan t next) :
    Reach (m.move plan leg t next cause)

/-! ### What the machine keeps -/

def path : Option (Leg Account Asset) → List (UInt8 × ℕ)
  | none => []
  | some ⟨t, .locked⟩ => [(reconLocked, t.amount)]
  | some ⟨t, .released⟩ => [(reconLocked, t.amount), (reconReleased, t.amount)]
  | some ⟨t, .refunded⟩ => [(reconLocked, t.amount), (reconRefunded, t.amount)]

def Payout.Due (p : Payout Account Asset) (leg : Leg Account Asset) : Prop :=
  leg.state ≠ .locked ∧ p.dest = leg.terms.payee leg.state ∧ p.asset = leg.terms.asset ∧
    p.amount = leg.terms.amount ∧ (∃ index, p.leg = legId p.plan index) ∧
      p.cause.Allows p.plan leg.terms leg.state

def PaidAs (paid : List (Payout Account Asset)) : Option (Leg Account Asset) → Prop
  | none => paid = []
  | some leg => if leg.state = .locked then paid = [] else ∃ p, paid = [p] ∧ p.Due leg

structure Legit (m : Machine Account Asset) : Prop where
  path : ∀ leg, (m.entries.filter fun e => e.leg = leg).map (fun e => (e.kind, e.amount)) =
    path (m.legs leg)
  paid : ∀ leg, PaidAs (m.payouts.filter fun p => p.leg = leg) (m.legs leg)

omit [SchemeHash] in
theorem filter_own {α : Type} {p : α → Bool} {a : α} (l : List α) (own : p a = true) :
    (l ++ [a]).filter p = l.filter p ++ [a] := by
  rw [filter_append, filter_cons_of_pos own, filter_nil]

omit [SchemeHash] in
theorem filter_other {α : Type} {p : α → Bool} {a : α} (l : List α) (other : ¬ p a = true) :
    (l ++ [a]).filter p = l.filter p := by
  rw [filter_append, filter_cons_of_neg other, filter_nil, append_nil]

omit [SchemeHash] in
theorem mapError_ok {ε δ α : Type} {f : ε → δ} {x : Except ε α} {a : α} :
    x.mapError f = .ok a ↔ x = .ok a := by
  cases x with
  | error e => exact iff_of_false nofun nofun
  | ok b => exact Iff.rfl.trans ⟨fun same => by cases same; rfl, fun same => by cases same; rfl⟩

theorem settleLeg_ok {root plan : Word} {decision proof : Bytes} {state next : LegState}
    (ran : settleLeg state root plan decision proof = .ok next) :
    state = .locked ∧ next ≠ .locked := by
  unfold settleLeg at ran
  split_ifs at ran with locked
  rw [not_not] at locked
  refine ⟨locked, ?_⟩
  cases outcome : provenOutcome root plan decision proof with
  | none =>
    simp only [outcome] at ran
    cases ran
  | some o =>
    cases o with
    | commit =>
      simp only [outcome] at ran
      cases ran
      exact fun same => nomatch same
    | abort =>
      simp only [outcome] at ran
      cases ran
      exact fun same => nomatch same

omit [SchemeHash] in
theorem escapeLeg_ok {state next : LegState} {now escapeAt : ℕ} :
    escapeLeg state now escapeAt = .ok next ↔
      state = .locked ∧ escapeAt ≤ now ∧ next = .refunded := by
  unfold escapeLeg
  split_ifs with other early
  · exact iff_of_false nofun fun both => other both.1
  · exact iff_of_false nofun fun both => absurd both.2.1 (not_le.2 early)
  · rw [not_not] at other
    constructor
    · intro ran
      cases ran
      exact ⟨other, not_lt.1 early, rfl⟩
    · rintro ⟨-, -, rfl⟩
      rfl

theorem Cause.Allows.moves {plan : Word} {t : Terms Account Asset} {next : LegState} {cause : Cause}
    (allowed : cause.Allows plan t next) : next ≠ .locked := by
  cases cause with
  | proven root decision proof => exact (settleLeg_ok allowed).2
  | escaped now =>
    obtain ⟨-, -, rfl⟩ := escapeLeg_ok.1 allowed
    exact fun same => nomatch same

theorem Reach.legit {m : Machine Account Asset} (reach : Reach m) : Legit m := by
  induction reach with
  | empty => exact ⟨fun _ => rfl, fun _ => rfl⟩
  | @lock m plan leg t before index own absent ih =>
    refine ⟨fun leg' => ?_, fun leg' => ?_⟩
    · rw [Machine.entries_lock, Machine.legs_lock]
      by_cases same : leg' = leg
      · subst same
        rw [filter_own m.entries (decide_eq_true rfl), map_append, ih.path, absent,
          update_self]
        rfl
      · rw [filter_other m.entries (by simpa using Ne.symm same), update_of_ne same]
        exact ih.path leg'
    · rw [Machine.payouts_lock, Machine.legs_lock]
      by_cases same : leg' = leg
      · subst same
        have paid := ih.paid leg'
        rw [absent] at paid
        rw [update_self]
        exact paid
      · rw [update_of_ne same]
        exact ih.paid leg'
  | @move m plan leg t next cause before index own held allowed ih =>
    have moves := allowed.moves
    refine ⟨fun leg' => ?_, fun leg' => ?_⟩
    · rw [Machine.entries_move, Machine.legs_move]
      by_cases same : leg' = leg
      · subst same
        rw [filter_own m.entries (decide_eq_true rfl), map_append, ih.path, held,
          update_self]
        cases next with
        | locked => exact absurd rfl moves
        | released => rfl
        | refunded => rfl
      · rw [filter_other m.entries (by simpa using Ne.symm same), update_of_ne same]
        exact ih.path leg'
    · rw [Machine.payouts_move, Machine.legs_move]
      by_cases same : leg' = leg
      · subst same
        have paid := ih.paid leg'
        rw [held] at paid
        have nothing : m.payouts.filter (fun p => p.leg = leg') = [] := paid
        rw [filter_own m.payouts (decide_eq_true rfl), nothing, update_self]
        change if next = .locked then _ else _
        rw [if_neg moves]
        exact ⟨_, rfl, moves, rfl, rfl, rfl, ⟨index, own⟩, allowed⟩
      · rw [filter_other m.payouts (by simpa using Ne.symm same), update_of_ne same]
        exact ih.paid leg'

end

/-! ### What is held for the locked legs -/

section
variable {Account Asset : Type} [DecidableEq Asset] {m : Machine Account Asset} {held : Asset → ℕ}

def lockedIn (asset : Asset) : Option (Leg Account Asset) → ℕ
  | some ⟨t, .locked⟩ => if t.asset = asset then t.amount else 0
  | _ => 0

def Covered (legs : Word → Option (Leg Account Asset)) (held : Asset → ℕ) : Prop :=
  ∀ asset, ∃ n, SumsTo (fun leg => lockedIn asset (legs leg)) n ∧ n ≤ held asset

theorem Covered.mono {legs : Word → Option (Leg Account Asset)} (covered : Covered legs held)
    {held' : Asset → ℕ} (le : ∀ asset, held asset ≤ held' asset) : Covered legs held' :=
  fun asset => (covered asset).imp fun _ both => ⟨both.1, both.2.trans (le asset)⟩

theorem lockedIn_update {legs : Word → Option (Leg Account Asset)} {leg : Word}
    {l : Option (Leg Account Asset)} {asset : Asset} :
    (fun leg' => lockedIn asset (update legs leg l leg')) =
      update (fun leg' => lockedIn asset (legs leg')) leg (lockedIn asset l) := by
  funext leg'
  by_cases same : leg' = leg
  · subst same
    rw [update_self, update_self]
  · rw [update_of_ne same, update_of_ne same]

theorem Covered.lock {legs : Word → Option (Leg Account Asset)} (covered : Covered legs held)
    {leg : Word} {t : Terms Account Asset} (absent : legs leg = none) {held' : Asset → ℕ}
    (entered : ∀ asset, held asset + (if t.asset = asset then t.amount else 0) ≤ held' asset) :
    Covered (update legs leg (some ⟨t, .locked⟩)) held' := by
  intro asset
  obtain ⟨n, sums, le⟩ := covered asset
  refine ⟨n + if t.asset = asset then t.amount else 0, ?_,
    (Nat.add_le_add_right le _).trans (entered asset)⟩
  rw [lockedIn_update]
  refine sums.update ?_
  rw [absent]
  rfl

theorem Covered.move {legs : Word → Option (Leg Account Asset)} (covered : Covered legs held)
    {leg : Word} {t : Terms Account Asset} {next : LegState} (moves : next ≠ .locked)
    (locked : legs leg = some ⟨t, .locked⟩) {held' : Asset → ℕ}
    (left : ∀ asset, held asset ≤ held' asset + if t.asset = asset then t.amount else 0) :
    Covered (update legs leg (some ⟨t, next⟩)) held' := by
  intro asset
  obtain ⟨n, sums, le⟩ := covered asset
  have part := sums.le leg
  have whole := left asset
  simp only [locked] at part
  change (if t.asset = asset then t.amount else 0) ≤ n at part
  refine ⟨n - if t.asset = asset then t.amount else 0, ?_, by omega⟩
  rw [lockedIn_update]
  refine sums.update ?_
  have freed : lockedIn asset (some (⟨t, next⟩ : Leg Account Asset)) = 0 := by
    cases next with
    | locked => exact absurd rfl moves
    | released => rfl
    | refunded => rfl
  rw [freed, locked]
  change n - _ + (if t.asset = asset then t.amount else 0) = n + 0
  omega

end

/-! ### The running hash -/

section
variable [SchemeHash] {entries : List Entry} {e : Entry}

/-- The running hash over the entries, in order, from zero. -/
def accumulate (entries : List Entry) : Word :=
  entries.foldl (fun acc e => reconStep acc e.plan e.leg e.kind e.amount) empty

theorem accumulate_append : accumulate (entries ++ [e]) =
    reconStep (accumulate entries) e.plan e.leg e.kind e.amount := foldl_append ..

/-- What a lock contract should show: its entries follow the legs, each leg pays at most once and by
its terms, and the hash and the count are those of the entries. -/
structure LockSound {Account Asset : Type} (legs : Word → Option (Leg Account Asset))
    (entries : List Entry) (paid : List (Payout Account Asset)) (acc : Word) (count : ℕ) : Prop where
  path : ∀ leg, (entries.filter fun e => e.leg = leg).map (fun e => (e.kind, e.amount)) =
    path (legs leg)
  once : ∀ leg, (paid.filter fun p => p.leg = leg).length ≤ 1
  due : ∀ p ∈ paid, ∃ leg, legs p.leg = some leg ∧ p.Due leg
  acc : acc = accumulate entries
  count : count = entries.length

theorem Legit.paid_moved {Account Asset : Type} {m : Machine Account Asset} (legit : Legit m)
    {id : Word} {leg : Leg Account Asset} (held : m.legs id = some leg)
    (moved : leg.state ≠ .locked) : ∃ p ∈ m.payouts, p.leg = id := by
  have shape := legit.paid id
  rw [held] at shape
  change if leg.state = .locked then _ else _ at shape
  rw [if_neg moved] at shape
  obtain ⟨p, one, -⟩ := shape
  have listed : p ∈ m.payouts.filter (fun p => p.leg = id) := one ▸ mem_singleton_self p
  obtain ⟨mem, own⟩ := mem_filter.1 listed
  exact ⟨p, mem, of_decide_eq_true own⟩

theorem Legit.sound {Account Asset : Type} {m : Machine Account Asset} (legit : Legit m)
    {paid owed : List (Payout Account Asset)} (perm : (paid ++ owed).Perm m.payouts) :
    LockSound m.legs m.entries paid (accumulate m.entries) m.entries.length where
  path := legit.path
  once leg := by
    have same := (perm.filter fun p => p.leg = leg).length_eq
    have most : (m.payouts.filter fun p => p.leg = leg).length ≤ 1 := by
      have shape := legit.paid leg
      cases held : m.legs leg with
      | none =>
        rw [held] at shape
        rw [show m.payouts.filter (fun p => p.leg = leg) = [] from shape]
        exact Nat.zero_le _
      | some l =>
        rw [held] at shape
        change if l.state = .locked then _ else _ at shape
        split_ifs at shape
        · rw [shape]
          exact Nat.zero_le _
        · obtain ⟨p, one, -⟩ := shape
          rw [one]
          exact le_rfl
    rw [filter_append, length_append] at same
    omega
  due p mem := by
    have listed : p ∈ m.payouts.filter fun q => q.leg = p.leg :=
      mem_filter.2 ⟨perm.mem_iff.1 (mem_append_left _ mem), decide_eq_true rfl⟩
    have shape := legit.paid p.leg
    cases held : m.legs p.leg with
    | none =>
      rw [held] at shape
      rw [show m.payouts.filter (fun q => q.leg = p.leg) = [] from shape] at listed
      exact absurd listed (not_mem_nil)
    | some l =>
      rw [held] at shape
      change if l.state = .locked then _ else _ at shape
      split_ifs at shape
      · rw [shape] at listed
        exact absurd listed (not_mem_nil)
      · obtain ⟨q, one, due⟩ := shape
        rw [one] at listed
        obtain rfl := mem_singleton.1 listed
        exact ⟨l, rfl, due⟩
  acc := rfl
  count := rfl

end

@[reducible] def residueDigest : SchemeHash :=
  ⟨fun _ b => ⟨beBytes 32 (ofBeBytes b % (2 ^ 255 - 19)), length_beBytes 32 _⟩⟩

end Tenzro.Settlement
