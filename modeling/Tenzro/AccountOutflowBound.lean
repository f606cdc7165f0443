import Tenzro.AccountOutflow
import Tenzro.Outcome

set_option autoImplicit false

/-!
# What a stolen owner key can drain

Within a span shorter than the window and the hold of the policy in force at its start,
as long as no change taken as a tightening raises the cap, shortens the window or passes
the signed range of the block time.
-/
namespace Tenzro.AccountOutflow
open FixedWidth Function

/-- A span of block times and the policy in force at its start. -/
structure Limits where
  start : ℤ
  finish : ℤ
  cap : ℕ
  windowMs : ℕ
  holdMs : ℕ

/-- A hold that the code's signed times can add to a block time of the span. -/
def Limits.Fits (l : Limits) (holdMs : ℕ) : Prop :=
  (holdMs : ℤ) < 2 ^ 63 ∧ l.finish + holdMs < 2 ^ 63

/-- The span is shorter than the window and the hold. -/
structure Limits.Short (l : Limits) : Prop where
  window : l.finish - l.start < l.windowMs
  hold : l.finish - l.start < l.holdMs
  earliest : -2 ^ 63 ≤ l.start
  ordered : l.start ≤ l.finish

/-- The cap, the window and the hold survive the code's saturation and its casts. -/
structure Limits.InRange (l : Limits) : Prop extends l.Short where
  capFits : l.cap < maxValue 128
  windowFits : l.windowMs < 2 ^ 63
  holdFits : l.Fits l.holdMs

/-- A policy that limits the account through the span as much as the first one. -/
structure Bounded (l : Limits) (p : Policy) : Prop where
  cap : p.cap ≤ l.cap
  window : l.windowMs ≤ p.windowMs
  windowFits : p.windowMs < 2 ^ 63
  hold : l.holdMs ≤ p.holdMs
  holdFits : l.Fits p.holdMs
  pending : ∀ q, p.pending = some q → l.finish < q.effectiveMs

def Counted (l : Limits) (spent : ℕ) (now : ℤ) (w : Option Window) : Prop :=
  (spent ≤ (w.elim 0 Window.spent) ∧ spent ≤ l.cap) ∨
    ∃ w', w = some w' ∧ l.start ≤ w'.start ∧ w'.start ≤ now ∧ w'.spent ≤ l.cap ∧
      spent ≤ l.cap + w'.spent

/-- What holds of an account through the span, after `spent` was admitted and the releases
`ids` were requested. -/
structure Held (l : Limits) (a : AccountBytes) (ids : List ℕ) (spent : ℕ) (now : ℤ)
    (s : State) : Prop where
  policy : ∀ time, l.start ≤ time → time ≤ l.finish →
    ∃ p, policyInForce s a time = some p ∧ Bounded l p
  locked : ∀ id ∈ ids, ∀ rel, s.releases a id = some rel → l.finish < rel.unlockMs
  counted : Counted l spent now (s.windows a)

def Transaction.keyAlone : Transaction → Prop
  | .outflow _ op => op.approval = none
  | .ordinary .. => True

def Contained (l : Limits) (a : AccountBytes) (s : State) (x : ℤ × Transaction) : Prop :=
  match x.2 with
  | .outflow _ (.set account windowMs cap holdMs guardian) =>
    account = a → ∀ cur, policyInForce s a x.1 = some cur →
      looser cur ⟨windowMs, cap, holdMs, guardian, none⟩ = false →
        cap ≤ l.cap ∧ l.windowMs ≤ windowMs ∧ windowMs < 2 ^ 63 ∧ l.Fits holdMs
  | _ => True

def ContainedRun [RootApproval] (l : Limits) (a : AccountBytes) :
    State → List (ℤ × Transaction) → Prop
  | _, [] => True
  | s, x :: rest => Contained l a s x ∧ ContainedRun l a (step s x).1 rest

section
variable {s s' : State} {owner : Bool} {sender account a : AccountBytes} {now : ℤ} {p : Policy}

@[simp] theorem setPolicy_policies : (s.setPolicy account p).policies =
    update s.policies account (some p) := rfl

theorem policyInForce_congr {t : State} (h : t.policies a = s.policies a) (time : ℤ) :
    policyInForce t a time = policyInForce s a time := by
  simp only [policyInForce, h]

theorem policyInForce_setPolicy_self {time : ℤ}
    (later : ∀ q, p.pending = some q → time < q.effectiveMs) :
    policyInForce (s.setPolicy account p) account time = some p := by
  simp only [policyInForce, setPolicy_policies, update_self]
  cases queued : p.pending with
  | none => rfl
  | some q => simp [not_le.2 (later q queued)]

theorem looser_hold {cur new : Policy} (h : looser cur new = false) : cur.holdMs ≤ new.holdMs := by
  unfold looser at h
  simp only [Bool.or_eq_false_iff, decide_eq_false_iff_not] at h
  omega

theorem after_eq {ms : ℕ} {l : Limits} (h : l.InRange) (low : l.start ≤ now) (high : now ≤ l.finish)
    (fits : l.Fits ms) : after now ms = now + ms := by
  obtain ⟨small, sum⟩ := fits
  have first := h.earliest
  have cast : wrapSigned 64 ms = ms := wrapSigned_64 (by omega) small
  unfold after
  rw [cast, wrapSigned_64 (by omega) (by omega)]

/-! ### What each operation does without an approval -/

theorem applySet_ok {w c h : ℕ} {g : Option String}
    (ok : applySet s owner account w c h g now = .ok s') :
    ∃ p, s' = s.setPolicy account p ∧
      ((policyInForce s account now = none ∧ p = ⟨w, c, h, g, none⟩) ∨
        ∃ cur, policyInForce s account now = some cur ∧
          ((looser cur ⟨w, c, h, g, none⟩ = true ∧ p = { cur with
              pending := some ⟨w, c, h, g, false, after now cur.holdMs⟩ }) ∨
            looser cur ⟨w, c, h, g, none⟩ = false ∧ p = ⟨w, c, h, g, none⟩)) := by
  unfold applySet refuse at ok
  split_ifs at ok
  cases force : policyInForce s account now with
  | none =>
    simp only [force] at ok
    cases ok
    exact ⟨_, rfl, .inl ⟨rfl, rfl⟩⟩
  | some cur =>
    simp only [force] at ok
    split_ifs at ok with loose
    · cases ok
      exact ⟨_, rfl, .inr ⟨cur, rfl, .inl ⟨loose, rfl⟩⟩⟩
    · cases ok
      exact ⟨_, rfl, .inr ⟨cur, rfl, .inr ⟨by simpa using loose, rfl⟩⟩⟩

theorem applyRemove_ok (ok : applyRemove s owner account now = .ok s') :
    ∃ cur q, policyInForce s account now = some cur ∧ q.effectiveMs = after now cur.holdMs ∧
      s' = s.setPolicy account { cur with pending := some q } := by
  unfold applyRemove refuse at ok
  split_ifs at ok
  cases force : policyInForce s account now with
  | none => simp only [force] at ok; cases ok
  | some cur =>
    simp only [force] at ok
    cases ok
    exact ⟨cur, _, rfl, rfl, rfl⟩

theorem applyCancelPending_ok [RootApproval]
    (ok : applyCancelPending s owner account none now = .ok s') :
    ∃ cur, policyInForce s account now = some cur ∧
      s' = s.setPolicy account { cur with pending := none } := by
  unfold applyCancelPending verifyGuardian refuse at ok
  cases force : policyInForce s account now with
  | none => simp only [force] at ok; cases ok
  | some cur =>
    simp only [force] at ok
    cases guarded : cur.guardian with
    | some g => simp only [guarded] at ok; cases ok
    | none =>
      simp only [guarded] at ok
      refine ⟨cur, rfl, ?_⟩
      cases owner with
      | false => cases ok
      | true =>
        simp only [if_true, pure_bind] at ok
        split_ifs at ok
        cases ok
        rw [guarded]

theorem applyRequestRelease_ok {recipient : AccountBytes} {amount : ℕ}
    (ok : applyRequestRelease s owner account recipient amount now = .ok s') :
    ∃ cur m, policyInForce s account now = some cur ∧
      s' = (s.setRelease account ((s.metas account).getD {}).next
        (some ⟨recipient, amount, after now cur.holdMs⟩)).setMeta account m := by
  unfold applyRequestRelease refuse at ok
  cases force : policyInForce s account now with
  | none => simp only [force] at ok; split_ifs at ok
  | some cur =>
    simp only [force] at ok
    split_ifs at ok
    cases ok
    exact ⟨cur, _, rfl, rfl⟩

theorem authorizeRelease_ok [RootApproval] {claim : Bool} {id : ℕ} {rel : Release}
    (ok : authorizeRelease s sender account claim id rel none now = .ok s') :
    s' = s ∧ (claim = true → rel.unlockMs ≤ now) := by
  unfold authorizeRelease verifyGuardian refuse at ok
  cases guarded : (policyInForce s account now).bind Policy.guardian with
  | some g =>
    simp only [guarded] at ok
    split_ifs at ok with late
    cases ok
    exact ⟨rfl, fun _ => late.2.2.2⟩
  | none =>
    simp only [guarded] at ok
    split_ifs at ok with other early
    cases ok
    exact ⟨rfl, fun claimed => not_lt.1 fun lt => early ⟨claimed, lt⟩⟩

theorem closeRelease_records (s : State) (account : AccountBytes) (id : ℕ) :
    (closeRelease s account id).policies = s.policies ∧
      (closeRelease s account id).windows = s.windows ∧
      (closeRelease s account id).releases = (s.setRelease account id none).releases := by
  simp only [closeRelease]
  split <;> exact ⟨rfl, rfl, rfl⟩

theorem payRelease_records {rel : Release} (ok : payRelease s account rel = .ok s') :
    s'.policies = s.policies ∧ s'.windows = s.windows ∧ s'.releases = s.releases := by
  unfold payRelease refuse at ok
  obtain ⟨-, paid⟩ := Outcome.ite_ok.1 ok
  cases paid
  exact ⟨rfl, rfl, rfl⟩

theorem applyRelease_ok [RootApproval] {claim : Bool} {id : ℕ}
    (ok : applyRelease s sender account claim id none now = .ok s') :
    s'.policies = s.policies ∧ s'.windows = s.windows ∧
      s'.releases = (s.setRelease account id none).releases ∧
      ∃ rel, s.releases account id = some rel ∧ (claim = true → rel.unlockMs ≤ now) := by
  unfold applyRelease at ok
  cases found : s.releases account id with
  | none => simp only [found, refuse] at ok; cases ok
  | some rel =>
    simp only [found, Outcome.bind_ok, Outcome.pure_ok] at ok
    obtain ⟨s₁, authorized, s₂, paid, rfl⟩ := ok
    obtain ⟨rfl, unlocked⟩ := authorizeRelease_ok authorized
    have same : s₂.policies = s₁.policies ∧ s₂.windows = s₁.windows ∧
        s₂.releases = s₁.releases := by
      split_ifs at paid
      · exact payRelease_records paid
      · cases paid
        exact ⟨rfl, rfl, rfl⟩
    obtain ⟨hp, hw, hr⟩ := closeRelease_records s₂ account id
    refine ⟨hp.trans same.1, hw.trans same.2.1, ?_, rel, rfl, unlocked⟩
    rw [hr]
    simp only [State.setRelease, same.2.2]

end

/-! ### One step -/

section
variable {l : Limits} {s s' : State} {a account sender : AccountBytes} {ids : List ℕ} {spent : ℕ}
  {now : ℤ} {p : Policy}

theorem Held.later (h : Held l a ids spent now s) {time : ℤ} (le : now ≤ time) :
    Held l a ids spent time s := by
  refine ⟨h.policy, h.locked, ?_⟩
  rcases h.counted with old | ⟨w, hw, from_start, to_now, cap, total⟩
  · exact .inl old
  · exact .inr ⟨w, hw, from_start, to_now.trans le, cap, total⟩

theorem Held.spent_le (h : Held l a ids spent now s) : spent ≤ 2 * l.cap := by
  rcases h.counted with ⟨-, old⟩ | ⟨w, -, -, -, cap, total⟩ <;> omega

theorem Held.congr (h : Held l a ids spent now s) (policies : s'.policies a = s.policies a)
    (windows : s'.windows a = s.windows a)
    (releases : ∀ id ∈ ids, ∀ rel, s'.releases a id = some rel → s.releases a id = some rel) :
    Held l a ids spent now s' := by
  refine ⟨fun time low high => ?_, fun id mem rel found => ?_, ?_⟩
  · rw [policyInForce_congr policies]
    exact h.policy time low high
  · exact h.locked id mem rel (releases id mem rel found)
  · rw [windows]
    exact h.counted

theorem Held.setPolicy (h : Held l a ids spent now s) (bounded : account = a → Bounded l p) :
    Held l a ids spent now (s.setPolicy account p) := by
  by_cases own : account = a
  · subst own
    refine ⟨fun time _ high => ⟨p, ?_, bounded rfl⟩, h.locked, h.counted⟩
    exact policyInForce_setPolicy_self fun q queued =>
      high.trans_lt ((bounded rfl).pending q queued)
  · exact h.congr (update_of_ne (Ne.symm own) _ _) rfl fun _ _ _ => id

theorem Bounded.after_late (b : Bounded l p) (short : l.InRange) (low : l.start ≤ now)
    (high : now ≤ l.finish) : l.finish < after now p.holdMs := by
  have hold := short.hold
  have longer := b.hold
  rw [after_eq short low high b.holdFits]
  omega

theorem Held.applySet (h : Held l a ids spent now s) (short : l.InRange) (low : l.start ≤ now)
    (high : now ≤ l.finish) {owner : Bool} {w c hold : ℕ} {g : Option String}
    (contained : Contained l a s (now, .outflow sender (.set account w c hold g)))
    (ok : AccountOutflow.applySet s owner account w c hold g now = .ok s') :
    Held l a ids spent now s' := by
  obtain ⟨p, rfl, which⟩ := applySet_ok ok
  refine h.setPolicy fun own => ?_
  subst own
  obtain ⟨cur, force, bounded⟩ := h.policy now low high
  rcases which with ⟨free, -⟩ | ⟨cur', force', which⟩
  · simp [force] at free
  · cases force.symm.trans force'
    rcases which with ⟨-, rfl⟩ | ⟨tighter, rfl⟩
    · refine ⟨bounded.cap, bounded.window, bounded.windowFits, bounded.hold, bounded.holdFits, ?_⟩
      rintro q ⟨⟩
      exact bounded.after_late short low high
    · obtain ⟨cap, window, fits, holdFits⟩ := contained rfl cur force tighter
      exact ⟨cap, window, fits, bounded.hold.trans (looser_hold tighter), holdFits, by simp⟩

theorem Held.applyRemove (h : Held l a ids spent now s) (short : l.InRange) (low : l.start ≤ now)
    (high : now ≤ l.finish) {owner : Bool}
    (ok : AccountOutflow.applyRemove s owner account now = .ok s') :
    Held l a ids spent now s' := by
  obtain ⟨cur, q, force, effective, rfl⟩ := applyRemove_ok ok
  refine h.setPolicy fun own => ?_
  subst own
  obtain ⟨cur', force', bounded⟩ := h.policy now low high
  cases force.symm.trans force'
  refine ⟨bounded.cap, bounded.window, bounded.windowFits, bounded.hold, bounded.holdFits, ?_⟩
  rintro _ ⟨⟩
  rw [effective]
  exact bounded.after_late short low high

theorem Held.applyCancelPending [RootApproval] (h : Held l a ids spent now s)
    (low : l.start ≤ now) (high : now ≤ l.finish) {owner : Bool}
    (ok : AccountOutflow.applyCancelPending s owner account none now = .ok s') :
    Held l a ids spent now s' := by
  obtain ⟨cur, force, rfl⟩ := applyCancelPending_ok ok
  refine h.setPolicy fun own => ?_
  subst own
  obtain ⟨cur', force', bounded⟩ := h.policy now low high
  cases force.symm.trans force'
  exact ⟨bounded.cap, bounded.window, bounded.windowFits, bounded.hold, bounded.holdFits, by simp⟩

theorem setRelease_releases_self {id j : ℕ} {r : Option Release} :
    (s.setRelease a id r).releases a j = if j = id then r else s.releases a j := by
  simp [State.setRelease, update_apply]

theorem setRelease_releases_of_ne {id : ℕ} {r : Option Release} (other : account ≠ a) :
    (s.setRelease account id r).releases a = s.releases a := by
  simp [State.setRelease, update_of_ne (Ne.symm other)]

theorem Held.applyRequestRelease (h : Held l a ids spent now s) (short : l.InRange)
    (low : l.start ≤ now) (high : now ≤ l.finish) {owner : Bool} {recipient : AccountBytes}
    {amount : ℕ} (ok : AccountOutflow.applyRequestRelease s owner account recipient amount now = .ok s') :
    Held l a (if account = a then ((s.metas account).getD {}).next :: ids else ids) spent now s' := by
  obtain ⟨cur, m, force, rfl⟩ := applyRequestRelease_ok ok
  by_cases own : account = a
  · subst own
    obtain ⟨cur', force', bounded⟩ := h.policy now low high
    cases force.symm.trans force'
    refine ⟨h.policy, fun id mem rel found => ?_, h.counted⟩
    change (s.setRelease account _ _).releases account id = some rel at found
    rw [setRelease_releases_self] at found
    split_ifs at found with this_one
    · cases found
      exact bounded.after_late short low high
    · simp only [if_true, List.mem_cons, this_one, false_or] at mem
      exact h.locked id mem rel found
  · simp only [own, if_false]
    refine h.congr rfl rfl fun id _ rel found => ?_
    change (s.setRelease account _ _).releases a id = some rel at found
    rwa [setRelease_releases_of_ne own] at found

theorem Held.applyRelease [RootApproval] (h : Held l a ids spent now s) {claim : Bool} {id : ℕ}
    (ok : AccountOutflow.applyRelease s sender account claim id none now = .ok s') :
    Held l a ids spent now s' := by
  obtain ⟨policies, windows, releases, -⟩ := applyRelease_ok ok
  refine h.congr (by rw [policies]) (by rw [windows]) fun j _ rel found => ?_
  rw [releases] at found
  by_cases own : account = a
  · subst own
    rw [setRelease_releases_self] at found
    split_ifs at found
    exact found
  · rwa [setRelease_releases_of_ne own] at found

/-- A charge that goes through is counted in the window, and the window is opened afresh at
most once in the span. -/
theorem Counted.charge {w : Option Window} {amount : ℕ} (h : Counted l spent now w) (short : l.InRange)
    (low : l.start ≤ now) (high : now ≤ l.finish) (bounded : Bounded l p)
    (fits : saturatingAdd 128 (windowAt w p now).spent amount ≤ p.cap) :
    Counted l (spent + amount) now
      (some ⟨(windowAt w p now).start, saturatingAdd 128 (windowAt w p now).spent amount⟩) := by
  have total := saturatingAdd_eq short.capFits (fits.trans bounded.cap)
  have small := fits.trans bounded.cap
  rw [total] at small ⊢
  clear total
  have longer := bounded.window
  have length := short.window
  have windowMs : wrapSigned 64 p.windowMs = p.windowMs :=
    wrapSigned_64 (by omega) (by exact_mod_cast bounded.windowFits)
  unfold windowAt at small ⊢
  rcases h with ⟨recorded, old⟩ | ⟨w', rfl, from_start, to_now, cap, total⟩
  · cases w with
    | none =>
      left
      simp only [Option.elim, Nat.le_zero] at recorded
      simp only [Option.getD_none] at small ⊢
      split_ifs at small ⊢ <;> simp only [Option.elim] <;> omega
    | some w =>
      simp only [Option.elim] at recorded
      simp only [Option.getD_some] at small ⊢
      split_ifs at small ⊢ with fresh
      · right
        exact ⟨_, rfl, low, le_refl _, by simpa using small, by simp only; omega⟩
      · left
        simp only [Option.elim]
        omega
  · have elapsed : wrapSigned 64 (now - w'.start) = now - w'.start := by
      have := bounded.windowFits
      exact wrapSigned_64 (by omega) (by omega)
    have running : ¬ (now < w'.start ∨
        wrapSigned 64 p.windowMs ≤ wrapSigned 64 (now - w'.start)) := by
      rw [windowMs, elapsed]
      omega
    simp only [Option.getD_some, running, if_false] at small ⊢
    exact .inr ⟨_, rfl, from_start, to_now, small, by simp only; omega⟩

theorem Held.chargeOutflow (h : Held l a ids spent now s) (short : l.InRange) (low : l.start ≤ now)
    (high : now ≤ l.finish) {amount : ℕ}
    (ok : AccountOutflow.chargeOutflow s account amount now = .ok s') :
    Held l a ids (spent + if account = a then amount else 0) now s' := by
  unfold AccountOutflow.chargeOutflow at ok
  by_cases own : account = a
  · subst own
    obtain ⟨p, force, bounded⟩ := h.policy now low high
    simp only [force] at ok
    obtain ⟨fits, done⟩ := Outcome.ite_ok.1 ok
    cases done
    refine ⟨h.policy, h.locked, ?_⟩
    simp only [if_true, update_self]
    exact h.counted.charge short low high bounded (not_lt.1 fits)
  · simp only [own, if_false, Nat.add_zero]
    cases force : policyInForce s account now with
    | none =>
      simp only [force] at ok
      cases ok
      exact h
    | some p =>
      simp only [force] at ok
      obtain ⟨-, done⟩ := Outcome.ite_ok.1 ok
      cases done
      exact h.congr rfl (update_of_ne (Ne.symm own) _ _) fun _ _ _ => id

/-! ### Whole runs -/

def requestedAfter (a : AccountBytes) : List ℕ → List Effect → List ℕ
  | ids, [] => ids
  | ids, .requested who id :: rest => requestedAfter a (if who = a then id :: ids else ids) rest
  | ids, .admitted .. :: rest => requestedAfter a ids rest
  | ids, .claimed .. :: rest => requestedAfter a ids rest

theorem drained_append (a : AccountBytes) (ids : List ℕ) (x y : List Effect) :
    drained a ids (x ++ y) = drained a ids x + drained a (requestedAfter a ids x) y := by
  induction x generalizing ids with
  | nil => simp [drained, requestedAfter]
  | cons e x ih => cases e <;> simp only [List.cons_append, drained, requestedAfter, ih] <;> omega

theorem Held.chargeWatched (short : l.InRange) (low : l.start ≤ now) (high : now ≤ l.finish)
    {who : List (AccountBytes × ℕ)} {effects : List Effect} (h : Held l a ids spent now s)
    (ok : AccountOutflow.chargeWatched now who s = .ok (s', effects)) :
    Held l a (requestedAfter a ids effects) (spent + drained a ids effects) now s' := by
  induction who generalizing s spent effects with
  | nil =>
    cases ok
    exact h
  | cons w who ih =>
    unfold AccountOutflow.chargeWatched at ok
    split_ifs at ok with lost
    · simp only [Outcome.bind_ok, Outcome.pure_ok] at ok
      obtain ⟨charged, admitted, ⟨s₁, later⟩, rest, same⟩ := ok
      cases same
      have held := ih (h.chargeOutflow short low high admitted) rest
      simpa only [drained, requestedAfter, Nat.add_assoc] using held
    · exact ih h ok

theorem Held.apply [RootApproval] (h : Held l a ids spent now s) (short : l.InRange)
    (low : l.start ≤ now) (high : now ≤ l.finish) {op : Op} (keyAlone : op.approval = none)
    (contained : Contained l a s (now, .outflow sender op))
    (ok : AccountOutflow.apply s sender op now = .ok s') :
    Held l a (requestedAfter a ids (op.effects s)) (spent + drained a ids (op.effects s)) now s' := by
  cases op with
  | set account windowMs cap holdMs guardian =>
    exact h.applySet (s := s) short low high contained ok
  | remove account => exact h.applyRemove short low high ok
  | cancelPending account approval =>
    cases keyAlone
    exact h.applyCancelPending low high ok
  | requestRelease account recipient amount => exact h.applyRequestRelease short low high ok
  | cancelRelease account id approval =>
    cases keyAlone
    exact h.applyRelease ok
  | claimRelease account id approval =>
    cases keyAlone
    obtain ⟨-, -, -, rel, found, unlocked⟩ := applyRelease_ok ok
    -- a release requested in the span is still locked, so this one was requested before it
    have before : ¬ (account = a ∧ id ∈ ids) := by
      rintro ⟨rfl, mem⟩
      have locked := h.locked id mem rel found
      have late := unlocked rfl
      omega
    simpa [Op.effects, found, drained, requestedAfter, before] using h.applyRelease ok

theorem Held.step [RootApproval] {x : ℤ × Transaction} (h : Held l a ids spent x.1 s)
    (short : l.InRange) (low : l.start ≤ x.1) (high : x.1 ≤ l.finish) (keyAlone : x.2.keyAlone)
    (contained : Contained l a s x) :
    Held l a (requestedAfter a ids (AccountOutflow.step s x).2)
      (spent + drained a ids (AccountOutflow.step s x).2) x.1 (AccountOutflow.step s x).1 := by
  unfold AccountOutflow.step
  cases done : execute s x.2 x.1 with
  | error e => exact h
  | ok r =>
    obtain ⟨now, tx⟩ := x
    cases tx with
    | outflow sender op =>
      simp only [execute, Outcome.bind_ok, Outcome.pure_ok] at done
      obtain ⟨s', ok, rfl⟩ := done
      exact h.apply short low high keyAlone contained ok
    | ordinary sender signers ran =>
      have moved : Held l a ids spent now { s with balances := ran.balances, params := ran.params } :=
        h.congr rfl rfl fun _ _ _ => id
      exact moved.chargeWatched short low high done

theorem Held.run [RootApproval] {r : List (ℤ × Transaction)} (short : l.InRange)
    (h : Held l a ids spent now s) (times : (now :: r.map Prod.fst).Pairwise (· ≤ ·))
    (low : l.start ≤ now) (high : ∀ x ∈ r, x.1 ≤ l.finish) (keyAlone : ∀ x ∈ r, x.2.keyAlone)
    (contained : ContainedRun l a s r) :
    spent + drained a ids (AccountOutflow.run s r).2 ≤ 2 * l.cap := by
  induction r generalizing s ids spent now with
  | nil => exact h.spent_le
  | cons x r ih =>
    obtain ⟨first, rest⟩ := List.pairwise_cons.1 times
    have start : now ≤ x.1 := first x.1 (by simp)
    have held := (h.later start).step short (low.trans start) (high x (by simp))
      (keyAlone x (by simp)) contained.1
    have later := ih held rest (low.trans start) (fun y mem => high y (by simp [mem]))
      (fun y mem => keyAlone y (by simp [mem])) contained.2
    simp only [AccountOutflow.run, drained_append]
    omega

end

/-- The queued change of the account, if any, comes into force before the span or after it. -/
def Unqueued (l : Limits) (a : AccountBytes) (s : State) : Prop :=
  ∀ p q, s.policies a = some p → p.pending = some q →
    q.effectiveMs ≤ l.start ∨ l.finish < q.effectiveMs

def Policy.limits (p : Policy) (start finish : ℤ) : Limits :=
  ⟨start, finish, p.cap, p.windowMs, p.holdMs⟩

theorem held_start {s : State} {a : AccountBytes} {p : Policy} {start finish : ℤ}
    (force : policyInForce s a start = some p) (short : (p.limits start finish).InRange)
    (unqueued : Unqueued (p.limits start finish) a s) :
    Held (p.limits start finish) a [] 0 start s := by
  have bounded (later : ∀ q, p.pending = some q → finish < q.effectiveMs) :
      Bounded (p.limits start finish) p :=
    ⟨le_refl _, le_refl _, short.windowFits, le_refl _, short.holdFits, later⟩
  refine ⟨fun time low high => ⟨p, ?_⟩, by simp, .inl ⟨Nat.zero_le _, Nat.zero_le _⟩⟩
  unfold policyInForce at force ⊢
  cases stored : s.policies a with
  | none => simp [stored] at force
  | some cur =>
    cases queued : cur.pending with
    | none =>
      simp only [stored, queued, Option.some.injEq] at force
      subst force
      exact ⟨by simp [queued], bounded (by simp [queued])⟩
    | some q =>
      simp only [stored, queued] at force ⊢
      rcases unqueued cur q stored queued with early | late
      · have now : q.effectiveMs ≤ start := early
        rw [if_pos now] at force
        rw [if_pos (now.trans low)]
        refine ⟨force, bounded fun q' queued' => ?_⟩
        split_ifs at force
        cases force
        cases queued'
      · have after : finish < q.effectiveMs := late
        have ordered := short.ordered
        change start ≤ finish at ordered
        rw [if_neg (by omega)] at force
        cases force
        rw [if_neg (not_le.2 (lt_of_le_of_lt high after))]
        refine ⟨rfl, bounded fun q' queued' => ?_⟩
        cases queued.symm.trans queued'
        exact after

/-- Over a span shorter than its window and its hold, transactions made with the owner's key
alone take at most twice the cap out of an account. -/
theorem drained_le_twice_cap [RootApproval] (s : State) (a : AccountBytes) (p : Policy)
    (start finish : ℤ) (r : List (ℤ × Transaction))
    (force : policyInForce s a start = some p)
    (times : (start :: r.map Prod.fst).Pairwise (· ≤ ·)) (span : ∀ x ∈ r, x.1 ≤ finish)
    (keyAlone : ∀ x ∈ r, x.2.keyAlone)
    (short : (p.limits start finish).InRange) (unqueued : Unqueued (p.limits start finish) a s)
    (contained : ContainedRun (p.limits start finish) a s r) :
    drained a [] (run s r).2 ≤ 2 * p.cap := by
  have held := held_start force short unqueued
  have bound := held.run short times (le_refl _) span keyAlone contained
  rw [Nat.zero_add] at bound
  exact bound

@[reducible] def noApprovals : RootApproval := ⟨fun _ _ _ _ _ => false⟩

def hourlyPolicy : Policy := ⟨3600000, 100, 86400000, none, none⟩

/-- One account limits itself to 100 an hour and holds releases for a day. -/
def hourlyState : State where
  policies a := if a = [1] then some hourlyPolicy else none
  windows _ := none
  releases _ _ := none
  metas _ := none
  steps _ := 0
  params := ⟨3600000, 3600000, 16⟩
  balances a := if a = [1] then 5000 else 0

def spendTo (left : ℕ) : Transaction :=
  .ordinary [1] [] ⟨fun a => if a = [1] then left else 0, hourlyState.params⟩

def thriftyRun : List (ℤ × Transaction) :=
  [(1000, spendTo 4940),
    (2000, .outflow [1] (.set [1] 3600000 80 90000000 none)),
    (3000, .outflow [1] (.requestRelease [1] [2] 700)),
    (4000, spendTo 4920),
    (5000, .outflow [1] (.claimRelease [1] 0 none))]

theorem drained_le_twice_cap_thrifty :
    policyInForce hourlyState [1] 0 = some hourlyPolicy ∧
      drained [1] [] (@run noApprovals hourlyState thriftyRun).2 = 80 ∧
      drained [1] [] (@run noApprovals hourlyState thriftyRun).2 ≤ 2 * 100 := by
  refine ⟨by decide, by decide, ?_⟩
  refine @drained_le_twice_cap noApprovals hourlyState [1] hourlyPolicy 0 5000 thriftyRun
    (by decide) (by decide) (by decide) ?_ ?_ ?_ ?_
  · simp [thriftyRun, Transaction.keyAlone, Op.approval, spendTo]
  · exact ⟨⟨by decide, by decide, by decide, by decide⟩,
      by decide, by decide, by constructor <;> decide⟩
  · intro p q stored queued
    cases stored
    cases queued
  · exact ⟨trivial, fun _ _ _ _ => ⟨by decide, by decide, by decide,
      by constructor <;> decide⟩, trivial, trivial, trivial, trivial⟩

/-- A cap ten times as high over a window ten times as long passes as no loosening. -/
def sameRateRun : List (ℤ × Transaction) :=
  [(1000, .outflow [1] (.set [1] 36000000 1000 86400000 none)), (1000, spendTo 4000)]

theorem same_rate_change_drains_past_cap :
    policyInForce hourlyState [1] 0 = some hourlyPolicy ∧
      (0 :: sameRateRun.map Prod.fst).Pairwise (· ≤ ·) ∧ (∀ x ∈ sameRateRun, x.1 ≤ 1000) ∧
      (∀ x ∈ sameRateRun, x.2.keyAlone) ∧ (hourlyPolicy.limits 0 1000).Short ∧
      2 * hourlyPolicy.cap < drained [1] [] (@run noApprovals hourlyState sameRateRun).2 := by
  refine ⟨by decide, by decide, by decide, ?_, ?_, by decide⟩
  · simp [sameRateRun, Transaction.keyAlone, Op.approval, spendTo]
  · exact ⟨by decide, by decide, by decide, by decide⟩

end Tenzro.AccountOutflow
