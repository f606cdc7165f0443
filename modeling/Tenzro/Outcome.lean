import Mathlib

set_option autoImplicit false

/-!
# Computations that may fail

How a sequence of fallible steps that went through comes apart into its steps.
-/

namespace Outcome
open List
variable {ε α β : Type}

theorem bind_ok {x : Except ε α} {f : α → Except ε β} {b : β} :
    x >>= f = .ok b ↔ ∃ a, x = .ok a ∧ f a = .ok b := by
  cases x with
  | error e => simp [Bind.bind, Except.bind]
  | ok a => simp [Bind.bind, Except.bind]

theorem bind_error {x : Except ε α} {f : α → Except ε β} {e : ε} :
    x >>= f = .error e ↔ x = .error e ∨ ∃ a, x = .ok a ∧ f a = .error e := by
  cases x with
  | error e' => simp [Bind.bind, Except.bind]
  | ok a => simp [Bind.bind, Except.bind]

theorem pure_ok {a b : α} : (pure a : Except ε α) = .ok b ↔ a = b := by
  simp [Pure.pure, Except.pure]

theorem map_ok {x : Except ε α} {f : α → β} {b : β} :
    f <$> x = .ok b ↔ ∃ a, x = .ok a ∧ f a = b := by
  cases x with
  | error e => simp [Functor.map, Except.map]
  | ok a => simp [Functor.map, Except.map]

theorem ite_ok {p : Prop} [Decidable p] {e : ε} {x : Except ε α} {a : α} :
    (if p then .error e else x) = .ok a ↔ ¬ p ∧ x = .ok a := by
  split_ifs with h <;> simp [h]

def ensure (p : Prop) [Decidable p] (e : ε) : Except ε Unit := if p then .ok () else .error e

@[simp] theorem ensure_ok {p : Prop} [Decidable p] {e : ε} {u : Unit} :
    ensure p e = .ok u ↔ p := by
  unfold ensure
  split_ifs with h <;> simp [h]

theorem ensure_error {p : Prop} [Decidable p] {e e' : ε} :
    ensure p e = .error e' ↔ ¬ p ∧ e = e' := by
  unfold ensure
  split_ifs with h <;> simp [h]

theorem mapM_ok {f : α → Except ε β} {l : List α} {out : List β} :
    l.mapM f = .ok out ↔ Forall₂ (fun a b => f a = .ok b) l out := by
  induction l generalizing out with
  | nil =>
    rw [mapM_nil, pure_ok, forall₂_nil_left_iff]
    exact eq_comm
  | cons a l ih =>
    rw [mapM_cons, bind_ok, forall₂_cons_left_iff]
    refine exists_congr fun b => ?_
    rw [bind_ok, ← exists_and_left]
    refine exists_congr fun rest => and_congr_right fun _ => ?_
    rw [ih, pure_ok, eq_comm]

theorem mapM_mem {f : α → Except ε β} {l : List α} {out : List β} (ran : l.mapM f = .ok out)
    {a : α} (mem : a ∈ l) : ∃ b ∈ out, f a = .ok b := by
  have all := mapM_ok.1 ran
  clear ran
  induction all with
  | nil => cases mem
  | cons here _ ih =>
    rcases mem_cons.1 mem with rfl | mem
    · exact ⟨_, mem_cons_self, here⟩
    · obtain ⟨b, later, value⟩ := ih mem
      exact ⟨b, mem_cons_of_mem _ later, value⟩

theorem mapM_inverse {f : α → Except ε β} {g : β → α} (inverse : ∀ a b, f a = .ok b ↔ g b = a)
    {l : List α} {out : List β} : l.mapM f = .ok out ↔ out.map g = l := by
  rw [mapM_ok]
  simp only [inverse]
  have each : out.map g = l ↔ Forall₂ (· = ·) (out.map g) l := by rw [forall₂_eq_eq_eq]
  rw [each, forall₂_map_left_iff]
  exact ⟨Forall₂.flip, Forall₂.flip⟩

theorem mapM_range {f : ℕ → Except ε β} {g : α → Except ε β} {l : List α}
    (same : ∀ i a, l[i]? = some a → f i = g a) : (range l.length).mapM f = l.mapM g := by
  induction l generalizing f with
  | nil => rfl
  | cons a l ih =>
    rw [length_cons, range_succ_eq_map, mapM_cons, mapM_cons,
      mapM_map, same 0 a rfl]
    have rest := ih (f := f ∘ Nat.succ) fun i b at_i => same (i + 1) b at_i
    rw [← rest]

/-! ### Results and refusals -/

def Meets (x : Except ε α) (good : α → Prop) (accepted : ε → Prop) : Prop :=
  match x with
  | .ok a => good a
  | .error e => accepted e

namespace Meets
variable {x : Except ε α} {f : α → Except ε β} {good mid : α → Prop} {last : β → Prop}
  {accepted : ε → Prop}

theorem bind (first : Meets x mid accepted) (rest : ∀ a, mid a → Meets (f a) last accepted) :
    Meets (x >>= f) last accepted := by
  cases x with
  | error e => exact first
  | ok a => exact rest a first

theorem imp (h : Meets x mid accepted) (weaker : ∀ a, mid a → good a) : Meets x good accepted := by
  cases x with
  | error e => exact h
  | ok a => exact weaker a h

theorem mono {refused : ε → Prop} (h : Meets x good refused) (weaker : ∀ e, refused e → accepted e) :
    Meets x good accepted := by
  cases x with
  | error e => exact weaker e h
  | ok a => exact h

theorem ensure {p : Prop} [Decidable p] {e : ε} (refused : ¬ p → accepted e) :
    Meets (Outcome.ensure p e) (fun _ => p) accepted := by
  unfold Outcome.ensure
  split_ifs with h
  · exact h
  · exact refused h

theorem of_ok {a : α} (h : Meets x good accepted) (went : x = .ok a) : good a := by
  subst went
  exact h

end Meets

end Outcome
