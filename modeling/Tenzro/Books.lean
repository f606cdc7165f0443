import Mathlib

set_option autoImplicit false

/-!
# Books of balances

A book holds finitely many balances and freezes part of them. Its supply is their sum.
-/

/-- What each account holds, and what of it is frozen. -/
structure Book (α : Type) where
  balance : α →₀ ℕ
  frozen : α → ℕ
  covered : ∀ a, frozen a ≤ balance a

namespace Book
variable {α : Type}

noncomputable section

def total (f : α →₀ ℕ) : ℕ := f.sum fun _ n => n

theorem total_update (f : α →₀ ℕ) (a : α) (v : ℕ) : total (f.update a v) + f a = total f + v :=
  Finsupp.sum_update_add f a v (fun _ n => n) (fun _ => rfl) (fun _ _ _ => rfl)

theorem le_total (f : α →₀ ℕ) (a : α) : f a ≤ total f := by
  have h := total_update f a 0
  omega

theorem update_self (f : α →₀ ℕ) (a : α) (v : ℕ) : f.update a v a = v := by
  classical
  rw [Finsupp.update_apply, if_pos rfl]

theorem update_of_ne {f : α →₀ ℕ} {a x : α} {v : ℕ} (h : x ≠ a) : f.update a v x = f x := by
  classical
  rw [Finsupp.update_apply, if_neg h]

theorem card_support_update (f : α →₀ ℕ) (a : α) (v : ℕ) :
    (f.update a v).support.card =
      if f a = 0 ∧ v ≠ 0 then f.support.card + 1
      else if f a ≠ 0 ∧ v = 0 then f.support.card - 1
      else f.support.card := by
  classical
  rw [Finsupp.support_update]
  by_cases held : f a = 0
  · by_cases kept : v = 0
    · simp [held, kept]
    · simp [held, kept]
  · by_cases kept : v = 0
    · simp [held, kept]
    · simp [held, kept]

def moved (f : α →₀ ℕ) (a c : α) (n : ℕ) : α →₀ ℕ :=
  (f.update a (f a - n)).update c (f.update a (f a - n) c + n)

section
variable {f : α →₀ ℕ} {a c x : α} {n : ℕ}

theorem total_moved (enough : n ≤ f a) : total (moved f a c n) = total f := by
  have debit := total_update f a (f a - n)
  have credit := total_update (f.update a (f a - n)) c (f.update a (f a - n) c + n)
  unfold moved
  omega

theorem sub_le_moved : f a - n ≤ moved f a c n a := by
  unfold moved
  by_cases same : a = c
  · subst same
    rw [update_self, update_self]
    omega
  · rw [update_of_ne same, update_self]

theorem le_moved (other : x ≠ a) : f x ≤ moved f a c n x := by
  unfold moved
  by_cases same : x = c
  · subst same
    rw [update_self, update_of_ne other]
    omega
  · rw [update_of_ne same, update_of_ne other]

end

/-! ### Recorded totals -/

def SumsTo (f : α → ℕ) (n : ℕ) : Prop := ∃ g : α →₀ ℕ, (∀ a, g a = f a) ∧ total g = n

theorem total_mono {g h : α →₀ ℕ} (le : ∀ a, g a ≤ h a) : total g ≤ total h := by
  classical
  have held : g.support ⊆ h.support := fun a mem => by
    have at_a := le a
    simp only [Finsupp.mem_support_iff] at mem ⊢
    omega
  have same : total g = h.support.sum g :=
    Finsupp.sum_of_support_subset g held (fun _ n => n) fun _ _ => rfl
  rw [same]
  exact Finset.sum_le_sum fun a _ => le a

namespace SumsTo
variable {f g : α → ℕ} {n m : ℕ}

theorem zero : SumsTo (fun _ : α => 0) 0 := ⟨0, fun _ => rfl, Finsupp.sum_zero_index⟩

theorem le (h : SumsTo f n) (a : α) : f a ≤ n := by
  obtain ⟨F, each, rfl⟩ := h
  rw [← each a]
  exact le_total F a

theorem mono (h : SumsTo f n) (h' : SumsTo g m) (le : ∀ a, f a ≤ g a) : n ≤ m := by
  obtain ⟨F, eachF, rfl⟩ := h
  obtain ⟨G, eachG, rfl⟩ := h'
  refine total_mono fun a => ?_
  rw [eachF, eachG]
  exact le a

theorem along {β : Type} {h : β → ℕ} (part : SumsTo h m) (all : SumsTo f n) (e : β ↪ α)
    (le : ∀ b, h b ≤ f (e b)) : m ≤ n := by
  classical
  obtain ⟨H, eachH, rfl⟩ := part
  obtain ⟨F, eachF, rfl⟩ := all
  have embedded : total (H.embDomain e) = total H := Finsupp.sum_embDomain
  rw [← embedded]
  refine total_mono fun a => ?_
  by_cases hit : a ∈ Set.range e
  · obtain ⟨b, rfl⟩ := hit
    rw [Finsupp.embDomain_apply_self, eachH, eachF]
    exact le b
  · rw [Finsupp.embDomain_of_notMem_range _ _ _ hit]
    exact Nat.zero_le _

theorem update [DecidableEq α] (h : SumsTo f n) {a : α} {v : ℕ} (next : m + f a = n + v) :
    SumsTo (Function.update f a v) m := by
  obtain ⟨F, each, rfl⟩ := h
  have moved := total_update F a v
  have at_a := each a
  refine ⟨F.update a v, fun x => ?_, by omega⟩
  by_cases same : x = a
  · subst same
    rw [update_self, Function.update_self]
  · rw [update_of_ne same, Function.update_of_ne same, each]

end SumsTo

/-! ### Operations -/

def supply (b : Book α) : ℕ := total b.balance

def holders (b : Book α) : ℕ := b.balance.support.card

/-- What the account may move past its freeze. -/
def free (b : Book α) (a : α) : ℕ := b.balance a - b.frozen a

variable (b : Book α) (a c : α) (n : ℕ)

def empty : Book α := ⟨0, fun _ => 0, fun _ => le_refl _⟩

def issue : Book α where
  balance := b.balance.update a (b.balance a + n)
  frozen := b.frozen
  covered x := by
    have h := b.covered x
    by_cases same : x = a
    · subst same
      rw [update_self]
      omega
    · rwa [update_of_ne same]

def retire (enough : n ≤ b.free a) : Book α where
  balance := b.balance.update a (b.balance a - n)
  frozen := b.frozen
  covered x := by
    have h := b.covered x
    unfold free at enough
    by_cases same : x = a
    · subst same
      rw [update_self]
      omega
    · rwa [update_of_ne same]

/-- The holder's own transfer. -/
def send (enough : n ≤ b.free a) : Book α where
  balance := moved b.balance a c n
  frozen := b.frozen
  covered x := by
    have h := b.covered x
    unfold free at enough
    by_cases same : x = a
    · subst same
      have left : b.balance x - n ≤ moved b.balance x c n x := sub_le_moved
      omega
    · exact h.trans (le_moved same)

/-- A forced transfer lowers the freeze to what is left. -/
def seize [DecidableEq α] : Book α where
  balance := moved b.balance a c n
  frozen := Function.update b.frozen a (min (b.frozen a) (moved b.balance a c n a))
  covered x := by
    by_cases same : x = a
    · subst same
      rw [Function.update_self]
      exact min_le_right _ _
    · rw [Function.update_of_ne same]
      exact (b.covered x).trans (le_moved same)

def freeze [DecidableEq α] (enough : n ≤ b.balance a) : Book α where
  balance := b.balance
  frozen := Function.update b.frozen a n
  covered x := by
    by_cases same : x = a
    · subst same
      rwa [Function.update_self]
    · rw [Function.update_of_ne same]
      exact b.covered x

variable {b a c n}

theorem supply_issue : (b.issue a n).supply = b.supply + n := by
  have h := total_update b.balance a (b.balance a + n)
  change total (b.balance.update a (b.balance a + n)) = total b.balance + n
  omega

theorem supply_retire (enough : n ≤ b.free a) : (b.retire a n enough).supply + n = b.supply := by
  have h := total_update b.balance a (b.balance a - n)
  unfold free at enough
  change total (b.balance.update a (b.balance a - n)) + n = total b.balance
  omega

theorem supply_send (enough : n ≤ b.free a) : (b.send a c n enough).supply = b.supply :=
  total_moved (enough.trans (Nat.sub_le _ _))

theorem supply_seize [DecidableEq α] (enough : n ≤ b.balance a) :
    (b.seize a c n).supply = b.supply :=
  total_moved enough

theorem balance_eq_zero (nothing : b.supply = 0) (x : α) : b.balance x = 0 := by
  have h := le_total b.balance x
  unfold supply at nothing
  omega

end
end Book
