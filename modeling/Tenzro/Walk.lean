import Mathlib

set_option autoImplicit false

/-!
# Breadth-first walks

A queue of nodes to visit, each expanded once. With fuel for every push the
visited nodes are exactly those the start reaches, whatever the order.
-/
namespace Walk
open List

variable {α : Type} [DecidableEq α] (expand : α → List α)

/-- Visits the queue's nodes and what they expand to, each once. -/
def walk : ℕ → List α → List α → List α
  | 0, _, seen => seen
  | _ + 1, [], seen => seen
  | n + 1, d :: queue, seen =>
    if d ∈ seen then walk n queue seen
    else walk n (queue ++ expand d) (seen ++ [d])

/-- `x` comes from some node of `start` by expanding. -/
inductive Reaches (start : List α) : α → Prop where
  | start {x : α} : x ∈ start → Reaches start x
  | next {x y : α} : Reaches start x → y ∈ expand x → Reaches start y

variable {expand}

omit [DecidableEq α] in
theorem Reaches.trans {start mid : List α} {x : α} (h : Reaches expand mid x)
    (reach : ∀ y ∈ mid, Reaches expand start y) : Reaches expand start x := by
  induction h with
  | start hx => exact reach _ hx
  | next _ hy ih => exact .next ih hy

theorem nodup_walk {n : ℕ} {queue seen : List α} (h : seen.Nodup) :
    (walk expand n queue seen).Nodup := by
  induction n generalizing queue seen with
  | zero => exact h
  | succ n ih =>
    cases queue with
    | nil => exact h
    | cons d queue =>
      rw [walk]
      split_ifs with hd
      · exact ih h
      · refine ih (nodup_append.2 ⟨h, nodup_singleton d, ?_⟩)
        intro x hx y hy
        rw [mem_singleton] at hy
        subst hy
        exact fun same => hd (same ▸ hx)

theorem reaches_of_mem_walk {n : ℕ} {queue seen : List α} {x : α}
    (h : x ∈ walk expand n queue seen) : x ∈ seen ∨ Reaches expand queue x := by
  induction n generalizing queue seen with
  | zero => exact .inl h
  | succ n ih =>
    cases queue with
    | nil => exact .inl h
    | cons d queue =>
      rw [walk] at h
      split_ifs at h with hd
      · refine (ih h).imp_right (fun hr => hr.trans ?_)
        exact fun y hy => .start (mem_cons_of_mem d hy)
      · rcases ih h with old | hr
        · rcases mem_append.1 old with old | new
          · exact .inl old
          · rw [mem_singleton] at new
            subst new
            exact .inr (.start mem_cons_self)
        · refine .inr (hr.trans ?_)
          intro y hy
          rcases mem_append.1 hy with hy | hy
          · exact .start (mem_cons_of_mem d hy)
          · exact .next (.start mem_cons_self) hy

end Walk
