import Tenzro.BroadcastTotality

set_option autoImplicit false

/-!
# What a call of reliable broadcast records

Every action a call asks for is recorded in its state, and what was recorded
before stays.
-/
namespace Tenzro.ReliableBroadcast
open List

variable {c : Committee}

/-- What was sent and delivered in `b` still is in `b'`. -/
structure Keeps (b b' : ReliableBroadcast) : Prop where
  me : b'.me = b.me
  floor : b'.floor = b.floor
  sent : ∀ r a k d, (b.inst r a).sent k = some d → (b'.inst r a).sent k = some d
  delivered : ∀ r a d, (b.inst r a).delivered = some d → (b'.inst r a).delivered = some d

/-- The actions `out` are recorded in `b`. -/
structure Records (b : ReliableBroadcast) (out : List RbcAction) : Prop where
  broadcast : ∀ s, .broadcast s ∈ out → (b.inst s.round s.source).sent s.kind = some s.digest
  deliver : ∀ r a d, .deliver r a d ∈ out → (b.inst r a).delivered = some d

theorem Keeps.refl (b : ReliableBroadcast) : Keeps b b :=
  ⟨rfl, rfl, fun _ _ _ _ h => h, fun _ _ _ h => h⟩

theorem Keeps.trans {b b' b'' : ReliableBroadcast} (h : Keeps b b') (h' : Keeps b' b'') :
    Keeps b b'' where
  me := h'.me.trans h.me
  floor := h'.floor.trans h.floor
  sent r a k d hs := h'.sent r a k d (h.sent r a k d hs)
  delivered r a d hd := h'.delivered r a d (h.delivered r a d hd)

theorem Records.nil (b : ReliableBroadcast) : Records b [] :=
  ⟨fun _ h => absurd h not_mem_nil, fun _ _ _ h => absurd h not_mem_nil⟩

theorem Records.append {b b' : ReliableBroadcast} {out out' : List RbcAction} (h : Records b out)
    (keep : Keeps b b') (h' : Records b' out') : Records b' (out ++ out') where
  broadcast s hs := by
    cases mem_append.1 hs with
    | inl old => exact keep.sent _ _ _ _ (h.broadcast s old)
    | inr new => exact h'.broadcast s new
  deliver r a d hd := by
    cases mem_append.1 hd with
    | inl old => exact keep.delivered _ _ _ (h.deliver r a d old)
    | inr new => exact h'.deliver r a d new

theorem takeSignal_keeps (b : ReliableBroadcast) (c : Committee) (frm : ValidatorIndex)
    (s : Signal) : Keeps b (b.takeSignal c frm s).1 := by
  cases takeSignal_cases b c frm s with
  | inl same =>
    obtain ⟨inst, me, floor, -, -⟩ := same
    exact ⟨me, floor, by simp [inst], by simp [inst]⟩
  | inr counted =>
    rw [counted.2.2.2.2]
    refine ⟨rfl, rfl, ?_, ?_⟩
    · intro r a k d hs
      rw [inst_setInst]
      split_ifs with here
      · rw [here.1, here.2] at hs
        -- A kind that was sent is not due.
        simp [Instance.answer, Instance.due, Instance.count, hs]
      · exact hs
    · intro r a d hd
      rw [inst_setInst]
      split_ifs with here
      · rw [here.1, here.2] at hd
        simp [Instance.answer, Instance.delivers, Instance.count, hd]
      · exact hd

theorem takeSignal_records (b : ReliableBroadcast) (c : Committee) (frm : ValidatorIndex)
    (s : Signal) : Records (b.takeSignal c frm s).1 (b.takeSignal c frm s).2.1 := by
  cases takeSignal_cases b c frm s with
  | inl same =>
    rw [same.2.2.2.1]
    exact .nil _
  | inr counted =>
    rw [counted.2.2.2.2]
    refine ⟨?_, ?_⟩
    · intro s' hs
      simp only [mem_append, mem_map, mem_ite_nil_right, mem_singleton,
        reduceCtorEq, and_false, or_false] at hs
      obtain ⟨k, hk, same⟩ := hs
      cases same
      simp [Instance.answer, hk]
    · intro r a d hd
      simp only [mem_append, mem_map, reduceCtorEq, and_false, exists_false, false_or,
        mem_ite_nil_right, mem_singleton, RbcAction.deliver.injEq] at hd
      obtain ⟨due, rfl, rfl, rfl⟩ := hd
      simp [Instance.answer, due]

theorem runLoopback_keeps {n : ℕ} {me : ValidatorIndex} {s : Signal}
    (call : ∀ b k, Keeps b (onSignalFuel n b c me { s with kind := k }).1 ∧
      Records (onSignalFuel n b c me { s with kind := k }).1
        (onSignalFuel n b c me { s with kind := k }).2)
    (ks : List SignalKind) {b : ReliableBroadcast} {out : List RbcAction} (h : Records b out) :
    Keeps b (runLoopback n c me s ks b out).1 ∧
      Records (runLoopback n c me s ks b out).1 (runLoopback n c me s ks b out).2 := by
  induction ks generalizing b out with
  | nil => exact ⟨.refl b, h⟩
  | cons k ks ih =>
    rw [runLoopback_cons]
    have next := ih (h.append (call b k).1 (call b k).2)
    exact ⟨(call b k).1.trans next.1, next.2⟩

theorem onSignalFuel_keeps (n : ℕ) (b : ReliableBroadcast) (c : Committee) (frm : ValidatorIndex)
    (s : Signal) :
    Keeps b (onSignalFuel n b c frm s).1 ∧
      Records (onSignalFuel n b c frm s).1 (onSignalFuel n b c frm s).2 := by
  induction n generalizing b frm s with
  | zero => exact ⟨.refl b, .nil b⟩
  | succ n ih =>
    rw [onSignalFuel_succ]
    have loop := @runLoopback_keeps c n b.me s (fun b' k => ih b' b.me { s with kind := k })
      (b.takeSignal c frm s).2.2 _ _ (takeSignal_records b c frm s)
    exact ⟨(takeSignal_keeps b c frm s).trans loop.1, loop.2⟩

theorem onSignal_keeps (b : ReliableBroadcast) (c : Committee) (frm : ValidatorIndex) (s : Signal) :
    Keeps b (b.onSignal c frm s).1 := (onSignalFuel_keeps 4 b c frm s).1

theorem onSignal_records (b : ReliableBroadcast) (c : Committee) (frm : ValidatorIndex)
    (s : Signal) : Records (b.onSignal c frm s).1 (b.onSignal c frm s).2 :=
  (onSignalFuel_keeps 4 b c frm s).2

theorem onPropose_records (b : ReliableBroadcast) (c : Committee) (frm : ValidatorIndex) (r : ℕ)
    (a : ValidatorIndex) (d : Digest) :
    Records (b.onPropose c frm r a d).1 (b.onPropose c frm r a d).2 := by
  rcases takeProposal_cases b c frm r a d with h | h | h
  · rw [onPropose_of_quiet (by rw [h.2.2.2.1]), h.2.2.2.1]
    exact .nil _
  · rw [onPropose_of_quiet (by rw [h.2.2.2.2]), h.2.2.2.2]
    refine ⟨by simp, ?_⟩
    intro r' a' d' hd
    simp only [mem_singleton, RbcAction.deliver.injEq] at hd
    obtain ⟨rfl, rfl, rfl⟩ := hd
    simp
  · rw [onPropose_of_echo h.2.2.2.2]
    refine Records.append ?_ (onSignal_keeps _ c _ _) (onSignal_records _ c _ _)
    refine ⟨?_, by simp⟩
    intro s hs
    simp only [mem_singleton, RbcAction.broadcast.injEq] at hs
    subst hs
    simp

end Tenzro.ReliableBroadcast
