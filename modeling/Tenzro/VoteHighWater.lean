import Tenzro.Checkpoint

set_option autoImplicit false
set_option linter.dupNamespace false

/-!
# The checkpoints a validator has signed

Kept in the node's store before a signature is released: the latest one, and what was
signed for each index of a window behind it. A crash may come before or after the one
atomic write of a call.
-/
namespace Tenzro
open List SortedMap

structure HighWaterMark where
  epoch : ℕ
  index : ℕ
  digest : Digest
deriving DecidableEq, Repr

structure Signed where
  epoch : ℕ
  digest : Digest
  prev : Digest
deriving DecidableEq, Repr

/-- What recording a vote does. -/
inductive VoteRecord where
  | mark
  | behind
  | again
deriving DecidableEq, Repr

namespace HighWaterMark

def after (m : HighWaterMark) (epoch index : ℕ) : Bool :=
  epoch < m.epoch || (epoch = m.epoch && index < m.index)

end HighWaterMark

def checkHighWater (mark : Option HighWaterMark) (here next : Option Signed) (epoch index : ℕ)
    (digest : Digest) : Except String VoteRecord :=
  match mark with
  | none => .ok .mark
  | some m =>
    if m.epoch = epoch ∧ m.index = index then
      if m.digest = digest then .ok .again
      else .error s!"already signed a different checkpoint {index} in epoch {epoch}"
    else if m.after epoch index then
      if signedVoteWindow ≤ m.index - index then
        .error s!"already signed checkpoint {m.index} of epoch {m.epoch}, refusing {index} of epoch {epoch} beyond the window kept"
      else
        match here with
        | some a =>
          if a.epoch = epoch ∧ a.digest = digest then .ok .again
          else .error s!"already signed a different checkpoint {index} in epoch {epoch}"
        | none =>
          if next.any (fun n => n.prev = digest) then .ok .behind
          else .error s!"already signed checkpoint {m.index} of epoch {m.epoch}, and checkpoint {index} of epoch {epoch} is not the one it follows"
    else .ok .mark

/-- One atomic write of the store. -/
inductive VoteWrite where
  | putSigned (index : ℕ) (s : Signed)
  | putMark (m : HighWaterMark)
  | deleteSigned (index : ℕ)

/-- The keys of the node's store that hold votes. -/
structure KvVoteHighWater where
  mark : Option HighWaterMark
  signed : SortedMap ℕ Signed

structure VoteCall where
  epoch : ℕ
  index : ℕ
  digest : Digest
  prev : Digest
deriving DecidableEq, Repr

namespace KvVoteHighWater

def new : KvVoteHighWater := ⟨none, .empty⟩

def write (s : KvVoteHighWater) : VoteWrite → KvVoteHighWater
  | .putSigned index v => { s with signed := s.signed.insert index v }
  | .putMark m => { s with mark := some m }
  | .deleteSigned index => { s with signed := s.signed.erase index }

def writeBatch (s : KvVoteHighWater) (ops : List VoteWrite) : KvVoteHighWater := ops.foldl write s

def recordOps (v : VoteCall) (move : Bool) : List VoteWrite :=
  .putSigned v.index ⟨v.epoch, v.digest, v.prev⟩ ::
    if move then
      .putMark ⟨v.epoch, v.index, v.digest⟩ ::
        if signedVoteWindow ≤ v.index then [.deleteSigned (v.index - signedVoteWindow)] else []
    else []

def record (s : KvVoteHighWater) (v : VoteCall) : Except String (List VoteWrite) :=
  let behind := s.mark.any (fun m => m.after v.epoch v.index)
  let here := if behind then s.signed.get? v.index else none
  let next := if behind then s.signed.get? (v.index + 1) else none
  match checkHighWater s.mark here next v.epoch v.index v.digest with
  | .error why => .error why
  | .ok .again => .ok []
  | .ok .behind => .ok (recordOps v false)
  | .ok .mark => .ok (recordOps v true)

end KvVoteHighWater

/-- How a call ends: it returns, or the process stops before or after its write. -/
inductive Fate where
  | returns
  | crashesBefore
  | crashesAfter
deriving DecidableEq

/-- The store of a validator over its restarts, with the votes written and the calls that
returned. -/
structure VoteHistory where
  store : KvVoteHighWater
  recorded : List VoteCall
  released : List VoteCall

namespace VoteHistory

def new : VoteHistory := ⟨.new, [], []⟩

def call (h : VoteHistory) (e : VoteCall × Fate) : VoteHistory :=
  match e.2, h.store.record e.1 with
  | .crashesBefore, _ => h
  | _, .error _ => h
  | fate, .ok ops =>
    { store := h.store.writeBatch ops
      recorded := if ops.isEmpty then h.recorded else h.recorded ++ [e.1]
      released := if fate = .returns then h.released ++ [e.1] else h.released }

def run (calls : List (VoteCall × Fate)) : VoteHistory := calls.foldl call new

theorem run_append (calls : List (VoteCall × Fate)) (e : VoteCall × Fate) :
    run (calls ++ [e]) = (run calls).call e := by
  simp only [run, foldl_append, foldl_cons, foldl_nil]

end VoteHistory

theorem HighWaterMark.after_iff {m : HighWaterMark} {epoch index : ℕ} : m.after epoch index = true ↔
    epoch < m.epoch ∨ epoch = m.epoch ∧ index < m.index := by
  simp [HighWaterMark.after]

namespace KvVoteHighWater

/-- What a call that is not refused found: a place past the mark, a free place behind it that the
next record names, or its own vote. -/
theorem record_cases {s : KvVoteHighWater} {v : VoteCall} {ops : List VoteWrite}
    (h : s.record v = .ok ops) :
    (ops = recordOps v true ∧ ∀ m, s.mark = some m → ¬ m.after v.epoch v.index = true ∧
      ¬ (m.epoch = v.epoch ∧ m.index = v.index)) ∨
    (∃ m, s.mark = some m ∧ m.after v.epoch v.index = true ∧ m.index - v.index < signedVoteWindow ∧
      ((ops = recordOps v false ∧ s.signed.get? v.index = none ∧
          ∃ n, s.signed.get? (v.index + 1) = some n ∧ n.prev = v.digest) ∨
        (ops = [] ∧ ∃ a, s.signed.get? v.index = some a ∧ a.epoch = v.epoch ∧
          a.digest = v.digest))) ∨
    (ops = [] ∧ s.mark = some ⟨v.epoch, v.index, v.digest⟩) := by
  unfold record at h
  cases hm : s.mark with
  | none =>
    simp only [hm, checkHighWater, Except.ok.injEq] at h
    exact .inl ⟨h.symm, fun m none => nomatch none⟩
  | some m =>
    simp only [hm, checkHighWater, Option.any_some] at h
    by_cases same : m.epoch = v.epoch ∧ m.index = v.index
    · by_cases digest : m.digest = v.digest
      · simp only [same, digest, and_self, if_true, Except.ok.injEq] at h
        refine .inr (.inr ⟨h.symm, ?_⟩)
        rw [← same.1, ← same.2, ← digest]
      · simp [same, digest] at h
    · simp only [same, if_false] at h
      by_cases later : m.after v.epoch v.index = true
      · simp only [later, if_true] at h
        by_cases far : signedVoteWindow ≤ m.index - v.index
        · simp [far] at h
        · simp only [far, if_false] at h
          refine .inr (.inl ⟨m, rfl, later, not_le.1 far, ?_⟩)
          cases ha : s.signed.get? v.index with
          | some a =>
            by_cases mine : a.epoch = v.epoch ∧ a.digest = v.digest
            · simp only [ha, mine, and_self, if_true, Except.ok.injEq] at h
              exact .inr ⟨h.symm, a, rfl, mine⟩
            · simp [ha, mine] at h
          | none =>
            cases hn : s.signed.get? (v.index + 1) with
            | none => simp [ha, hn] at h
            | some n =>
              by_cases named : n.prev = v.digest
              · simp only [ha, hn, named, Option.any_some, decide_true, if_true,
                  Except.ok.injEq] at h
                exact .inl ⟨h.symm, rfl, n, rfl, named⟩
              · simp [ha, hn, named] at h
      · simp only [later] at h
        refine .inl ⟨?_, fun m' hm' => ?_⟩
        · simpa using h.symm
        · cases hm'
          exact ⟨later, same⟩

@[simp] theorem mark_recordOps (s : KvVoteHighWater) (v : VoteCall) (move : Bool) :
    (s.writeBatch (recordOps v move)).mark =
      if move then some ⟨v.epoch, v.index, v.digest⟩ else s.mark := by
  cases move <;> simp only [recordOps, writeBatch, foldl_cons] <;>
    split_ifs <;> simp_all [write]

theorem signed_recordOps (s : KvVoteHighWater) (v : VoteCall) (move : Bool) (i : ℕ) :
    (s.writeBatch (recordOps v move)).signed.get? i =
      if move = true ∧ i + signedVoteWindow = v.index then none
      else if i = v.index then some ⟨v.epoch, v.digest, v.prev⟩ else s.signed.get? i := by
  cases move with
  | false => simp [recordOps, writeBatch, write, get?_insert]
  | true =>
    by_cases far : signedVoteWindow ≤ v.index
    · have place : i = v.index - signedVoteWindow ↔ i + signedVoteWindow = v.index := by omega
      simp [recordOps, writeBatch, write, far, get?_insert, get?_erase, place]
    · have place : ¬ i + signedVoteWindow = v.index := by omega
      simp [recordOps, writeBatch, write, far, get?_insert, place]

end KvVoteHighWater

namespace VoteHistory

def Ordered (vs : List VoteCall) : Prop := ∀ a ∈ vs, ∀ b ∈ vs, a.epoch < b.epoch → a.index < b.index

/-- The store after votes of `vs`: one record per index, none past the mark, and those of the
window behind the mark still held. -/
structure Kept (vs : List VoteCall) (h : VoteHistory) : Prop where
  asked : ∀ r ∈ h.recorded, r ∈ vs
  single : (h.recorded.map VoteCall.index).Nodup
  marked : h.recorded ≠ [] → ∃ m, h.store.mark = some m
  mark : ∀ m, h.store.mark = some m →
    ∃ r ∈ h.recorded, r.epoch = m.epoch ∧ r.index = m.index ∧ r.digest = m.digest
  below : ∀ m, h.store.mark = some m → ∀ r ∈ h.recorded, r.index ≤ m.index
  held : ∀ m, h.store.mark = some m → ∀ r ∈ h.recorded, m.index < r.index + signedVoteWindow →
    h.store.signed.get? r.index = some ⟨r.epoch, r.digest, r.prev⟩
  stored : ∀ i g, h.store.signed.get? i = some g → (⟨g.epoch, i, g.digest, g.prev⟩ : VoteCall) ∈ h.recorded
  released : ∀ a ∈ h.released,
    ∃ r ∈ h.recorded, r.epoch = a.epoch ∧ r.index = a.index ∧ r.digest = a.digest

theorem kept_new (vs : List VoteCall) : Kept vs new where
  asked _ hr := nomatch hr
  single := nodup_nil
  marked none := absurd rfl none
  mark _ hm := nomatch hm
  below _ hm := nomatch hm
  held _ hm := nomatch hm
  stored i g hg := by
    simp [new, KvVoteHighWater.new] at hg
  released _ ha := nomatch ha

variable {vs : List VoteCall} {h : VoteHistory} {v : VoteCall}

theorem Kept.reach (k : Kept vs h) (ordered : Ordered vs) (hv : v ∈ vs) {m : HighWaterMark}
    (hm : h.store.mark = some m) : (m.after v.epoch v.index = true → v.index < m.index) ∧
    (¬ m.after v.epoch v.index = true → ¬ (m.epoch = v.epoch ∧ m.index = v.index) →
      m.index < v.index) := by
  obtain ⟨r, hr, epoch, index, -⟩ := k.mark m hm
  rw [HighWaterMark.after_iff]
  have up := ordered v hv r (k.asked r hr)
  have down := ordered r (k.asked r hr) v hv
  omega

def keep (h : VoteHistory) (v : VoteCall) (move : Bool) : VoteHistory :=
  { h with
    store := h.store.writeBatch (KvVoteHighWater.recordOps v move)
    recorded := h.recorded ++ [v] }

theorem Kept.keep (k : Kept vs h) (hv : v ∈ vs) (move : Bool)
    (free : ∀ r ∈ h.recorded, r.index ≠ v.index)
    (forward : move = true → ∀ m, h.store.mark = some m → m.index < v.index)
    (backward : move = false → ∃ m, h.store.mark = some m ∧ v.index ≤ m.index ∧
      m.index < v.index + signedVoteWindow) : Kept vs (h.keep v move) := by
  have mem {r : VoteCall} (hr : r ∈ h.recorded ++ [v]) : r ∈ h.recorded ∨ r = v := by
    simpa using hr
  have asked : ∀ r ∈ h.recorded ++ [v], r ∈ vs := by
    intro r hr
    cases mem hr with
    | inl old => exact k.asked r old
    | inr new => exact new ▸ hv
  have single : ((h.recorded ++ [v]).map VoteCall.index).Nodup := by
    rw [map_append]
    refine k.single.append (nodup_singleton _) ?_
    intro i hi new
    obtain ⟨r, hr, rfl⟩ := mem_map.1 hi
    exact free r hr (mem_singleton.1 new)
  have released : ∀ a ∈ h.released,
      ∃ r ∈ h.recorded ++ [v], r.epoch = a.epoch ∧ r.index = a.index ∧ r.digest = a.digest := by
    intro a ha
    obtain ⟨r, hr, same⟩ := k.released a ha
    exact ⟨r, mem_append_left _ hr, same⟩
  cases move with
  | true =>
    have top {m : HighWaterMark} (hm : (h.keep v true).store.mark = some m) :
        (⟨v.epoch, v.index, v.digest⟩ : HighWaterMark) = m := by
      simpa [VoteHistory.keep] using hm
    have lower : ∀ r ∈ h.recorded, r.index < v.index := by
      intro r hr
      obtain ⟨m, hm⟩ := k.marked (ne_nil_of_mem hr)
      exact (k.below m hm r hr).trans_lt (forward rfl m hm)
    refine ⟨asked, single, ?_, ?_, ?_, ?_, ?_, released⟩
    · intro _
      exact ⟨⟨v.epoch, v.index, v.digest⟩, by simp [VoteHistory.keep]⟩
    · intro m hm
      cases top hm
      exact ⟨v, by simp [VoteHistory.keep], rfl, rfl, rfl⟩
    · intro m hm r hr
      cases top hm
      cases mem hr with
      | inl old => exact (lower r old).le
      | inr new => exact new ▸ le_rfl
    · intro m hm r hr near
      cases top hm
      have far : ¬ r.index + signedVoteWindow = v.index := by
        dsimp only at near
        omega
      simp only [VoteHistory.keep, KvVoteHighWater.signed_recordOps, far, and_false, if_false]
      cases mem hr with
      | inl old =>
        obtain ⟨m, hm⟩ := k.marked (ne_nil_of_mem old)
        have behind := forward rfl m hm
        rw [if_neg (lower r old).ne]
        refine k.held m hm r old ?_
        dsimp only at near
        omega
      | inr new => rw [new, if_pos rfl]
    · intro i g hg
      simp only [VoteHistory.keep, KvVoteHighWater.signed_recordOps] at hg ⊢
      split_ifs at hg with gone here
      · cases hg
        simp [here]
      · exact mem_append_left _ (k.stored i g hg)
  | false =>
    have stays : (h.keep v false).store.mark = h.store.mark := by simp [VoteHistory.keep]
    obtain ⟨m, hm, low, near⟩ := backward rfl
    have only {m' : HighWaterMark} (hm' : (h.keep v false).store.mark = some m') : m = m' := by
      rw [stays, hm] at hm'
      exact Option.some.inj hm'
    refine ⟨asked, single, ?_, ?_, ?_, ?_, ?_, released⟩
    · exact fun _ => ⟨m, stays.trans hm⟩
    · intro m' hm'
      obtain ⟨r, hr, same⟩ := k.mark m' (stays ▸ hm')
      exact ⟨r, mem_append_left _ hr, same⟩
    · intro m' hm' r hr
      cases only hm'
      cases mem hr with
      | inl old => exact k.below m hm r old
      | inr new => exact new ▸ low
    · intro m' hm' r hr close
      cases only hm'
      simp only [VoteHistory.keep, KvVoteHighWater.signed_recordOps, Bool.false_eq_true, false_and,
        if_false]
      cases mem hr with
      | inl old =>
        rw [if_neg (free r old)]
        exact k.held m hm r old close
      | inr new => rw [new, if_pos rfl]
    · intro i g hg
      simp only [VoteHistory.keep, KvVoteHighWater.signed_recordOps, Bool.false_eq_true, false_and,
        if_false] at hg ⊢
      split_ifs at hg with here
      · cases hg
        simp [here]
      · exact mem_append_left _ (k.stored i g hg)

theorem Kept.release (k : Kept vs h) {r : VoteCall} (hr : r ∈ h.recorded)
    (same : r.epoch = v.epoch ∧ r.index = v.index ∧ r.digest = v.digest) :
    Kept vs { h with released := h.released ++ [v] } :=
  { k with
    released := by
      intro a ha
      cases mem_append.1 ha with
      | inl old => exact k.released a old
      | inr new =>
        rw [mem_singleton.1 new]
        exact ⟨r, hr, same⟩ }

theorem Kept.accept (k : Kept vs h) (ordered : Ordered vs) (hv : v ∈ vs) {ops : List VoteWrite}
    (ok : h.store.record v = .ok ops) :
    Kept vs { h with
      store := h.store.writeBatch ops
      recorded := if ops.isEmpty then h.recorded else h.recorded ++ [v] } ∧
    ∃ r ∈ (if ops.isEmpty then h.recorded else h.recorded ++ [v]),
      r.epoch = v.epoch ∧ r.index = v.index ∧ r.digest = v.digest := by
  have added : v ∈ h.recorded ++ [v] := by simp
  obtain ⟨rfl, past⟩ | ⟨m, hm, later, near, found⟩ | ⟨rfl, hm⟩ := KvVoteHighWater.record_cases ok
  · have forward : ∀ m, h.store.mark = some m → m.index < v.index := by
      intro m hm
      exact (k.reach ordered hv hm).2 (past m hm).1 (past m hm).2
    refine ⟨k.keep hv true ?_ (fun _ => forward) (fun no => nomatch no), v, added, rfl,
      rfl, rfl⟩
    intro r hr
    obtain ⟨m, hm⟩ := k.marked (ne_nil_of_mem hr)
    exact ((k.below m hm r hr).trans_lt (forward m hm)).ne
  · have low := (k.reach ordered hv hm).1 later
    cases found with
    | inl free =>
      obtain ⟨rfl, free, -⟩ := free
      refine ⟨k.keep hv false ?_ (fun no => nomatch no)
        (fun _ => ⟨m, hm, low.le, by omega⟩), v, added, rfl, rfl, rfl⟩
      intro r hr same
      have held := k.held m hm r hr (by omega)
      rw [same, free] at held
      cases held
    | inr mine =>
      obtain ⟨rfl, a, ha, epoch, digest⟩ := mine
      exact ⟨k, _, k.stored v.index a ha, epoch, rfl, digest⟩
  · obtain ⟨r, hr, same⟩ := k.mark _ hm
    exact ⟨k, r, hr, same⟩

theorem Kept.call (k : Kept vs h) (ordered : Ordered vs) {e : VoteCall × Fate} (hv : e.1 ∈ vs) :
    Kept vs (h.call e) := by
  obtain ⟨v, fate⟩ := e
  cases ok : h.store.record v with
  | error why => cases fate <;> simpa only [VoteHistory.call, ok] using k
  | ok ops =>
    obtain ⟨kept, r, hr, same⟩ := k.accept ordered hv ok
    cases fate with
    | returns =>
      simp only [VoteHistory.call, ok, if_true]
      exact kept.release hr same
    | crashesBefore => exact k
    | crashesAfter =>
      simpa only [VoteHistory.call, ok, reduceCtorEq, if_false] using kept

theorem kept_run (ordered : Ordered vs) (calls : List (VoteCall × Fate))
    (asked : ∀ e ∈ calls, e.1 ∈ vs) : Kept vs (run calls) := by
  induction calls using reverseRecOn with
  | nil => exact kept_new vs
  | append_singleton calls e ih =>
    rw [run_append]
    exact (ih (fun x hx => asked x (mem_append_left _ hx))).call ordered (asked e (by simp))

/-- Whatever calls and crashes come, no index gets two signatures, and a digest accepted behind the
mark was recorded for its index or is the predecessor in the one vote recorded for the next. -/
theorem one_signature_per_index (calls : List (VoteCall × Fate))
    (ordered : Ordered (calls.map Prod.fst)) :
    (∀ a ∈ (run calls).released, ∀ b ∈ (run calls).released, a.epoch = b.epoch →
      a.index = b.index → a.digest = b.digest) ∧
    ((run calls).recorded.map VoteCall.index).Nodup ∧
    ∀ before v fate after, calls = before ++ (v, fate) :: after →
      (∃ ops, (run before).store.record v = .ok ops) →
      (∃ m, (run before).store.mark = some m ∧ m.after v.epoch v.index = true) →
      (∃ r ∈ (run before).recorded, r.epoch = v.epoch ∧ r.index = v.index ∧ r.digest = v.digest) ∨
      ∃ r ∈ (run before).recorded, r.index = v.index + 1 ∧ r.prev = v.digest := by
  have kept := kept_run ordered calls (fun e he => mem_map_of_mem he)
  refine ⟨?_, kept.single, ?_⟩
  · intro a ha b hb epoch index
    obtain ⟨r, hr, -, ri, rd⟩ := kept.released a ha
    obtain ⟨t, ht, -, ti, td⟩ := kept.released b hb
    have one : r = t := inj_on_of_nodup_map kept.single hr ht (by omega)
    rw [← rd, ← td, one]
  · rintro before v fate after rfl ⟨ops, ok⟩ ⟨m, hm, later⟩
    have earlier : Kept ((before ++ (v, fate) :: after).map Prod.fst) (run before) :=
      kept_run ordered before (fun e he => mem_map_of_mem (mem_append_left _ he))
    obtain ⟨-, past⟩ | ⟨m', -, -, -, found⟩ | ⟨-, at'⟩ := KvVoteHighWater.record_cases ok
    · exact absurd later (past m hm).1
    · cases found with
      | inl free =>
        obtain ⟨-, -, n, hn, named⟩ := free
        exact .inr ⟨_, earlier.stored _ n hn, rfl, named⟩
      | inr mine =>
        obtain ⟨-, a, ha, epoch, digest⟩ := mine
        exact .inl ⟨_, earlier.stored _ a ha, epoch, rfl, digest⟩
    · rw [hm] at at'
      cases at'
      simp [HighWaterMark.after] at later

/-- Three checkpoints, the second signed last, with a crash after the write of the third. -/
theorem one_signature_per_index_crash :
    ∃ calls : List (VoteCall × Fate), Ordered (calls.map Prod.fst) ∧
      (run calls).released.length = 3 ∧ ∀ a ∈ (run calls).released, ∀ b ∈ (run calls).released,
        a.epoch = b.epoch → a.index = b.index → a.digest = b.digest :=
  let calls : List (VoteCall × Fate) := [(⟨0, 1, 11, 10⟩, .returns), (⟨1, 3, 13, 12⟩, .crashesAfter),
    (⟨0, 2, 12, 11⟩, .returns), (⟨0, 2, 9, 11⟩, .returns), (⟨1, 3, 13, 12⟩, .returns)]
  have ordered : Ordered (calls.map Prod.fst) := by
    unfold Ordered
    decide
  ⟨calls, ordered, by decide +kernel, (one_signature_per_index calls ordered).1⟩

end VoteHistory

end Tenzro
