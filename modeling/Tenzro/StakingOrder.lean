import Tenzro.StakingOffence

set_option autoImplicit false

/-!
# Offences reported together

While no report drops an offence from the window, the stakes after any reports are those of the
start with every offender raised to the rate of all of them.
-/
namespace Tenzro.Staking
open FixedWidth Outcome List
open Book (SumsTo)

/-! ### The rate grows with the offenders -/

theorem div_le_div_of_mul {a b c d : ℕ} (pos : 0 < b) (pos' : 0 < d) (le : a * d ≤ c * b) :
    a / b ≤ c / d := by
  rw [Nat.le_div_iff_mul_le pos']
  have whole := Nat.mul_le_mul_right d (Nat.div_mul_le_self a b)
  have scaled : a / b * d * b ≤ c * b := by
    calc a / b * d * b = a / b * b * d := by ring
      _ ≤ a * d := whole
      _ ≤ c * b := le
  exact Nat.le_of_mul_le_mul_right scaled pos

/-- An offender adds to what is divided by no more than it adds to what offended. -/
theorem correlatedSlashBps_mono {c c' t t' floorBps multiplier : ℕ} (some : 1 ≤ multiplier)
    (grows : t ≤ t') (less : t' + c ≤ t + c') (fits : t' * 10000 ≤ maxValue 128) :
    correlatedSlashBps c t floorBps multiplier ≤ correlatedSlashBps c' t' floorBps multiplier := by
  have fit : t' ≤ maxValue 128 := (Nat.le_mul_of_pos_right t' (by decide)).trans fits
  have scaled {x y : ℕ} (le : y ≤ t') :
      min (saturatingMul 128 x multiplier) y = min (x * multiplier) y := by
    rw [saturatingMul, min_assoc, min_eq_right (le.trans fit)]
  have narrow {x y : ℕ} (le : y ≤ t') : min (x * multiplier) y * 10000 ≤ maxValue 128 :=
    (Nat.mul_le_mul_right 10000 ((min_le_right _ _).trans le)).trans fits
  unfold correlatedSlashBps
  simp only [scaled grows, scaled le_rfl, if_pos (narrow grows), if_pos (narrow le_rfl)]
  have more : c' ≤ c' * multiplier := Nat.le_mul_of_pos_right c' some
  by_cases none : t' = 0
  · rw [if_pos (by omega), if_pos none]
  rw [if_neg none]
  by_cases empty : t = 0
  · have whole : min (c' * multiplier) t' = t' := by omega
    rw [if_pos empty, whole, Nat.mul_div_cancel_left 10000 (Nat.pos_of_ne_zero none)]
    omega
  · rw [if_neg empty]
    have share : min (c * multiplier) t * t' ≤ min (c' * multiplier) t' * t := by
      have step : c * multiplier + (t' - t) ≤ c' * multiplier := by
        have apart : c + (t' - t) ≤ c' := by omega
        have product := Nat.mul_le_mul_right multiplier apart
        have few : t' - t ≤ (t' - t) * multiplier := Nat.le_mul_of_pos_right _ some
        rw [Nat.add_mul] at product
        omega
      rcases le_total t (c * multiplier) with all | part
      · have whole : min (c' * multiplier) t' = t' := by omega
        rw [min_eq_right all, whole, Nat.mul_comm]
      · rw [min_eq_left part]
        rcases le_total t' (c' * multiplier) with all | part'
        · rw [min_eq_right all, Nat.mul_comm t' t]
          exact Nat.mul_le_mul_right t' part
        · rw [min_eq_left part']
          obtain ⟨u, rfl⟩ := Nat.exists_eq_add_of_le grows
          have small := Nat.mul_le_mul_right u part
          have scaled := Nat.mul_le_mul_right t step
          rw [Nat.add_sub_cancel_left] at scaled
          calc c * multiplier * (t + u) = c * multiplier * t + c * multiplier * u := Nat.mul_add ..
            _ ≤ c * multiplier * t + t * u := Nat.add_le_add_left small _
            _ = (c * multiplier + u) * t := by ring
            _ ≤ c' * multiplier * t := scaled
    have ratio := div_le_div_of_mul (a := min (c * multiplier) t * 10000)
      (c := min (c' * multiplier) t' * 10000) (Nat.pos_of_ne_zero empty)
      (Nat.pos_of_ne_zero none) (by
        calc min (c * multiplier) t * 10000 * t' = min (c * multiplier) t * t' * 10000 := by ring
          _ ≤ min (c' * multiplier) t' * t * 10000 := Nat.mul_le_mul_right _ share
          _ = min (c' * multiplier) t' * 10000 * t := by ring)
    omega

theorem floor_le_rate (c t : ℕ) {floorBps : ℕ} (multiplier : ℕ) (small : floorBps ≤ 10000) :
    floorBps ≤ correlatedSlashBps c t floorBps multiplier := by
  unfold correlatedSlashBps
  split_ifs with empty
  · exact small
  · simp only
    omega

/-! ### The offenders of a list of offences -/

/-- Offences as evidence reports them: the account and the checkpoint index. -/
abbrev Offences := List (Bytes × ℕ)

section
variable (view : StakeView) (s₀ : StakeLedger) (w₀ : List WindowOffence) (P : Offences)

/-- The entry an account starts from: the window's, or what it would be entered with. -/
def StakeLedger.starting (a : Bytes) : Offender :=
  ⟨{ (w₀.find? fun o => o.addr = a).getD
      ⟨0, a, s₀.bond a, s₀.bond a + s₀.unbondingAmount a, 0, 0, 0⟩ with index := 0 },
    s₀.bond a, s₀.unbondingAmount a⟩

def involved : Finset Bytes := (w₀.map WindowOffence.addr).toFinset ∪ (P.map Prod.fst).toFinset

def bondedBefore : ℕ := s₀.totalBonded + (w₀.map WindowOffence.takenBonded).sum

/-- What the rate of all the offences together is divided by. -/
def jointTotal : ℕ := bondedBefore s₀ w₀ + ∑ a ∈ involved w₀ P,
  ((s₀.starting w₀ a).entry.atStake - (s₀.starting w₀ a).entry.bonded)

def jointRate : ℕ :=
  correlatedSlashBps (∑ a ∈ involved w₀ P, (s₀.starting w₀ a).entry.atStake) (jointTotal s₀ w₀ P)
    (min view.minSlashBps 10000) (min view.correlationMultiplier 100)

/-- Whether a report of the account found it an offender already. -/
def Repeats (a : Bytes) : Prop :=
  s₀.offended a = true ∧ a ∈ P.map Prod.fst ∨ 2 ≤ (P.map Prod.fst).count a

instance (a : Bytes) : Decidable (Repeats s₀ P a) := by
  unfold Repeats
  infer_instance

def dueRate (a : Bytes) : ℕ :=
  if P = [] then 0
  else max (jointRate view s₀ w₀ P) (if Repeats s₀ P a then repeatFloor view else 0)

end

section
variable {view : StakeView} {s₀ s s' : StakeLedger} {w₀ w : List WindowOffence} {L P : Offences}
  {a : Bytes} {i : ℕ}

/-- The ledger after the offences `P` of `L`, where `w` are the recent offences in its window. -/
structure Tallied (view : StakeView) (s₀ : StakeLedger) (w₀ : List WindowOffence) (L P : Offences)
    (s : StakeLedger) (w : List WindowOffence) : Prop where
  recent : ∀ x ∈ L,
    s.window.filter (fun o => Nat.dist o.index x.2 ≤ view.correlationWindow) = w
  apart : (w.map WindowOffence.addr).Nodup
  addrs : (w.map WindowOffence.addr).toFinset = involved w₀ P
  stands : ∀ o ∈ w,
    (s.offender o).undated = (s₀.starting w₀ o.addr).raise (dueRate view s₀ w₀ P o.addr)
  others : ∀ a ∉ involved w₀ P, s.bond a = s₀.bond a ∧ s.unbondingAmount a = s₀.unbondingAmount a
  total : s.totalBonded + (w.map WindowOffence.takenBonded).sum = bondedBefore s₀ w₀
  offended : ∀ a, s.offended a = (s₀.offended a || decide (a ∈ P.map Prod.fst))
  near : ∀ o ∈ w, ∀ x ∈ L, Nat.dist o.index x.2 ≤ view.correlationWindow

theorem involved_snoc : involved w₀ (P ++ [(a, i)]) = insert a (involved w₀ P) := by
  unfold involved
  ext b
  simp only [map_append, map_cons, map_nil, toFinset_append, Finset.mem_union,
    mem_toFinset, Finset.mem_insert, mem_singleton]
  tauto

theorem repeats_snoc_of_ne {b : Bytes} (ne : b ≠ a) :
    Repeats s₀ (P ++ [(a, i)]) b ↔ Repeats s₀ P b := by
  unfold Repeats
  simp only [map_append, map_cons, map_nil, mem_append, mem_singleton, ne,
    or_false, count_append, count_singleton, beq_iff_eq, Ne.symm ne, if_false,
    Nat.add_zero]

theorem repeats_snoc_self : Repeats s₀ (P ++ [(a, i)]) a ↔
    (s₀.offended a || decide (a ∈ P.map Prod.fst)) = true := by
  unfold Repeats
  simp only [map_append, map_cons, map_nil, mem_append, mem_singleton,
    or_true, and_true, count_append, count_singleton, beq_self_eq_true, if_true,
    Bool.or_eq_true, decide_eq_true_eq]
  refine or_congr_right ?_
  rw [← one_le_count_iff]
  omega

theorem Repeats.snoc (again : Repeats s₀ P a) (b : Bytes) (i : ℕ) :
    Repeats s₀ (P ++ [(b, i)]) a := by
  by_cases ne : a = b
  · subst ne
    rw [repeats_snoc_self, Bool.or_eq_true, decide_eq_true_eq]
    refine again.imp And.left fun twice => ?_
    rw [← one_le_count_iff]
    omega
  · exact (repeats_snoc_of_ne ne).2 again

theorem find_addr {o : WindowOffence} (apart : (w.map WindowOffence.addr).Nodup) (mem : o ∈ w) :
    w.find? (fun p => p.addr = o.addr) = some o := by
  induction w with
  | nil => cases mem
  | cons p rest ih =>
    obtain ⟨away, apart⟩ := nodup_cons.1 apart
    rcases mem_cons.1 mem with rfl | mem
    · exact find?_cons_of_pos (decide_eq_true rfl)
    · have ne : ¬ p.addr = o.addr := fun same => away (same ▸ mem_map_of_mem mem)
      rw [find?_cons_of_neg (by simpa using ne)]
      exact ih apart mem

theorem tallied_start
    (recent : ∀ x ∈ L,
      s₀.window.filter (fun o => Nat.dist o.index x.2 ≤ view.correlationWindow) = w₀)
    (apart : (w₀.map WindowOffence.addr).Nodup)
    (near : ∀ o ∈ w₀, ∀ x ∈ L, Nat.dist o.index x.2 ≤ view.correlationWindow) :
    Tallied view s₀ w₀ L [] s₀ w₀ where
  recent := recent
  apart := apart
  addrs := by
    unfold involved
    simp
  stands o mem := by
    have found := find_addr apart mem
    have still : dueRate view s₀ w₀ [] o.addr = 0 := if_pos rfl
    rw [still]
    unfold StakeLedger.starting StakeLedger.offender Offender.undated
    rw [found]
    exact (if_pos (Nat.zero_le _)).symm
  others _ _ := ⟨rfl, rfl⟩
  total := rfl
  offended a := by simp
  near := near

theorem starting_absent (absent : a ∉ w₀.map WindowOffence.addr) : s₀.starting w₀ a =
    ⟨⟨0, a, s₀.bond a, s₀.bond a + s₀.unbondingAmount a, 0, 0, 0⟩, s₀.bond a,
      s₀.unbondingAmount a⟩ := by
  have missing : w₀.find? (fun o => o.addr = a) = none := by
    refine find?_eq_none.2 fun o mem => ?_
    have ne : o.addr ≠ a := fun same => absent (same ▸ mem_map_of_mem mem)
    simpa using ne
  unfold StakeLedger.starting
  rw [missing]
  rfl

theorem Tallied.noted (tallied : Tallied view s₀ w₀ L P s w) (fits : ∀ a,
      s₀.bond a + s₀.unbondingAmount a ≤ maxValue 128) {o : WindowOffence}
    (mem : o ∈ s.noted w a i) :
    (s.offender o).undated = (s₀.starting w₀ o.addr).raise
      (if o.addr ∈ involved w₀ P then dueRate view s₀ w₀ P o.addr else 0) := by
  have inside {p : WindowOffence} (mem : p ∈ w) : p.addr ∈ involved w₀ P := by
    rw [← tallied.addrs]
    exact mem_toFinset.2 (mem_map_of_mem mem)
  rcases mem_noteOffence tallied.apart mem with ⟨old, -⟩ | ⟨p, old, -, rfl⟩ | ⟨absent, rfl⟩
  · rw [if_pos (inside old)]
    exact tallied.stands o old
  · have same : p.addr ∈ involved w₀ P := inside old
    change (s.offender p).undated = _
    rw [tallied.stands p old]
    exact congrArg _ (if_pos same).symm
  · have out : a ∉ involved w₀ P := by
      rw [← tallied.addrs]
      exact fun mem => absent (mem_toFinset.1 mem)
    obtain ⟨bond, unbonding⟩ := tallied.others a out
    simp only
    have missing : a ∉ w₀.map WindowOffence.addr := fun mem =>
      out (Finset.mem_union_left _ (mem_toFinset.2 mem))
    rw [if_neg out, starting_absent missing]
    unfold StakeLedger.offender Offender.undated
    simp only [bond, unbonding, saturatingAdd_exact (fits a)]
    exact (if_pos (Nat.zero_le _)).symm

theorem Tallied.addrs_noted (tallied : Tallied view s₀ w₀ L P s w) :
    ((s.noted w a i).map WindowOffence.addr).toFinset = involved w₀ (P ++ [(a, i)]) := by
  rw [involved_snoc, ← tallied.addrs]
  unfold StakeLedger.noted
  rw [noteOffence_addrs]
  split_ifs with there
  · exact (Finset.insert_eq_of_mem (mem_toFinset.2 there)).symm
  · ext b
    simp only [mem_toFinset, mem_append, mem_singleton, Finset.mem_insert]
    exact or_comm

theorem windowRate_eq_jointRate {w : List WindowOffence} {t : ℕ}
    (apart : (w.map WindowOffence.addr).Nodup)
    (addrs : (w.map WindowOffence.addr).toFinset = involved w₀ P)
    (entry : ∀ o ∈ w, o.atStake = (s₀.starting w₀ o.addr).entry.atStake ∧
      o.bonded = (s₀.starting w₀ o.addr).entry.bonded)
    (total : t + (w.map WindowOffence.takenBonded).sum = bondedBefore s₀ w₀) :
    t + (w.map fun o => o.takenBonded + (o.atStake - o.bonded)).sum = jointTotal s₀ w₀ P ∧
      windowRate view t w = jointRate view s₀ w₀ P := by
  have sum (f : Bytes → ℕ) : (w.map fun o => f o.addr).sum = ∑ b ∈ involved w₀ P, f b := by
    rw [← addrs, sum_toFinset f apart, map_map]
    rfl
  have stake : (w.map WindowOffence.atStake).sum =
      ∑ b ∈ involved w₀ P, (s₀.starting w₀ b).entry.atStake := by
    rw [← sum]
    exact congrArg _ (map_congr_left fun o mem => (entry o mem).1)
  have left : (w.map fun o => o.atStake - o.bonded).sum = ∑ b ∈ involved w₀ P,
      ((s₀.starting w₀ b).entry.atStake - (s₀.starting w₀ b).entry.bonded) := by
    rw [← sum]
    refine congrArg _ (map_congr_left fun o mem => ?_)
    rw [(entry o mem).1, (entry o mem).2]
  have divided : t + (w.map fun o => o.takenBonded + (o.atStake - o.bonded)).sum =
      jointTotal s₀ w₀ P := by
    rw [sum_map_add, left, ← Nat.add_assoc, total]
    rfl
  refine ⟨divided, ?_⟩
  unfold windowRate jointRate
  rw [divided, stake]

theorem entry_of_raise {o : WindowOffence} {r : ℕ}
    (same : (s.offender o).undated = (s₀.starting w₀ o.addr).raise r) :
    o.atStake = (s₀.starting w₀ o.addr).entry.atStake ∧
      o.bonded = (s₀.starting w₀ o.addr).entry.bonded := by
  have same := congrArg Offender.entry same
  exact ⟨(congrArg WindowOffence.atStake same).trans (Offender.raise_atStake ..),
    (congrArg WindowOffence.bonded same).trans (Offender.raise_bonded ..)⟩

theorem Tallied.windowRate_noted (tallied : Tallied view s₀ w₀ L P s w) (stakes : ∀ a,
      s₀.bond a + s₀.unbondingAmount a ≤ maxValue 128) :
    s.totalBonded + ((s.noted w a i).map fun o => o.takenBonded + (o.atStake - o.bonded)).sum =
        jointTotal s₀ w₀ (P ++ [(a, i)]) ∧
      windowRate view s.totalBonded (s.noted w a i) =
        jointRate view s₀ w₀ (P ++ [(a, i)]) := by
  refine windowRate_eq_jointRate (noted_apart tallied.apart) tallied.addrs_noted
    (fun o mem => entry_of_raise (tallied.noted stakes mem)) ?_
  have taken : ((s.noted w a i).map WindowOffence.takenBonded).sum =
      (w.map WindowOffence.takenBonded).sum := noteOffence_takenBonded
  rw [taken]
  exact tallied.total

theorem Tallied.windowRate_eq (tallied : Tallied view s₀ w₀ L P s w) :
    windowRate view s.totalBonded w = jointRate view s₀ w₀ P :=
  (windowRate_eq_jointRate tallied.apart tallied.addrs
    (fun o mem => entry_of_raise (tallied.stands o mem)) tallied.total).2

theorem jointRate_mono {Q : Offences} (more : involved w₀ P ⊆ involved w₀ Q)
    (some : 1 ≤ view.correlationMultiplier) (fits : jointTotal s₀ w₀ Q * 10000 ≤ maxValue 128) :
    jointRate view s₀ w₀ P ≤ jointRate view s₀ w₀ Q := by
  have stake := Finset.sum_sdiff (f := fun b => (s₀.starting w₀ b).entry.atStake) more
  have left := Finset.sum_sdiff (f := fun b =>
    (s₀.starting w₀ b).entry.atStake - (s₀.starting w₀ b).entry.bonded) more
  have part : ∑ b ∈ involved w₀ Q \ involved w₀ P,
        ((s₀.starting w₀ b).entry.atStake - (s₀.starting w₀ b).entry.bonded) ≤
      ∑ b ∈ involved w₀ Q \ involved w₀ P, (s₀.starting w₀ b).entry.atStake :=
    Finset.sum_le_sum fun b _ => Nat.sub_le _ _
  unfold jointRate
  refine correlatedSlashBps_mono (by omega) ?_ ?_ fits
  · unfold jointTotal
    omega
  · unfold jointTotal
    omega

theorem not_repeats_nil : ¬ Repeats s₀ [] a := by simp [Repeats]

theorem dueRate_snoc {b : Bytes} (tallied : Tallied view s₀ w₀ L P s w)
    (some : 1 ≤ view.correlationMultiplier)
    (fits : jointTotal s₀ w₀ (P ++ [(a, i)]) * 10000 ≤ maxValue 128)
    (rated : windowRate view s.totalBonded (s.noted w a i) =
      jointRate view s₀ w₀ (P ++ [(a, i)])) :
    max (if b ∈ involved w₀ P then dueRate view s₀ w₀ P b else 0)
        (s.reportRate view (s.noted w a i) a b) =
      dueRate view s₀ w₀ (P ++ [(a, i)]) b := by
  have grows : jointRate view s₀ w₀ P ≤ jointRate view s₀ w₀ (P ++ [(a, i)]) :=
    jointRate_mono (by rw [involved_snoc]; exact Finset.subset_insert _ _) some fits
  have floor : min view.minSlashBps 10000 ≤ jointRate view s₀ w₀ (P ++ [(a, i)]) :=
    floor_le_rate _ _ _ (min_le_right _ _)
  have now : dueRate view s₀ w₀ (P ++ [(a, i)]) b = max (jointRate view s₀ w₀ (P ++ [(a, i)]))
      (if Repeats s₀ (P ++ [(a, i)]) b then repeatFloor view else 0) := if_neg (by simp)
  have before : (if b ∈ involved w₀ P then dueRate view s₀ w₀ P b else 0) ≤
      max (jointRate view s₀ w₀ P) (if Repeats s₀ P b then repeatFloor view else 0) := by
    unfold dueRate
    split_ifs <;> omega
  have due (repeats : Repeats s₀ P b) :
      (if b ∈ involved w₀ P then dueRate view s₀ w₀ P b else 0) =
        max (jointRate view s₀ w₀ P) (repeatFloor view) := by
    have some_P : P ≠ [] := fun none => not_repeats_nil (none ▸ repeats)
    have there : b ∈ involved w₀ P := by
      refine Finset.mem_union_right _ (mem_toFinset.2 ?_)
      refine repeats.elim And.right fun twice => ?_
      rw [← one_le_count_iff]
      omega
    unfold dueRate
    rw [if_pos there, if_neg some_P, if_pos repeats]
  set old := if b ∈ involved w₀ P then dueRate view s₀ w₀ P b else 0
  unfold StakeLedger.reportRate
  rw [now, rated]
  by_cases same : b = a
  · subst same
    have again : s.offended b = true ↔ Repeats s₀ (P ++ [(b, i)]) b := by
      rw [tallied.offended, repeats_snoc_self]
    have kept : Repeats s₀ P b → Repeats s₀ (P ++ [(b, i)]) b := fun h => h.snoc b i
    rw [if_pos rfl]
    by_cases repeats : Repeats s₀ (P ++ [(b, i)]) b
    · rw [if_pos (again.2 repeats), if_pos repeats]
      split_ifs at before <;> omega
    · rw [if_neg (mt again.1 repeats), if_neg repeats]
      rw [if_neg (mt kept repeats)] at before
      omega
  · rw [if_neg same]
    simp only [repeats_snoc_of_ne same]
    by_cases repeats : Repeats s₀ P b
    · rw [if_pos repeats, due repeats]
      omega
    · rw [if_neg repeats] at before ⊢
      omega

theorem Tallied.step (tallied : Tallied view s₀ w₀ L P s w) (mem : (a, i) ∈ L)
    (together : ∀ x ∈ L, ∀ y ∈ L, Nat.dist x.2 y.2 ≤ view.correlationWindow)
    (stakes : ∀ a, s₀.bond a + s₀.unbondingAmount a ≤ maxValue 128)
    (some : 1 ≤ view.correlationMultiplier)
    (fits : jointTotal s₀ w₀ (P ++ [(a, i)]) * 10000 ≤ maxValue 128)
    (reported : Reported s s' view w a i) :
    Tallied view s₀ w₀ L (P ++ [(a, i)]) s' s'.window := by
  have rated := (tallied.windowRate_noted (a := a) (i := i) stakes).2
  set rate := fun o : WindowOffence => s.reportRate view (s.noted w a i) a o.addr
  have topped : ToppedUp s s' (s.noted w a i) s'.window rate := reported.topped
  have addrs : s'.window.map WindowOffence.addr = (s.noted w a i).map WindowOffence.addr := by
    rw [topped.window, map_map]
    exact map_congr_left fun o _ => Offender.raise_addr ..
  have near : ∀ o ∈ s'.window, ∀ x ∈ L, Nat.dist o.index x.2 ≤ view.correlationWindow := by
    intro o old x mem'
    rw [topped.window] at old
    obtain ⟨p, noted, rfl⟩ := mem_map.1 old
    rw [Offender.raise_index]
    rcases mem_noteOffence tallied.apart noted with ⟨held, -⟩ | ⟨q, held, -, rfl⟩ | ⟨-, rfl⟩
    · exact tallied.near p held x mem'
    · change Nat.dist (max q.index i) x.2 ≤ _
      rcases le_total q.index i with later | earlier
      · rw [max_eq_right later]
        exact together _ mem x mem'
      · rw [max_eq_left earlier]
        exact tallied.near q held x mem'
    · exact together _ mem x mem'
  have members : (s'.window.map WindowOffence.addr).toFinset = involved w₀ (P ++ [(a, i)]) := by
    rw [addrs]
    exact tallied.addrs_noted
  refine ⟨fun x mem' => ?_, ?_, members, fun o old => ?_, fun b out => ?_, ?_, fun b => ?_, near⟩
  · exact filter_eq_self.2 fun o old => decide_eq_true (near o old x mem')
  · rw [addrs]
    exact noted_apart tallied.apart
  · rw [topped.window] at old
    obtain ⟨p, noted, rfl⟩ := mem_map.1 old
    obtain ⟨bond, unbonding⟩ := topped.own p noted
    have raised : s'.offender ((s.offender p).raise (rate p)).entry =
        (s.offender p).raise (rate p) := by
      unfold StakeLedger.offender at bond unbonding ⊢
      rw [Offender.raise_addr, bond, unbonding]
    have owner : ((s.offender p).raise (rate p)).entry.addr = p.addr := Offender.raise_addr ..
    rw [raised, owner, ← Offender.undated_raise, tallied.noted stakes noted,
      Offender.raise_raise]
    exact congrArg _ (dueRate_snoc tallied some fits rated)
  · rw [involved_snoc, Finset.mem_insert, not_or] at out
    obtain ⟨bond, unbonding⟩ := tallied.others b out.2
    rw [← bond, ← unbonding]
    refine topped.others b fun o old same => ?_
    have inside : o.addr ∈ involved w₀ (P ++ [(a, i)]) := by
      rw [← tallied.addrs_noted (a := a) (i := i)]
      exact mem_toFinset.2 (mem_map_of_mem old)
    rw [involved_snoc, Finset.mem_insert, same] at inside
    exact inside.elim out.1 out.2
  · have same : ((s.noted w a i).map WindowOffence.takenBonded).sum =
        (w.map WindowOffence.takenBonded).sum := noteOffence_takenBonded
    rw [topped.total, same]
    exact tallied.total
  · rw [reported.offended]
    by_cases own : b = a
    · rw [own, Function.update_self]
      simp
    · rw [Function.update_of_ne own, tallied.offended, map_append, map_singleton]
      simp only [mem_append, mem_singleton, own, or_false]

end

end Tenzro.Staking
