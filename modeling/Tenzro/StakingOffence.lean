import Tenzro.StakingSound

set_option autoImplicit false
set_option linter.dupNamespace false

/-!
# One report of an equivocation

What a report takes from each offender in the window, and the rate it takes it at.
-/
namespace Tenzro.Staking
open FixedWidth Outcome List Function
open Book (SumsTo)

/-! ### Raising an offender's rate -/

@[ext] structure Offender where
  entry : WindowOffence
  bond : ℕ
  unbonding : ℕ

theorem bpsShare_mono (amount : ℕ) {r r' : ℕ} (le : r ≤ r') :
    bpsShare amount r ≤ bpsShare amount r' := by
  have bps : min r 10000 ≤ min r' 10000 := min_le_min_right _ le
  exact Nat.add_le_add (Nat.mul_le_mul_left _ bps)
    (Nat.div_le_div_right (Nat.mul_le_mul_left _ bps))

theorem drawn_bond {owed more : ℕ} (le : owed ≤ more) (bond unbonding : ℕ) :
    min owed bond + min (more - (min owed bond + min (owed - min owed bond) unbonding))
      (bond - min owed bond) = min more bond := by
  rcases le_total owed bond with few | all
  · rw [min_eq_left few, Nat.sub_self, Nat.zero_min]
    omega
  · rw [min_eq_right all, Nat.sub_self, Nat.min_zero, min_eq_right (all.trans le), Nat.add_zero]

theorem drawn_unbonding {owed more : ℕ} (le : owed ≤ more) (bond unbonding : ℕ) :
    min (owed - min owed bond) unbonding +
      min (more - (min owed bond + min (owed - min owed bond) unbonding) -
        min (more - (min owed bond + min (owed - min owed bond) unbonding))
          (bond - min owed bond)) (unbonding - min (owed - min owed bond) unbonding) =
      min (more - min more bond) unbonding := by
  rcases le_total owed bond with few | all
  · rw [min_eq_left few, Nat.sub_self, Nat.zero_min]
    omega
  · rw [min_eq_right all, Nat.sub_self, Nat.min_zero, min_eq_right (all.trans le)]
    omega

namespace Offender

def raise (x : Offender) (rate : ℕ) : Offender :=
  if rate ≤ x.entry.appliedBps then x
  else
    let owed := bpsShare x.entry.atStake rate - x.entry.taken
    let fromBond := min owed x.bond
    let fromUnbonding := min (owed - fromBond) x.unbonding
    { entry := { x.entry with
        appliedBps := rate
        taken := x.entry.taken + (fromBond + fromUnbonding)
        takenBonded := x.entry.takenBonded + fromBond }
      bond := x.bond - fromBond
      unbonding := x.unbonding - fromUnbonding }

section
variable (x : Offender) (r r' : ℕ)

theorem raise_raise : (x.raise r).raise r' = x.raise (max r r') := by
  by_cases low : r ≤ x.entry.appliedBps
  · have still : x.raise r = x := if_pos low
    rw [still]
    rcases le_total r r' with up | down
    · rw [max_eq_right up]
    · rw [max_eq_left down, still]
      exact if_pos (down.trans low)
  · have once : (x.raise r).entry.appliedBps = r := by
      unfold raise
      rw [if_neg low]
    rcases le_or_gt r' r with down | up
    · rw [max_eq_left down]
      exact if_pos (once.symm ▸ down)
    · have more := bpsShare_mono x.entry.atStake up.le
      rw [max_eq_right up.le]
      unfold raise at once ⊢
      rw [if_neg low, if_neg (by simpa using up), if_neg (by omega)]
      have owed : bpsShare x.entry.atStake r - x.entry.taken ≤
          bpsShare x.entry.atStake r' - x.entry.taken := Nat.sub_le_sub_right more _
      have bond := drawn_bond owed x.bond x.unbonding
      have unbonding := drawn_unbonding owed x.bond x.unbonding
      simp only [Offender.mk.injEq, WindowOffence.mk.injEq, true_and, Nat.sub_add_eq _ x.entry.taken]
      refine ⟨⟨?_, ?_⟩, ?_, ?_⟩
      · rw [Nat.add_assoc, Nat.add_add_add_comm, bond, unbonding]
      · rw [Nat.add_assoc, bond]
      · rw [Nat.sub_sub, bond]
      · rw [Nat.sub_sub, unbonding]

theorem raise_index : (x.raise r).entry.index = x.entry.index := by
  unfold raise
  split_ifs <;> rfl

theorem raise_addr : (x.raise r).entry.addr = x.entry.addr := by
  unfold raise
  split_ifs <;> rfl

theorem raise_bonded : (x.raise r).entry.bonded = x.entry.bonded := by
  unfold raise
  split_ifs <;> rfl

theorem raise_atStake : (x.raise r).entry.atStake = x.entry.atStake := by
  unfold raise
  split_ifs <;> rfl

theorem raise_applied : (x.raise r).entry.appliedBps = max x.entry.appliedBps r := by
  unfold raise
  split_ifs with low
  · exact (max_eq_left low).symm
  · exact (max_eq_right (not_le.1 low).le).symm

end

/-- The offender as it stands, whatever the date of its offence. -/
def undated (x : Offender) : Offender := { x with entry := { x.entry with index := 0 } }

theorem undated_raise (x : Offender) (r : ℕ) : x.undated.raise r = (x.raise r).undated := by
  unfold undated raise
  simp only
  split_ifs <;> rfl

end Offender

/-! ### The pass over the window -/

def StakeLedger.offender (s : StakeLedger) (o : WindowOffence) : Offender :=
  ⟨o, s.bond o.addr, s.unbondingAmount o.addr⟩

section
variable {s s' : StakeLedger} {addr a : Bytes}

structure Removed (s s' : StakeLedger) (addr : Bytes) (fromBond fromUnbonding : ℕ) : Prop where
  bond : s'.bond = update s.bond addr (s.bond addr - fromBond)
  unbonding : s'.unbondingAmount =
    update s.unbondingAmount addr (s.unbondingAmount addr - fromUnbonding)
  totalBonded : s'.totalBonded = s.totalBonded - fromBond
  offended : s'.offended = s.offended

/-- Only liens and balances moved. -/
structure SameStakes (s s' : StakeLedger) : Prop where
  bond : s'.bond = s.bond
  unbonding : s'.unbonding = s.unbonding
  totalBonded : s'.totalBonded = s.totalBonded
  offended : s'.offended = s.offended

theorem scaleSponsored_same (b f : ℕ) : SameStakes s (s.scaleSponsored addr b f) := by
  unfold StakeLedger.scaleSponsored
  simp only
  split_ifs <;> exact ⟨rfl, rfl, rfl, rfl⟩

theorem scaleSponsoredUnbonding_same (u : Option Unbonding) (f : ℕ) :
    SameStakes s (s.scaleSponsoredUnbonding addr u f) := by
  unfold StakeLedger.scaleSponsoredUnbonding
  cases u with
  | none => exact ⟨rfl, rfl, rfl, rfl⟩
  | some u =>
    simp only
    split_ifs <;> exact ⟨rfl, rfl, rfl, rfl⟩

theorem SameStakes.trans {s'' : StakeLedger} (first : SameStakes s s')
    (second : SameStakes s' s'') : SameStakes s s'' :=
  ⟨second.bond.trans first.bond, second.unbonding.trans first.unbonding,
    second.totalBonded.trans first.totalBonded, second.offended.trans first.offended⟩

theorem SameStakes.unbondingAmount (same : SameStakes s s') :
    s'.unbondingAmount = s.unbondingAmount := by
  funext a
  unfold StakeLedger.unbondingAmount
  rw [same.unbonding]

theorem lowered_removed {f g : ℕ} (enough : g ≤ s.unbondingAmount addr) :
    Removed s ((s.lowerBond addr (s.bond addr) f).lowerUnbonding addr (s.unbonding addr) g)
      addr f g := by
  have bonds : (s.lowerBond addr (s.bond addr) f).bond =
        update s.bond addr (s.bond addr - f) ∧
      (s.lowerBond addr (s.bond addr) f).unbonding = s.unbonding ∧
      (s.lowerBond addr (s.bond addr) f).totalBonded = s.totalBonded - f ∧
      (s.lowerBond addr (s.bond addr) f).offended = s.offended := by
    unfold StakeLedger.lowerBond
    split_ifs with some
    · exact ⟨rfl, rfl, rfl, rfl⟩
    · have nothing : f = 0 := by omega
      rw [nothing, Nat.sub_zero, Nat.sub_zero, update_eq_self]
      exact ⟨rfl, rfl, rfl, rfl⟩
  set m := s.lowerBond addr (s.bond addr) f
  obtain ⟨bond, unbonding, total, offended⟩ := bonds
  have amounts : m.unbondingAmount = s.unbondingAmount := by
    funext a
    unfold StakeLedger.unbondingAmount
    rw [unbonding]
  have still (nothing : g = 0) :
      m.unbondingAmount = update s.unbondingAmount addr (s.unbondingAmount addr - g) := by
    rw [nothing, Nat.sub_zero, update_eq_self, amounts]
  unfold StakeLedger.lowerUnbonding
  cases found : s.unbonding addr with
  | none =>
    have amount : s.unbondingAmount addr = 0 := by
      unfold StakeLedger.unbondingAmount
      rw [found]
      rfl
    exact ⟨bond, still (by omega), total, offended⟩
  | some u =>
    have amount : s.unbondingAmount addr = u.amount := by
      unfold StakeLedger.unbondingAmount
      rw [found]
      rfl
    simp only
    split_ifs with some
    · refine ⟨bond, ?_, total, offended⟩
      rw [amount, ← amounts]
      exact unbondingAmount_writeUnbonding
    · exact ⟨bond, still (by omega), total, offended⟩

variable [StakeAccounts] {fromBond fromUnbonding : ℕ}

theorem remove_removed
    (ran : s.remove addr (s.bond addr) (s.unbonding addr) fromBond fromUnbonding = .ok s')
    (enough : fromUnbonding ≤ s.unbondingAmount addr) :
    Removed s s' addr fromBond fromUnbonding := by
  unfold StakeLedger.remove at ran
  simp only at ran
  split_ifs at ran with nothing
  · obtain rfl := Except.ok.inj ran
    have none : fromBond = 0 ∧ fromUnbonding = 0 := by omega
    refine ⟨?_, ?_, by omega, rfl⟩
    · rw [none.1, Nat.sub_zero, update_eq_self]
    · rw [none.2, Nat.sub_zero, update_eq_self]
  · obtain ⟨newVault, -, ran⟩ := bind_ok.1 ran
    obtain rfl := pure_ok.1 ran
    set paid := s.setBalance vaultAddress newVault
    set m₁ := paid.scaleSponsored addr (s.bond addr) fromBond
    set m₂ := m₁.scaleSponsoredUnbonding addr (s.unbonding addr) fromUnbonding
    have first : SameStakes paid m₁ := scaleSponsored_same _ _
    have second : SameStakes m₁ m₂ := scaleSponsoredUnbonding_same _ _
    have paying : SameStakes s paid := ⟨rfl, rfl, rfl, rfl⟩
    have same : SameStakes s m₂ := (paying.trans first).trans second
    have lowered : Removed m₂ ((m₂.lowerBond addr (m₂.bond addr) fromBond).lowerUnbonding addr
        (m₂.unbonding addr) fromUnbonding) addr fromBond fromUnbonding := by
      refine lowered_removed ?_
      rw [same.unbondingAmount]
      exact enough
    rw [same.bond, same.unbonding] at lowered
    refine ⟨lowered.bond.trans ?_, lowered.unbonding.trans ?_, lowered.totalBonded.trans ?_,
      lowered.offended.trans same.offended⟩
    · rw [same.bond]
    · rw [same.unbondingAmount]
    · rw [same.totalBonded]

theorem take_removed {owed : ℕ} (ran : s.take addr owed = .ok (s', fromBond, fromUnbonding)) :
    fromBond = min owed (s.bond addr) ∧
      fromUnbonding = min (owed - fromBond) (s.unbondingAmount addr) ∧
      Removed s s' addr fromBond fromUnbonding := by
  obtain ⟨s₁, removed, ran⟩ := bind_ok.1 ran
  cases pure_ok.1 ran
  exact ⟨rfl, rfl, remove_removed removed (min_le_right _ _)⟩

/-- What the pass over the window did: every offender in it raised to its rate. -/
structure ToppedUp (s s' : StakeLedger) (w w' : List WindowOffence) (rate : WindowOffence → ℕ) :
    Prop where
  window : w' = w.map fun o => ((s.offender o).raise (rate o)).entry
  own : ∀ o ∈ w, s'.bond o.addr = ((s.offender o).raise (rate o)).bond ∧
    s'.unbondingAmount o.addr = ((s.offender o).raise (rate o)).unbonding
  others : ∀ a, (∀ o ∈ w, o.addr ≠ a) →
    s'.bond a = s.bond a ∧ s'.unbondingAmount a = s.unbondingAmount a
  total : s'.totalBonded + (w'.map WindowOffence.takenBonded).sum =
    s.totalBonded + (w.map WindowOffence.takenBonded).sum

theorem topUp_offended {rate : WindowOffence → ℕ} {w w' : List WindowOffence} {before taken : ℕ}
    (ran : StakeLedger.topUp s rate before w = .ok (s', w', taken)) :
    s'.offended = s.offended := by
  induction w generalizing s w' before taken with
  | nil =>
    cases ran
    rfl
  | cons o rest ih =>
    unfold StakeLedger.topUp at ran
    split_ifs at ran
    · obtain ⟨⟨s₁, rest', taken'⟩, later, ran⟩ := bind_ok.1 ran
      cases pure_ok.1 ran
      exact ih later
    · obtain ⟨⟨s₁, fromBond, fromUnbonding⟩, took, ran⟩ := bind_ok.1 ran
      obtain ⟨⟨s₂, rest', taken'⟩, later, ran⟩ := bind_ok.1 ran
      cases pure_ok.1 ran
      exact (ih later).trans (take_removed took).2.2.offended

theorem topUp_ok {rate : WindowOffence → ℕ} {w w' : List WindowOffence} {before taken : ℕ}
    (ran : StakeLedger.topUp s rate before w = .ok (s', w', taken))
    (apart : (w.map WindowOffence.addr).Nodup) (fair : ∀ o ∈ w, o.Fair)
    (sums : SumsTo s.bond s.totalBonded) : ToppedUp s s' w w' rate := by
  induction w generalizing s w' before taken with
  | nil =>
    cases ran
    exact ⟨rfl, fun o mem => absurd mem not_mem_nil, fun a _ => ⟨rfl, rfl⟩, rfl⟩
  | cons o rest ih =>
    obtain ⟨away, apart⟩ := nodup_cons.1 apart
    obtain ⟨fair_o, fair⟩ := forall_mem_cons.1 fair
    have other : ∀ p ∈ rest, p.addr ≠ o.addr := fun p mem same =>
      away (same ▸ mem_map_of_mem mem)
    unfold StakeLedger.topUp at ran
    split_ifs at ran with low
    · obtain ⟨⟨s₁, rest', taken'⟩, later, ran⟩ := bind_ok.1 ran
      cases pure_ok.1 ran
      have topped := ih later apart fair sums
      have still : (s.offender o).raise (rate o) = s.offender o := if_pos low
      refine ⟨?_, fun p mem => ?_, fun a none => ?_, ?_⟩
      · rw [map_cons, still, topped.window]
        rfl
      · rcases mem_cons.1 mem with rfl | mem
        · rw [still]
          exact topped.others _ other
        · exact topped.own p mem
      · exact topped.others a fun p mem => none p (mem_cons_of_mem _ mem)
      · have total := topped.total
        rw [map_cons, map_cons, sum_cons, sum_cons]
        omega
    · obtain ⟨⟨s₁, fromBond, fromUnbonding⟩, took, ran⟩ := bind_ok.1 ran
      obtain ⟨⟨s₂, rest', taken'⟩, later, ran⟩ := bind_ok.1 ran
      cases pure_ok.1 ran
      obtain ⟨bonded, unbonded, removed⟩ := take_removed took
      have raised : (s.offender o).raise (rate o) = ⟨{ o with
          appliedBps := rate o
          taken := o.taken + (fromBond + fromUnbonding)
          takenBonded := o.takenBonded + fromBond }, s.bond o.addr - fromBond,
          s.unbondingAmount o.addr - fromUnbonding⟩ := by
        rw [unbonded, bonded]
        exact if_neg low
      have enough := sums.le o.addr
      have within : fromBond ≤ s.bond o.addr := bonded ▸ min_le_right _ _
      have exact_taken : saturatingAdd 128 o.taken (saturatingAdd 128 fromBond fromUnbonding) =
          o.taken + (fromBond + fromUnbonding) := by
        have due := bpsShare_le o.atStake (rate o)
        have before := fair_o.taken
        have stake := fair_o.fits
        have inner : saturatingAdd 128 fromBond fromUnbonding = fromBond + fromUnbonding :=
          saturatingAdd_exact (by omega)
        rw [inner, saturatingAdd_exact (by omega)]
      have sums₁ : SumsTo s₁.bond s₁.totalBonded := by
        rw [removed.bond, removed.totalBonded]
        exact sums.update (by omega)
      have same : ∀ a, a ≠ o.addr → s₁.bond a = s.bond a ∧
          s₁.unbondingAmount a = s.unbondingAmount a := fun a ne => by
        rw [removed.bond, removed.unbonding, update_of_ne ne, update_of_ne ne]
        exact ⟨rfl, rfl⟩
      have offenders : ∀ p ∈ rest, s₁.offender p = s.offender p := fun p mem => by
        obtain ⟨bond, unbonding⟩ := same p.addr (other p mem)
        unfold StakeLedger.offender
        rw [bond, unbonding]
      have topped := ih later apart fair sums₁
      refine ⟨?_, fun p mem => ?_, fun a none => ?_, ?_⟩
      · rw [map_cons, raised, topped.window, exact_taken]
        exact congrArg _ (map_congr_left fun p mem => by rw [offenders p mem])
      · rcases mem_cons.1 mem with rfl | mem
        · obtain ⟨bond, unbonding⟩ := topped.others _ other
          rw [bond, unbonding, removed.bond, removed.unbonding, update_self,
            update_self, raised]
          exact ⟨rfl, rfl⟩
        · rw [← offenders p mem]
          exact topped.own p mem
      · obtain ⟨bond, unbonding⟩ := topped.others a fun p mem => none p (mem_cons_of_mem _ mem)
        have ne : a ≠ o.addr := Ne.symm (none o mem_cons_self)
        rw [bond, unbonding]
        exact same a ne
      · have total := topped.total
        rw [removed.totalBonded] at total
        rw [map_cons, map_cons, sum_cons, sum_cons]
        change s'.totalBonded + (o.takenBonded + fromBond + _) = _
        omega

end

/-! ### The window's rate -/

theorem correlatedSlashBps_saturated {c t : ℕ} (fits : t ≤ maxValue 128) (floorBps multiplier : ℕ) :
    correlatedSlashBps (min c (maxValue 128)) t floorBps multiplier =
      correlatedSlashBps c t floorBps multiplier := by
  have scaled : min (saturatingMul 128 (min c (maxValue 128)) multiplier) t =
      min (saturatingMul 128 c multiplier) t := by
    rcases le_total c (maxValue 128) with small | large
    · rw [min_eq_left small]
    · rw [min_eq_right large]
      unfold saturatingMul
      rcases Nat.eq_zero_or_pos multiplier with rfl | some
      · rfl
      · have wide := Nat.le_mul_of_pos_right (maxValue 128) some
        have wider := Nat.le_mul_of_pos_right c some
        omega
  unfold correlatedSlashBps
  simp only [scaled]

def windowRate (view : StakeView) (totalBonded : ℕ) (w : List WindowOffence) : ℕ :=
  correlatedSlashBps (w.map WindowOffence.atStake).sum
    (totalBonded + (w.map fun o => o.takenBonded + (o.atStake - o.bonded)).sum)
    (min view.minSlashBps 10000) (min view.correlationMultiplier 100)

theorem windowRate_eq (view : StakeView) {totalBonded : ℕ} {w : List WindowOffence}
    (fits : totalBonded + (w.map fun o => o.takenBonded + (o.atStake - o.bonded)).sum ≤
      maxValue 128) :
    correlatedSlashBps (w.foldl (fun t o => saturatingAdd 128 t o.atStake) 0)
      (w.foldl (fun t o =>
        saturatingAdd 128 t (saturatingAdd 128 o.takenBonded (o.atStake - o.bonded))) totalBonded)
      (min view.minSlashBps 10000) (min view.correlationMultiplier 100) =
    windowRate view totalBonded w := by
  have each : ∀ o ∈ w, o.takenBonded + (o.atStake - o.bonded) ≤ maxValue 128 := fun o mem => by
    have part := single_le_sum (by simp) _ (mem_map_of_mem mem :
      o.takenBonded + (o.atStake - o.bonded) ∈
        w.map fun o => o.takenBonded + (o.atStake - o.bonded))
    omega
  have inner : w.foldl (fun t o =>
      saturatingAdd 128 t (saturatingAdd 128 o.takenBonded (o.atStake - o.bonded))) totalBonded =
      w.foldl (fun t o => saturatingAdd 128 t (o.takenBonded + (o.atStake - o.bonded)))
        totalBonded :=
    foldl_ext _ _ _ fun t o mem => by rw [saturatingAdd_exact (each o mem)]
  rw [inner, foldl_saturatingAdd _ w (Nat.zero_le _), foldl_saturatingAdd _ w (by omega),
    min_eq_left fits, Nat.zero_add, correlatedSlashBps_saturated fits]
  rfl

/-! ### The window with a new offence -/

section
variable {addr : Bytes} {index bonded unbonding : ℕ} {w : List WindowOffence}

theorem noteOffence_addrs : (noteOffence addr index bonded unbonding w).map WindowOffence.addr =
    if addr ∈ w.map WindowOffence.addr then w.map WindowOffence.addr
    else w.map WindowOffence.addr ++ [addr] := by
  induction w with
  | nil => rfl
  | cons o rest ih =>
    unfold noteOffence
    by_cases own : o.addr = addr
    · simp [own]
    · rw [if_neg own, map_cons, ih]
      by_cases there : addr ∈ rest.map WindowOffence.addr
      · simp [there]
      · have absent : ¬ addr ∈ (o :: rest).map WindowOffence.addr := by
          rw [map_cons, mem_cons]
          exact fun mem => mem.elim (fun eq => own eq.symm) there
        rw [if_neg there, if_neg absent]
        rfl

def WindowOffence.dated (o : WindowOffence) (index : ℕ) : WindowOffence :=
  { o with index := max o.index index }

theorem mem_noteOffence {o : WindowOffence} (apart : (w.map WindowOffence.addr).Nodup)
    (mem : o ∈ noteOffence addr index bonded unbonding w) :
    (o ∈ w ∧ o.addr ≠ addr) ∨ (∃ p ∈ w, p.addr = addr ∧ o = p.dated index) ∨
    (addr ∉ w.map WindowOffence.addr ∧
      o = ⟨index, addr, bonded, saturatingAdd 128 bonded unbonding, 0, 0, 0⟩) := by
  induction w with
  | nil => exact .inr (.inr ⟨not_mem_nil, mem_singleton.1 mem⟩)
  | cons p rest ih =>
    obtain ⟨away, apart⟩ := nodup_cons.1 apart
    unfold noteOffence at mem
    split_ifs at mem with own
    · rcases mem_cons.1 mem with rfl | mem
      · exact .inr (.inl ⟨p, mem_cons_self, own, rfl⟩)
      · refine .inl ⟨mem_cons_of_mem _ mem, fun same => away ?_⟩
        rw [own, ← same]
        exact mem_map_of_mem mem
    · rcases mem_cons.1 mem with rfl | mem
      · exact .inl ⟨mem_cons_self, own⟩
      · rcases ih apart mem with ⟨old, other⟩ | ⟨q, old, same, dated⟩ | ⟨absent, fresh⟩
        · exact .inl ⟨mem_cons_of_mem _ old, other⟩
        · exact .inr (.inl ⟨q, mem_cons_of_mem _ old, same, dated⟩)
        · refine .inr (.inr ⟨?_, fresh⟩)
          rw [map_cons, mem_cons]
          exact fun mem => mem.elim (fun eq => own eq.symm) absent

theorem noteOffence_takenBonded :
    ((noteOffence addr index bonded unbonding w).map WindowOffence.takenBonded).sum =
      (w.map WindowOffence.takenBonded).sum := by
  induction w with
  | nil => rfl
  | cons o rest ih =>
    unfold noteOffence
    split_ifs with own
    · rfl
    · rw [map_cons, map_cons, sum_cons, sum_cons, ih]

end

/-! ### The report -/

section
variable [StakeAccounts] {s s' : StakeLedger} {addr : Bytes}

def repeatFloor (view : StakeView) : ℕ :=
  min (min view.minSlashBps 10000 * min view.correlationMultiplier 100) 10000

def StakeLedger.noted (s : StakeLedger) (w : List WindowOffence) (addr : Bytes) (index : ℕ) :
    List WindowOffence :=
  noteOffence addr index (s.bond addr) (s.unbondingAmount addr) w

def StakeLedger.reportRate (s : StakeLedger) (view : StakeView) (noted : List WindowOffence)
    (addr a : Bytes) : ℕ :=
  let rate := windowRate view s.totalBonded noted
  if a = addr then
    max rate (if s.offended addr then repeatFloor view else min view.minSlashBps 10000)
  else rate

structure Reported (s s' : StakeLedger) (view : StakeView) (w : List WindowOffence) (addr : Bytes)
    (index : ℕ) : Prop where
  topped : ToppedUp s s' (s.noted w addr index) s'.window
    fun o => s.reportRate view (s.noted w addr index) addr o.addr
  offended : s'.offended = update s.offended addr true

omit [StakeAccounts] in
theorem noted_apart {index : ℕ} {w : List WindowOffence}
    (apart : (w.map WindowOffence.addr).Nodup) :
    ((s.noted w addr index).map WindowOffence.addr).Nodup := by
  unfold StakeLedger.noted
  rw [noteOffence_addrs]
  split_ifs with there
  · exact apart
  · exact nodup_append.2 ⟨apart, nodup_singleton _, fun a old b new => by
      rw [mem_singleton.1 new]
      exact fun same => there (same ▸ old)⟩

theorem slashForEquivocation_reported {view : StakeView} {index taken : ℕ}
    {w : List WindowOffence} (ran : s.slashForEquivocation addr view index = .ok (s', taken))
    (recent : s.window.filter (fun o => Nat.dist o.index index ≤ view.correlationWindow) = w)
    (apart : (w.map WindowOffence.addr).Nodup) (fair : ∀ o ∈ w, o.Fair)
    (sums : SumsTo s.bond s.totalBonded)
    (fits : s.totalBonded + ((s.noted w addr index).map fun o =>
      o.takenBonded + (o.atStake - o.bonded)).sum ≤ maxValue 128) :
    Reported s s' view w addr index := by
  unfold StakeLedger.slashForEquivocation at ran
  simp only [recent] at ran
  obtain ⟨⟨s₁, window, taken₁⟩, topped, ran⟩ := bind_ok.1 ran
  obtain ⟨s₂, credited, ran⟩ := bind_ok.1 ran
  cases pure_ok.1 ran
  have after : s'.bond = s₁.bond ∧ s'.unbonding = s₁.unbonding ∧
      s'.totalBonded = s₁.totalBonded ∧ s'.offended = s₁.offended ∧ s'.window = window := by
    unfold StakeLedger.creditPool at credited
    split_ifs at credited
    · rw [← Except.ok.inj credited]
      exact ⟨rfl, rfl, rfl, rfl, rfl⟩
    · obtain ⟨after, -, credited⟩ := bind_ok.1 credited
      rw [← pure_ok.1 credited]
      exact ⟨rfl, rfl, rfl, rfl, rfl⟩
  obtain ⟨bond, unbonding, total, offended, kept⟩ := after
  have rates : (fun o : WindowOffence =>
        s.reportRate view (s.noted w addr index) addr o.addr) = fun o =>
      if o.addr = addr then
        max (windowRate view s.totalBonded (s.noted w addr index))
          (min (if s.offended addr then
              min view.minSlashBps 10000 * min view.correlationMultiplier 100
            else min view.minSlashBps 10000) 10000)
      else windowRate view s.totalBonded (s.noted w addr index) := by
    funext o
    unfold StakeLedger.reportRate repeatFloor
    cases s.offended addr with
    | true => rfl
    | false => simp
  have rated := windowRate_eq view fits
  unfold StakeLedger.noted at rated rates
  rw [← rated] at rates
  have passed := topUp_ok topped (noted_apart apart) (noteOffence_fair fair) sums
  have amounts : s'.unbondingAmount = s₁.unbondingAmount := by
    funext a
    unfold StakeLedger.unbondingAmount
    rw [unbonding]
  refine ⟨?_, offended.trans (topUp_offended topped)⟩
  unfold StakeLedger.noted
  rw [rates, kept]
  refine ⟨passed.window, ?_, ?_, ?_⟩
  · rw [bond, amounts]
    exact passed.own
  · rw [bond, amounts]
    exact passed.others
  · rw [total]
    exact passed.total

end

end Tenzro.Staking
