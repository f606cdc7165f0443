import Tenzro.Split
import Tenzro.WideArithmetic

set_option autoImplicit false
set_option linter.dupNamespace false

/-!
# Shares in proportion

A value is divided over claims by largest remainder. Every share is the quotient of a 256-bit
product, put together from 64-bit limbs and divided bit by bit.
-/
namespace Tenzro.Split
open FixedWidth Outcome Ranking WideArithmetic List Nat

def wideProduct (a b : ℕ) : Except Failure (ℕ × ℕ) := do
  let lo ← mul (a % 2 ^ 64) (b % 2 ^ 64)
  let mid1 ← mul (a / 2 ^ 64) (b % 2 ^ 64)
  let mid2 ← mul (a % 2 ^ 64) (b / 2 ^ 64)
  let mid := (mid1 + mid2) % 2 ^ 128
  let carry := (mid1 + mid2) / 2 ^ 128
  let shifted := mid * 2 ^ 64 % 2 ^ 128
  let low := (lo + shifted) % 2 ^ 128
  let c2 := (lo + shifted) / 2 ^ 128
  let top ← mul (a / 2 ^ 64) (b / 2 ^ 64)
  let high ← add top (mid / 2 ^ 64)
  let high ← add high (carry * 2 ^ 64)
  let high ← add high c2
  pure (high, low)

def takeBit (d high low : ℕ) (s : ℕ × ℕ) (bit : ℕ) : ℕ × ℕ :=
  let r := s.2 * 2 % 2 ^ 128 + bitOf high low bit
  if s.2 / 2 ^ 127 = 1 ∨ d ≤ r then
    (if bit < 128 then s.1 ||| 2 ^ bit else s.1, (r + 2 ^ 128 - d) % 2 ^ 128)
  else (s.1, r)

/-- The quotient and the remainder of a product. -/
def mulDivRem (a b d : ℕ) : Except Failure (ℕ × ℕ) := do
  let product ← wideProduct a b
  pure ((range 256).reverse.foldl (takeBit d product.1 product.2) (0, 0))

def takeShare (value total : ℕ) (s : Floors) (claim : ℕ × ℕ) : Except Failure Floors := do
  let share ← mulDivRem value claim.1 total
  let given ← add s.sum share.1
  pure ⟨s.credits ++ [share.1], given, s.fractions ++ [(share.2, claim.2)]⟩

def roundShares (value total : ℕ) (claims : List ℕ) : Except Failure (List ℕ) := do
  let floors ← claims.zipIdx.foldlM (takeShare value total) ⟨[], 0, []⟩
  let units ← sub value floors.sum
  handOut (largestFirst floors.fractions) units floors.credits

def proRata (value : ℕ) (claims : List ℕ) : Except Failure (List ℕ) :=
  let total := claims.foldl (saturatingAdd 128) 0
  if total = 0 then pure (replicate claims.length 0)
  else roundShares (min value total) total claims

/-! ### The product and its division -/

section
variable {a b d : ℕ}

theorem limbs_lt (fits : a < 2 ^ 128) (fits' : b < 2 ^ 128) (i j : ℕ)
    (hi : i = a / 2 ^ 64 ∨ i = a % 2 ^ 64) (hj : j = b / 2 ^ 64 ∨ j = b % 2 ^ 64) :
    i * j < 2 ^ 128 := by
  have first : i < 2 ^ 64 := by omega
  have second : j < 2 ^ 64 := by omega
  calc
    i * j ≤ i * 2 ^ 64 := Nat.mul_le_mul_left _ second.le
    _ < 2 ^ 64 * 2 ^ 64 := Nat.mul_lt_mul_of_pos_right first (Nat.two_pow_pos 64)
    _ = 2 ^ 128 := by norm_num

theorem product_lt (fits : a < 2 ^ 128) (fits' : b < 2 ^ 128) : a * b < 2 ^ 256 := by
  calc
    a * b ≤ a * 2 ^ 128 := Nat.mul_le_mul_left _ fits'.le
    _ < 2 ^ 128 * 2 ^ 128 := Nat.mul_lt_mul_of_pos_right fits (Nat.two_pow_pos 128)
    _ = 2 ^ 256 := by norm_num

theorem wideProduct_eq (fits : a < 2 ^ 128) (fits' : b < 2 ^ 128) :
    wideProduct a b = .ok (wideMul a b) := by
  obtain ⟨halves, -⟩ := wideMul_eq a b
  have whole := product_lt fits fits'
  have high : (wideMul a b).1 < 2 ^ 128 := by omega
  unfold wideMul at high ⊢
  simp only [Nat.add_comm (a % 2 ^ 64 * (b / 2 ^ 64))] at high ⊢
  refine bind_ok.2 ⟨_, Checked.mul_ok (limbs_lt fits fits' _ _ (.inr rfl) (.inr rfl)),
    bind_ok.2 ⟨_, Checked.mul_ok (limbs_lt fits fits' _ _ (.inl rfl) (.inr rfl)),
    bind_ok.2 ⟨_, Checked.mul_ok (limbs_lt fits fits' _ _ (.inr rfl) (.inl rfl)),
    bind_ok.2 ⟨_, Checked.mul_ok (limbs_lt fits fits' _ _ (.inl rfl) (.inl rfl)),
    bind_ok.2 ⟨_, Checked.add_ok (by omega), bind_ok.2 ⟨_, Checked.add_ok (by omega),
    bind_ok.2 ⟨_, Checked.add_ok high, rfl⟩⟩⟩⟩⟩⟩⟩

theorem takeBit_eq (pos : 0 < d) (fits : d < 2 ^ 128) {n : ℕ} (quotient : n / d < 2 ^ 128)
    {high low : ℕ} (whole : high * 2 ^ 128 + low = n) (narrow : low < 2 ^ 128) (k : ℕ) :
    takeBit d high low (n / 2 ^ (k + 1) / d * 2 ^ (k + 1), n / 2 ^ (k + 1) % d) k =
      (n / 2 ^ k / d * 2 ^ k, n / 2 ^ k % d) := by
  have halves : n / 2 ^ (k + 1) * 2 + n / 2 ^ k % 2 = n / 2 ^ k := by
    rw [Nat.pow_succ, ← Nat.div_div_eq_div_mul]
    omega
  have step := divideStep_eq pos fits (n / 2 ^ (k + 1)) (show n / 2 ^ k % 2 ≤ 1 by omega)
  rw [halves] at step
  have upper : n / 2 ^ k / d < 2 ^ 128 := by
    rw [Nat.div_right_comm]
    exact (Nat.div_le_self _ _).trans_lt quotient
  have lower : n / 2 ^ (k + 1) / d * 2 ≤ n / 2 ^ k / d := by
    rw [Nat.le_div_iff_mul_le pos, Nat.mul_right_comm]
    have part := div_mul_le_self (n / 2 ^ (k + 1)) d
    omega
  unfold divideStep at step
  unfold takeBit
  rw [bitOf_eq narrow, whole]
  simp only at step ⊢
  generalize n / 2 ^ (k + 1) / d = q at *
  generalize n / 2 ^ (k + 1) % d = r at *
  split_ifs at step ⊢ with reached small
  · obtain ⟨rest, bits⟩ := Prod.mk.inj step
    have next : n / 2 ^ k / d = q * 2 + 1 := by omega
    have below : 2 ^ k < 2 ^ (k + 1) := Nat.pow_lt_pow_right (by decide) (lt_succ_self k)
    rw [next, rest, Nat.mul_comm q, ← two_pow_add_eq_or_of_lt below]
    ext
    · simp only [Nat.pow_succ]
      ring
    · rfl
  · obtain ⟨-, bits⟩ := Prod.mk.inj step
    have next : n / 2 ^ k / d = q * 2 + 1 := by omega
    have large : 2 ^ k ≤ n / d := by
      have some : 0 < n / d / 2 ^ k := by
        rw [Nat.div_right_comm, next]
        omega
      exact (Nat.div_pos_iff.1 some).2
    have beyond : 2 ^ 128 ≤ 2 ^ k := Nat.pow_le_pow_right (by decide) (by omega)
    omega
  · obtain ⟨rest, bits⟩ := Prod.mk.inj step
    have next : n / 2 ^ k / d = q * 2 := by omega
    rw [next, rest, Nat.pow_succ, Nat.mul_assoc, Nat.mul_comm 2]

theorem takeBits_eq (pos : 0 < d) (fits : d < 2 ^ 128) {n : ℕ} (quotient : n / d < 2 ^ 128)
    {high low : ℕ} (whole : high * 2 ^ 128 + low = n) (narrow : low < 2 ^ 128) (k : ℕ) :
    (range k).reverse.foldl (takeBit d high low)
      (n / 2 ^ k / d * 2 ^ k, n / 2 ^ k % d) = (n / d, n % d) := by
  induction k with
  | zero => simp
  | succ k ih =>
    rw [range_succ, reverse_append, reverse_singleton, singleton_append,
      foldl_cons, takeBit_eq pos fits quotient whole narrow, ih]

theorem mulDivRem_eq (part : a ≤ d) (pos : 0 < d) (fits : d < 2 ^ 128) (fits' : b < 2 ^ 128) :
    mulDivRem a b d = .ok (a * b / d, a * b % d) := by
  have small : a < 2 ^ 128 := part.trans_lt fits
  obtain ⟨halves, low⟩ := wideMul_eq a b
  have quotient : a * b / d < 2 ^ 128 := by
    refine (Nat.div_le_of_le_mul ?_).trans_lt fits'
    exact Nat.mul_le_mul_right _ part
  have bits := takeBits_eq pos fits quotient halves low 256
  rw [div_eq_of_lt (product_lt small fits'), Nat.zero_div, Nat.zero_mul, zero_mod] at bits
  exact bind_ok.2 ⟨_, wideProduct_eq small fits', congrArg Except.ok bits⟩

end

/-! ### Rounding down -/

section
variable {value total : ℕ} {claims : List ℕ}

def shareOf (value total c : ℕ) : ℕ := value * c / total

/-- What rounding down leaves of the share of the claim at an index. -/
def leftOf (value total : ℕ) (e : ℕ × ℕ) : ℕ × ℕ := (value * e.1 % total, e.2)

def leftsOf (value total : ℕ) (claims : List ℕ) : List (ℕ × ℕ) :=
  claims.zipIdx.map (leftOf value total)

theorem takeShares_eq (part : value ≤ total) (pos : 0 < total) (fits : total < 2 ^ 128)
    (each : ∀ c ∈ claims, c < 2 ^ 128) (k : ℕ) (s : Floors)
    (bounded : s.sum + (claims.map (shareOf value total)).sum < 2 ^ 128) :
    (claims.zipIdx k).foldlM (takeShare value total) s =
      .ok ⟨s.credits ++ claims.map (shareOf value total),
        s.sum + (claims.map (shareOf value total)).sum,
        s.fractions ++ (claims.zipIdx k).map (leftOf value total)⟩ := by
  induction claims generalizing k s with
  | nil => simp [Pure.pure, Except.pure]
  | cons c claims ih =>
    obtain ⟨first, each⟩ := forall_mem_cons.1 each
    rw [map_cons, sum_cons, ← Nat.add_assoc] at bounded
    have step : takeShare value total s (c, k) = .ok ⟨s.credits ++ [shareOf value total c],
        s.sum + shareOf value total c, s.fractions ++ [leftOf value total (c, k)]⟩ :=
      bind_ok.2 ⟨_, mulDivRem_eq part pos fits first, bind_ok.2 ⟨_,
        Checked.add_ok (show s.sum + shareOf value total c < 2 ^ 128 by omega), rfl⟩⟩
    rw [zipIdx_cons, foldlM_cons, step]
    refine (ih each (k + 1) _ bounded).trans ?_
    simp only [append_assoc, singleton_append, map_cons, sum_cons,
      Nat.add_assoc]

theorem shares_lefts (value total : ℕ) (claims : List ℕ) (k : ℕ) :
    total * (claims.map (shareOf value total)).sum +
      (((claims.zipIdx k).map (leftOf value total)).map Prod.fst).sum = value * claims.sum := by
  induction claims generalizing k with
  | nil => rfl
  | cons c claims ih =>
    have parts := div_add_mod (value * c) total
    have rest := ih (k + 1)
    simp only [zipIdx_cons, map_cons, sum_cons, Nat.mul_add, leftOf, shareOf] at rest ⊢
    omega

theorem map_snd_leftsOf : (leftsOf value total claims).map Prod.snd = range claims.length := by
  rw [leftsOf, map_map]
  change claims.zipIdx.map (fun e => e.2) = _
  rw [zipIdx_map_snd, range_eq_range']

theorem units_le (whole : total = claims.sum) (pos : 0 < total) :
    (claims.map (shareOf value total)).sum ≤ value ∧
      value - (claims.map (shareOf value total)).sum ≤
        (leftsOf value total claims).countP fun e => 0 < e.1 := by
  have parts := shares_lefts value total claims 0
  have most := sum_lt_countP (t := total) ((leftsOf value total claims).map Prod.fst)
    fun x mem => by
      obtain ⟨e, there, rfl⟩ := mem_map.1 mem
      obtain ⟨c, _, rfl⟩ := mem_map.1 there
      exact mod_lt _ pos
  rw [countP_map] at most
  simp only [Function.comp_def] at most
  rw [← whole, Nat.mul_comm value] at parts
  change _ + ((leftsOf value total claims).map Prod.fst).sum = _ at parts
  generalize (leftsOf value total claims).countP (fun e => 0 < e.1) = count at most ⊢
  generalize ((leftsOf value total claims).map Prod.fst).sum = lefts at *
  generalize (claims.map (shareOf value total)).sum = given at *
  constructor
  · exact Nat.le_of_mul_le_mul_left (by omega) pos
  · rw [Nat.sub_le_iff_le_add]
    refine Nat.le_of_mul_le_mul_left ?_ pos
    rw [Nat.mul_add, Nat.mul_comm total count]
    omega

end

/-! ### Units handed out -/

/-- Of entries with different indices, the indices of the first ones are those of the entries
ranked first. -/
theorem index_mem_take {l : List (ℕ × ℕ)} (nodup : (l.map Prod.snd).Nodup) {k : ℕ} {x : ℕ × ℕ}
    (mem : x ∈ l) : x.2 ∈ ((largestFirst l).take k).map Prod.snd ↔ rank Before l x < k := by
  have sorted : (largestFirst l).Pairwise Before := largestFirst_sorted (.of_map _ nodup)
  rw [mem_map]
  simp only [mem_take sorted, rank_perm (largestFirst_perm l), (largestFirst_perm l).mem_iff]
  constructor
  · rintro ⟨y, ⟨there, below⟩, same⟩
    rwa [← inj_on_of_nodup_map nodup there mem same]
  · intro below
    exact ⟨x, ⟨mem, below⟩, rfl⟩

/-- Whether the claim's rest is among the largest, one for each unit left. -/
def RoundsUp (value total : ℕ) (claims : List ℕ) (e : ℕ × ℕ) : Prop :=
  rank Before (leftsOf value total claims) (leftOf value total e) <
    value - (claims.map (shareOf value total)).sum

instance (value total : ℕ) (claims : List ℕ) (e : ℕ × ℕ) :
    Decidable (RoundsUp value total claims e) := inferInstanceAs (Decidable (_ < _))

def creditOf (value total : ℕ) (claims : List ℕ) (e : ℕ × ℕ) : ℕ :=
  shareOf value total e.1 + if RoundsUp value total claims e then 1 else 0

theorem sum_foldl_modify (l : List (ℕ × ℕ)) {credits : List ℕ}
    (within : ∀ e ∈ l, e.2 < credits.length) :
    (l.foldl (fun credits e => credits.modify e.2 (· + 1)) credits).sum =
      credits.sum + l.length := by
  induction l generalizing credits with
  | nil => rfl
  | cons e l ih =>
    obtain ⟨inside, within⟩ := forall_mem_cons.1 within
    rw [foldl_cons, ih (by simpa using within), sum_modify inside, length_cons]
    omega

section
variable {value total : ℕ} {claims : List ℕ}

theorem shareOf_le (below : value ≤ total) (c : ℕ) : shareOf value total c ≤ c :=
  Nat.div_le_of_le_mul (Nat.mul_le_mul_right _ below)

theorem rounded_pos {e : ℕ × ℕ} (whole : total = claims.sum) (pos : 0 < total)
    (up : RoundsUp value total claims e) :
    0 < value * e.1 % total :=
  pos_of_rank_lt (units_le whole pos).2 up

theorem creditOf_mono {c d : ℕ} (i j : ℕ) (less : c < d) (there : (d, j) ∈ claims.zipIdx) :
    creditOf value total claims (c, i) ≤ creditOf value total claims (d, j) := by
  have floors : shareOf value total c ≤ shareOf value total d :=
    Nat.div_le_div_right (Nat.mul_le_mul_left _ less.le)
  unfold creditOf
  simp only
  by_cases up : RoundsUp value total claims (c, i)
  · rw [if_pos up]
    rcases floors.lt_or_eq with below | same
    · omega
    · -- of equal floors, the larger claim leaves the larger rest
      have first : RoundsUp value total claims (d, j) := by
        have some : 0 < value := by
          unfold RoundsUp at up
          omega
        have products := Nat.mul_lt_mul_of_pos_left less some
        have parts := div_add_mod (value * c) total
        have parts' := div_add_mod (value * d) total
        have before : Before (leftOf value total (d, j)) (leftOf value total (c, i)) := by
          unfold shareOf at same
          rw [same] at parts
          left
          simp only [leftOf]
          omega
        exact (rank_lt before (mem_map_of_mem there)).trans up
      rw [if_pos first, same]
  · rw [if_neg up]
    omega

variable (part : value ≤ total) (whole : total = claims.sum) (pos : 0 < total)
include part whole pos

theorem roundShares_eq (fits : total < 2 ^ 128) : ∃ shares, roundShares value total claims = .ok shares ∧
    shares = claims.zipIdx.map (creditOf value total claims) ∧ shares.sum = value := by
  obtain ⟨within, few⟩ : (claims.map (shareOf value total)).sum ≤ value ∧ _ :=
    units_le whole pos
  have each : ∀ c ∈ claims, c < 2 ^ 128 := fun c mem =>
    (le_sum_of_mem mem).trans_lt (whole ▸ fits)
  have floors := takeShares_eq part pos fits each 0 ⟨[], 0, []⟩ (by
    simp only
    omega)
  have nodup : ((leftsOf value total claims).map Prod.snd).Nodup := by
    rw [map_snd_leftsOf]
    exact nodup_range
  have inside : ∀ e ∈ largestFirst (leftsOf value total claims),
      e.2 < (claims.map (shareOf value total)).length := by
    intro e mem
    have index := mem_map_of_mem (f := Prod.snd) ((largestFirst_perm _).mem_iff.1 mem)
    rw [map_snd_leftsOf, mem_range] at index
    rwa [length_map]
  have handed := handOut_eq (largestFirst (leftsOf value total claims))
    (value - (claims.map (shareOf value total)).sum) (claims.map (shareOf value total)) inside
    (by omega)
  simp only [nil_append, Nat.zero_add] at floors
  refine ⟨_, bind_ok.2 ⟨_, floors, bind_ok.2 ⟨_, Checked.sub_ok within, handed⟩⟩, ?_, ?_⟩
  · apply ext_getElem?
    intro i
    have firsts : (((largestFirst (leftsOf value total claims)).take
        (value - (claims.map (shareOf value total)).sum)).map Prod.snd).Nodup :=
      (((largestFirst_perm _).map Prod.snd).nodup_iff.2 nodup).sublist ((take_sublist ..).map _)
    rw [getElem?_foldl_modify _ firsts, getElem?_map, getElem?_map, getElem?_zipIdx]
    cases here : claims[i]? with
    | none => rfl
    | some c =>
      have mem : leftOf value total (c, i) ∈ leftsOf value total claims :=
        mem_map_of_mem (mk_mem_zipIdx_iff_getElem?.2 here)
      have first := index_mem_take nodup mem
        (k := value - (claims.map (shareOf value total)).sum)
      change i ∈ _ ↔ RoundsUp value total claims (c, i) at first
      simp only [Option.map_some, Nat.zero_add, creditOf, first]
  · rw [sum_foldl_modify _ fun e mem => inside e (mem_of_mem_take mem), length_take]
    have size := (largestFirst_perm (leftsOf value total claims)).length_eq
    have most := countP_le_length (p := fun e : ℕ × ℕ => 0 < e.1)
      (l := leftsOf value total claims)
    omega

theorem creditOf_bounds (c i : ℕ) : creditOf value total claims (c, i) ≤ c ∧
    (creditOf value total claims (c, i) = value * c / total ∨
      creditOf value total claims (c, i) = (value * c) ⌈/⌉ total) := by
  have floor := shareOf_le part c
  have parts := div_add_mod (value * c) total
  unfold creditOf
  simp only
  split_ifs with up
  · have rest := rounded_pos whole pos up
    simp only at rest
    have most : value * c ≤ total * c := Nat.mul_le_mul_right _ part
    have less : shareOf value total c < c := Nat.lt_of_mul_lt_mul_left (a := total) (by
      unfold shareOf
      omega)
    have ceil : (value * c) ⌈/⌉ total = shareOf value total c + 1 := by
      rw [ceilDiv_eq_add_pred_div, ← parts, Nat.add_assoc, Nat.add_sub_assoc (by omega),
        mul_add_div pos]
      refine congrArg (value * c / total + ·) ?_
      have small := mod_lt (value * c) pos
      apply Nat.div_eq_of_lt_le <;> omega
    exact ⟨less, .inr ceil.symm⟩
  · exact ⟨floor, .inl rfl⟩

end

/-- A division of a value that is proportional to claims, up to one unit. -/
structure Proportional (value : ℕ) (claims shares : List ℕ) : Prop where
  length : shares.length = claims.length
  sum : shares.sum = value
  share : ∀ (i c s : ℕ), claims[i]? = some c → shares[i]? = some s →
    s ≤ c ∧ (s = value * c / claims.sum ∨ s = (value * c) ⌈/⌉ claims.sum)
  mono : ∀ (i j c d s t : ℕ), claims[i]? = some c → claims[j]? = some d → shares[i]? = some s →
    shares[j]? = some t → c < d → s ≤ t

theorem proportional_zero {value : ℕ} {claims : List ℕ} (zero : claims.sum = 0) :
    Proportional (min value claims.sum) claims (replicate claims.length 0) where
  length := length_replicate
  sum := by rw [zero, sum_replicate, Nat.min_zero, smul_zero]
  share i c s _ there := by
    have nothing := eq_of_mem_replicate (mem_of_getElem? there)
    rw [nothing, zero, Nat.min_zero, Nat.zero_mul]
    exact ⟨Nat.zero_le _, .inl rfl⟩
  mono i j c d s t _ _ there _ _ := by
    rw [eq_of_mem_replicate (mem_of_getElem? there)]
    exact Nat.zero_le _

theorem proportional_shares {value : ℕ} {claims : List ℕ} (part : value ≤ claims.sum)
    (pos : 0 < claims.sum)
    (sum : (claims.zipIdx.map (creditOf value claims.sum claims)).sum = value) :
    Proportional value claims (claims.zipIdx.map (creditOf value claims.sum claims)) := by
  have own {i c s : ℕ} (there : claims[i]? = some c)
      (paid : (claims.zipIdx.map (creditOf value claims.sum claims))[i]? = some s) :
      s = creditOf value claims.sum claims (c, i) := by
    rw [getElem?_map, getElem?_zipIdx, there] at paid
    simpa using paid.symm
  constructor
  · rw [length_map, length_zipIdx]
  · exact sum
  · intro i c s there paid
    rw [own there paid]
    exact creditOf_bounds part rfl pos c i
  · intro i j c d s t there there' paid paid' less
    rw [own there paid, own there' paid']
    exact creditOf_mono i j less (mk_mem_zipIdx_iff_getElem?.2 there')

/-- The quotient and the remainder are those of the whole product, and what is divided over claims
is divided in proportion to them. -/
theorem proRata_exact :
    (∀ a b d : ℕ, a ≤ d → 0 < d → d < 2 ^ 128 → b < 2 ^ 128 →
      mulDivRem a b d = .ok (a * b / d, a * b % d)) ∧
    ∀ (value : ℕ) (claims : List ℕ), claims.sum < 2 ^ 128 →
      ∃ shares, proRata value claims = .ok shares ∧
        Proportional (min value claims.sum) claims shares := by
  refine ⟨fun a b d part pos fits fits' => mulDivRem_eq part pos fits fits', ?_⟩
  intro value claims fits
  have total : claims.foldl (saturatingAdd 128) 0 = claims.sum := by
    have sum := foldl_saturatingAdd (w := 128) id claims (Nat.zero_le _)
    rw [map_id, Nat.zero_add] at sum
    exact sum.trans (min_eq_left (le_sub_one_of_lt fits))
  unfold proRata
  simp only [total]
  split_ifs with zero
  · exact ⟨_, rfl, proportional_zero zero⟩
  · have pos := Nat.pos_of_ne_zero zero
    obtain ⟨shares, ran, rfl, sum⟩ := roundShares_eq (min_le_right value _) rfl pos fits
    exact ⟨_, ran, proportional_shares (min_le_right _ _) pos sum⟩

/-- The claims 10, 20 and 3 share 17. -/
theorem proRata_exact_three : mulDivRem 17 20 33 = .ok (10, 10) ∧
    ∃ shares, proRata 17 [10, 20, 3] = .ok shares ∧ Proportional 17 [10, 20, 3] shares :=
  ⟨proRata_exact.1 17 20 33 (by decide) (by decide) (by decide) (by decide),
    proRata_exact.2 17 [10, 20, 3] (by decide)⟩

end Tenzro.Split
