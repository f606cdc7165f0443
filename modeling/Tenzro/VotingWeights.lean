import Tenzro.Committee
import Tenzro.FixedWidth
import Tenzro.Outcome
import Tenzro.Ranking
import Tenzro.WideArithmetic

set_option autoImplicit false
set_option linter.dupNamespace false

/-!
# The validator set and its voting weights

Stakes above the cap are cut to it and the rest of the total is spread over the others in
proportion to their stakes.
-/
namespace Tenzro
open FixedWidth Outcome Ranking WideArithmetic List

def maxValidatorWeightBps : ℕ := 1000

inductive ValidatorStatus where
  | active
  | inactive
  | jailed
  | unbonding
deriving DecidableEq, Repr

/-- What a validator set reads of a validator; its key is named by its fingerprint. -/
structure ValidatorInfo where
  address : ℕ
  publicKey : ℕ
  stake : ℕ
  status : ValidatorStatus
deriving DecidableEq, Repr

namespace ValidatorInfo

def isActive (v : ValidatorInfo) : Bool := v.status = .active

def votingPower (v : ValidatorInfo) : ℕ := if v.isActive then v.stake else 0

end ValidatorInfo

class ValidatorKeys where
  checkWellFormed : ℕ → Except String Unit

namespace ValidatorSet
variable [ValidatorKeys]

def checkDistinct : List ValidatorInfo → List ℕ → List ℕ → Except String Unit
  | [], _, _ => .ok ()
  | v :: validators, addresses, keys => do
    ValidatorKeys.checkWellFormed v.publicKey
    ensure (v.address ∉ addresses) s!"duplicate validator address {v.address}"
    ensure (v.publicKey ∉ keys) "two validators share one key"
    checkDistinct validators (v.address :: addresses) (v.publicKey :: keys)

/-- What `checkDistinct` accepts after some addresses and keys. -/
structure Distinct (validators : List ValidatorInfo) (addresses keys : List ℕ) : Prop where
  wellFormed : ∀ v ∈ validators, ValidatorKeys.checkWellFormed v.publicKey = .ok ()
  distinctAddresses : (validators.map ValidatorInfo.address).Nodup
  distinctKeys : (validators.map ValidatorInfo.publicKey).Nodup
  fresh : ∀ v ∈ validators, v.address ∉ addresses ∧ v.publicKey ∉ keys

theorem checkDistinct_ok {validators : List ValidatorInfo} {addresses keys : List ℕ}
    (ok : checkDistinct validators addresses keys = .ok ()) :
    Distinct validators addresses keys := by
  induction validators generalizing addresses keys with
  | nil => exact ⟨by simp, nodup_nil, nodup_nil, by simp⟩
  | cons v validators ih =>
    simp only [checkDistinct, bind_ok, ensure_ok, exists_const] at ok
    obtain ⟨_, formed, address, key, rest⟩ := ok
    have later := ih rest
    refine ⟨forall_mem_cons.2 ⟨formed, later.wellFormed⟩,
      nodup_cons.2 ⟨fun mem => ?_, later.distinctAddresses⟩,
      nodup_cons.2 ⟨fun mem => ?_, later.distinctKeys⟩,
      forall_mem_cons.2 ⟨⟨address, key⟩, fun w mem => ?_⟩⟩
    · obtain ⟨w, mem, same⟩ := mem_map.1 mem
      exact (later.fresh w mem).1 (by simp [same])
    · obtain ⟨w, mem, same⟩ := mem_map.1 mem
      exact (later.fresh w mem).2 (by simp [same])
    · obtain ⟨address, key⟩ := later.fresh w mem
      exact ⟨fun old => address (mem_cons_of_mem _ old),
        fun old => key (mem_cons_of_mem _ old)⟩

end ValidatorSet

/-- The validators of one epoch, in canonical order. -/
structure ValidatorSet [ValidatorKeys] where
  epoch : ℕ
  validators : List ValidatorInfo
  nonempty : validators ≠ []
  distinct : ValidatorSet.Distinct validators [] []

namespace ValidatorSet
variable [ValidatorKeys]

def new (epoch : ℕ) (validators : List ValidatorInfo) : Except String ValidatorSet :=
  if nonempty : validators ≠ [] then
    match ok : checkDistinct validators [] [] with
    | .ok () => .ok ⟨epoch, validators, nonempty, checkDistinct_ok ok⟩
    | .error e => .error e
  else .error "validator set cannot be empty"

def powers (s : ValidatorSet) : List ℕ := s.validators.map ValidatorInfo.votingPower

def checkedSub (a b : ℕ) : Except String ℕ :=
  if b ≤ a then .ok (a - b) else .error "attempt to subtract with overflow"

/-- Caps the largest stakes while the rest of the total, spread over the others, would lift the next
past the cap: how many are capped, the rest of the total and of the stakes. -/
def fill (cap : ℕ) : List (ℕ × ℕ) → ℕ → ℕ → ℕ → Except String (ℕ × ℕ × ℕ)
  | [], capped, rest, restRaw => .ok (capped, rest, restRaw)
  | (next, _) :: order, capped, rest, restRaw =>
    if restRaw = 0 ∨ ¬ Prod.Lex (· < ·) (· < ·) (wideMul cap restRaw) (wideMul next rest) then
      .ok (capped, rest, restRaw)
    else do
      let rest ← checkedSub rest cap
      let restRaw ← checkedSub restRaw next
      fill cap order (capped + 1) rest restRaw

def weightCap (total : ℕ) : ℕ := saturatingMul 128 total maxValidatorWeightBps / 10000

def weightOf (cap capped rest restRaw : ℕ) (e : (ℕ × ℕ) × ℕ) : ℕ :=
  if e.2 < capped then cap else mulDiv e.1.1 rest restRaw

def normalizedWeights (s : ValidatorSet) : Except String (List ℕ) :=
  let raw := s.powers
  let total := raw.sum
  let cap := weightCap total
  if total = 0 then .ok raw
  else if cap = 0 ∨ saturatingMul 128 raw.length cap < total then .ok raw
  else do
    let order := largestFirst raw.zipIdx
    let (capped, rest, restRaw) ← fill cap order 0 total total
    return order.zipIdx.foldl
      (fun weights e => weights.set e.1.2 (weightOf cap capped rest restRaw e)) raw

/-! ### Filling up to the cap -/

/-- Where filling the order stops: `capped` entries of it are capped, and `rest` of the total is
left. -/
structure Filled (cap : ℕ) (order : List (ℕ × ℕ)) (total capped rest : ℕ) : Prop where
  within : capped ≤ order.length
  spent : total = rest + capped * cap
  left : 0 < rest
  staked : ∀ e ∈ order.take capped, 0 < e.1
  stops : ((order.drop capped).map Prod.fst).sum = 0 ∨ ∀ e ∈ (order.drop capped).head?,
    e.1 * rest ≤ cap * ((order.drop capped).map Prod.fst).sum

omit [ValidatorKeys] in
theorem fill_ok (cap : ℕ) (order : List (ℕ × ℕ)) (before : ℕ) {total : ℕ} (pos : 0 < total) :
    ∃ capped rest, fill cap order before total (order.map Prod.fst).sum =
        .ok (before + capped, rest, ((order.drop capped).map Prod.fst).sum) ∧
      Filled cap order total capped rest := by
  induction order generalizing before total with
  | nil => exact ⟨0, total, rfl, by simp, by simp, pos, by simp, .inl rfl⟩
  | cons e order ih =>
    obtain ⟨next, i⟩ := e
    set raw := (((next, i) :: order).map Prod.fst).sum with raw_eq
    have whole : raw = next + (order.map Prod.fst).sum := by simp [raw_eq]
    rw [fill]
    by_cases stop : raw = 0 ∨
        ¬ Prod.Lex (· < ·) (· < ·) (wideMul cap raw) (wideMul next total)
    · rw [if_pos stop]
      rw [wideMul_lt] at stop
      refine ⟨0, total, rfl, by simp, by simp, pos, by simp, ?_⟩
      rcases stop with none | within
      · exact .inl none
      · right
        rintro _ ⟨⟩
        exact not_lt.1 within
    · rw [if_neg stop]
      rw [wideMul_lt] at stop
      push Not at stop
      obtain ⟨some, lifts⟩ := stop
      have room : cap < total := by
        have bound : next * total ≤ raw * total := Nat.mul_le_mul_right _ (by omega)
        rw [Nat.mul_comm raw] at bound
        exact Nat.lt_of_mul_lt_mul_right (lifts.trans_le bound)
      have positive : 0 < next := by
        rcases Nat.eq_zero_or_pos next with rfl | positive
        · simp at lifts
        · exact positive
      obtain ⟨capped, rest, ran, filled⟩ := ih (before + 1) (Nat.sub_pos_of_lt room)
      refine ⟨capped + 1, rest, ?_, ?_⟩
      · have taken : checkedSub total cap = .ok (total - cap) := if_pos room.le
        have lowered : checkedSub raw next = .ok (order.map Prod.fst).sum := by
          rw [checkedSub, if_pos (by omega), whole, Nat.add_sub_cancel_left]
        rw [taken]
        refine bind_ok.2 ⟨_, rfl, ?_⟩
        rw [lowered]
        refine bind_ok.2 ⟨_, rfl, ?_⟩
        rw [ran, Nat.add_assoc, Nat.add_comm 1]
        rfl
      · have spent := filled.spent
        refine ⟨Nat.succ_le_succ filled.within, ?_, filled.left, ?_, filled.stops⟩
        · rw [Nat.add_mul, Nat.one_mul]
          omega
        · rw [take_succ_cons]
          exact forall_mem_cons.2 ⟨positive, filled.staked⟩

end ValidatorSet
end Tenzro
