import Tenzro.BridgeRoute
import Tenzro.Split

set_option autoImplicit false

/-!
# The most a rule's intermediaries can take

The check counts every facilitator and relayer line at its exact share of the
gross; the division rounds some basis-point lines up.
-/
namespace Tenzro.Split
open ByteCodec Outcome List
open Bridge (utf8 utf8_injective)

def ruleDomain : Bytes := utf8 "tenzro/split-rule/v1"

def SplitRecipient.bytes : SplitRecipient → Bytes
  | .address account => 0 :: account.1
  | .didDerived did => 1 :: (beBytes 2 (min (utf8 did).length (2 ^ 16 - 1)) ++ utf8 did)
  | .legSubmitter => [2]

def SplitBasis.bytes : SplitBasis → Bytes
  | .bps b => 0 :: beBytes 2 b
  | .fixed v => 1 :: beBytes 16 v
  | .remainder => [2]

def capBytes : Option ℕ → Bytes
  | some c => 1 :: beBytes 16 c
  | none => [0]

def SplitLine.bytes (line : SplitLine) : Bytes :=
  line.role.tag :: (line.recipient.bytes ++ (line.basis.bytes ++ capBytes line.cap))

def SplitRule.canonicalBytes (rule : SplitRule) : Bytes :=
  ruleDomain ++ (beBytes 2 rule.version ++
    (UInt8.ofNat (min rule.lines.length 255) :: rule.lines.flatMap SplitLine.bytes))

def SplitRule.hash (sha256 : Bytes → Bytes) (rule : SplitRule) : Bytes := sha256 rule.canonicalBytes

/-! ### What validation gives -/

def SplitBasis.Fits : SplitBasis → Prop
  | .bps b => b < 2 ^ 16
  | .fixed v => v < 2 ^ 128
  | .remainder => True

structure SplitLine.Fits (line : SplitLine) : Prop where
  basis : line.basis.Fits
  cap : ∀ c ∈ line.cap, c < 2 ^ 128

def SplitRecipient.Short : SplitRecipient → Prop
  | .didDerived did => (utf8 did).length ≤ maxSplitDidLen
  | _ => True

theorem short_of_checkLines {s t : ℕ × ℕ} {lines : List SplitLine}
    (ran : lines.foldlM checkLine s = .ok t) : ∀ line ∈ lines, line.recipient.Short := by
  induction lines generalizing s with
  | nil => exact forall_mem_nil _
  | cons line lines ih =>
    rw [foldlM_cons] at ran
    obtain ⟨s', checked, ran⟩ := bind_ok.1 ran
    obtain ⟨_, _, checked⟩ := bind_ok.1 checked
    obtain ⟨_, recipient, _⟩ := bind_ok.1 checked
    refine forall_mem_cons.2 ⟨?_, ih ran⟩
    cases own : line.recipient with
    | didDerived did =>
      rw [own] at recipient
      exact (ensure_ok.1 recipient).2
    | address account => trivial
    | legSubmitter => trivial

theorem shape_of_validate {rule : SplitRule} (ran : rule.validate = .ok ()) :
    rule.version = splitRuleVersion ∧ rule.lines.length ≤ maxSplitLines ∧
      ∀ line ∈ rule.lines, line.recipient.Short := by
  obtain ⟨_, version, ran⟩ := bind_ok.1 ran
  obtain ⟨_, few, ran⟩ := bind_ok.1 ran
  obtain ⟨s, checked, _⟩ := bind_ok.1 ran
  exact ⟨ensure_ok.1 version, (ensure_ok.1 few).2, short_of_checkLines checked⟩

/-! ### Every part ends where its tag says -/

theorem tag_injective : Function.Injective SplitRole.tag := by
  intro r s same
  cases r <;> cases s <;> first | rfl | cases same

section
variable {x y : Bytes}

theorem recipient_inj {r s : SplitRecipient} (short : r.Short) (short' : s.Short)
    (same : r.bytes ++ x = s.bytes ++ y) : r = s ∧ x = y := by
  cases r <;> cases s <;>
    simp only [SplitRecipient.bytes, cons_append, List.cons.injEq, nil_append] at same
  case address.address a b =>
    obtain ⟨account, rest⟩ := append_inj same.2 (a.2.trans b.2.symm)
    exact ⟨congrArg _ (Subtype.ext account), rest⟩
  case didDerived.didDerived d e =>
    rw [append_assoc, append_assoc] at same
    obtain ⟨sizes, rest⟩ := append_inj same.2 (by simp)
    change (utf8 d).length ≤ maxSplitDidLen at short
    change (utf8 e).length ≤ maxSplitDidLen at short'
    unfold maxSplitDidLen at short short'
    have length := beBytes_injective (by omega) (by omega) sizes
    obtain ⟨did, rest⟩ := append_inj rest (by omega)
    exact ⟨congrArg _ (utf8_injective did), rest⟩
  case legSubmitter.legSubmitter => exact ⟨rfl, same.2⟩
  all_goals exact absurd same.1 (by decide)

theorem basis_inj {b c : SplitBasis} (fits : b.Fits) (fits' : c.Fits)
    (same : b.bytes ++ x = c.bytes ++ y) : b = c ∧ x = y := by
  cases b <;> cases c <;>
    simp only [SplitBasis.bytes, cons_append, List.cons.injEq, nil_append] at same
  case bps.bps b c =>
    obtain ⟨points, rest⟩ := append_inj same.2 (by simp)
    exact ⟨congrArg _ (beBytes_injective fits fits' points), rest⟩
  case fixed.fixed v w =>
    obtain ⟨amount, rest⟩ := append_inj same.2 (by simp)
    have range : 2 ^ 128 = 256 ^ 16 := by norm_num
    unfold SplitBasis.Fits at fits fits'
    rw [range] at fits fits'
    exact ⟨congrArg _ (beBytes_injective fits fits' amount), rest⟩
  case remainder.remainder => exact ⟨rfl, same.2⟩
  all_goals exact absurd same.1 (by decide)

theorem cap_inj {c d : Option ℕ} (fits : ∀ n ∈ c, n < 2 ^ 128) (fits' : ∀ n ∈ d, n < 2 ^ 128)
    (same : capBytes c ++ x = capBytes d ++ y) : c = d ∧ x = y := by
  cases c <;> cases d <;>
    simp only [capBytes, cons_append, List.cons.injEq, nil_append] at same
  case none.none => exact ⟨rfl, same.2⟩
  case some.some c d =>
    obtain ⟨amount, rest⟩ := append_inj same.2 (by simp)
    have range : 2 ^ 128 = 256 ^ 16 := by norm_num
    rw [range] at fits fits'
    exact ⟨congrArg _ (beBytes_injective (fits c rfl) (fits' d rfl) amount), rest⟩
  all_goals exact absurd same.1 (by decide)

theorem line_inj {l m : SplitLine} (short : l.recipient.Short) (short' : m.recipient.Short)
    (fits : l.Fits) (fits' : m.Fits) (same : l.bytes ++ x = m.bytes ++ y) : l = m ∧ x = y := by
  simp only [SplitLine.bytes, cons_append, List.cons.injEq, append_assoc] at same
  obtain ⟨tags, same⟩ := same
  obtain ⟨recipients, same⟩ := recipient_inj short short' same
  obtain ⟨bases, same⟩ := basis_inj fits.basis fits'.basis same
  obtain ⟨caps, rest⟩ := cap_inj fits.cap fits'.cap same
  refine ⟨?_, rest⟩
  cases l
  cases m
  congr
  exact tag_injective tags

end

theorem lines_inj {l m : List SplitLine} (size : l.length = m.length)
    (short : ∀ line ∈ l, line.recipient.Short) (short' : ∀ line ∈ m, line.recipient.Short)
    (fits : ∀ line ∈ l, line.Fits) (fits' : ∀ line ∈ m, line.Fits)
    (same : l.flatMap SplitLine.bytes = m.flatMap SplitLine.bytes) : l = m := by
  induction l generalizing m with
  | nil => exact (eq_nil_of_length_eq_zero size.symm).symm
  | cons line l ih =>
    obtain _ | ⟨line', m⟩ := m
    · cases size
    rw [forall_mem_cons] at short short' fits fits'
    rw [flatMap_cons, flatMap_cons] at same
    obtain ⟨rfl, rest⟩ := line_inj short.1 short'.1 fits.1 fits'.1 same
    rw [ih (Nat.succ.inj size) short.2 short'.2 fits.2 fits'.2 rest]

/-- Two rules that validate and are written alike are one rule, and so are two whose hashes agree,
unless their bytes collide. -/
theorem canonicalBytes_binds {rule other : SplitRule} (valid : rule.validate = .ok ())
    (valid' : other.validate = .ok ()) (fits : ∀ line ∈ rule.lines, line.Fits)
    (fits' : ∀ line ∈ other.lines, line.Fits) :
    (rule.canonicalBytes = other.canonicalBytes → rule = other) ∧
    ∀ sha256 : Bytes → Bytes, (sha256 rule.canonicalBytes = sha256 other.canonicalBytes →
        rule.canonicalBytes = other.canonicalBytes) →
      rule.hash sha256 = other.hash sha256 → rule = other := by
  have injective : rule.canonicalBytes = other.canonicalBytes → rule = other := by
    intro same
    obtain ⟨version, few, short⟩ := shape_of_validate valid
    obtain ⟨version', few', short'⟩ := shape_of_validate valid'
    have same := append_cancel_left same
    obtain ⟨-, same⟩ := append_inj same (by simp)
    obtain ⟨sizes, same⟩ := List.cons.inj same
    have size : rule.lines.length = other.lines.length := by
      have count := congrArg UInt8.toNat sizes
      rw [UInt8.toNat_ofNat', UInt8.toNat_ofNat'] at count
      unfold maxSplitLines at few few'
      omega
    have lines := lines_inj size short short' fits fits' same
    obtain ⟨v, l⟩ := rule
    obtain ⟨v', l'⟩ := other
    simp only at version version' lines
    rw [version, version', lines]
  exact ⟨injective, fun _ apart same => injective (apart same)⟩

namespace Sample

/-- Everything to whoever submitted the proof, under the role. -/
def allTo (role : SplitRole) : SplitRule := ⟨1, [⟨role, .legSubmitter, .remainder, none⟩]⟩

theorem canonicalBytes_role : (allTo .payee).canonicalBytes ≠ (allTo .solver).canonicalBytes := by
  have fits (role : SplitRole) : ∀ line ∈ (allTo role).lines, line.Fits :=
    forall_mem_singleton.2 ⟨trivial, nofun⟩
  intro same
  cases (canonicalBytes_binds rfl rfl (fits .payee) (fits .solver)).1 same

end Sample

open FixedWidth Ranking

def lineMost (gross : ℕ) (line : SplitLine) : ℕ :=
  let share := match line.basis with
    | .bps b => saturatingMul 128 gross b
    | .fixed a => saturatingMul 128 (min a gross) wholeBps
    | .remainder => saturatingMul 128 gross wholeBps
  match line.cap with
  | some c => min share (saturatingMul 128 (min c gross) wholeBps)
  | none => share

def countMost (gross most : ℕ) (line : SplitLine) : ℕ :=
  if line.role.isIntermediary then saturatingAdd 128 most (lineMost gross line) else most

def checkIntermediaryShare (rule : SplitRule) (gross maxBps : ℕ) : Except SplitError Unit :=
  if saturatingMul 128 gross maxBps < rule.lines.foldl (countMost gross) 0 then
    .error (.intermediaryShare maxBps)
  else .ok ()

/-! ### What is counted -/

def exactMost (gross : ℕ) (line : SplitLine) : ℕ :=
  let share := match line.basis with
    | .bps b => gross * b
    | .fixed a => min a gross * wholeBps
    | .remainder => gross * wholeBps
  match line.cap with
  | some c => min share (min c gross * wholeBps)
  | none => share

def intermediaries (f : SplitLine → ℕ) (lines : List SplitLine) : ℕ :=
  (lines.map fun line => if line.role.isIntermediary then f line else 0).sum

theorem lineMost_eq (gross : ℕ) (line : SplitLine) :
    lineMost gross line = min (exactMost gross line) (maxValue 128) := by
  unfold lineMost exactMost saturatingMul
  cases line.basis <;> cases line.cap <;> simp only <;> omega

theorem count_exact {gross most bound : ℕ} (narrow : bound < maxValue 128) {lines : List SplitLine}
    (within : lines.foldl (countMost gross) most ≤ bound) :
    most + intermediaries (exactMost gross) lines ≤ bound := by
  induction lines generalizing most with
  | nil => exact within
  | cons line lines ih =>
    have rest := ih within
    unfold countMost at rest
    rw [intermediaries, map_cons, sum_cons]
    change _ + (_ + intermediaries (exactMost gross) lines) ≤ _
    split_ifs at rest ⊢
    · have first : saturatingAdd 128 most (lineMost gross line) ≤ bound := by omega
      have exact := le_of_saturatingAdd_le narrow first
      rw [saturatingAdd_eq narrow first] at rest
      rw [lineMost_eq] at rest exact
      omega
    · omega

theorem exact_of_accepted {rule : SplitRule} {gross maxBps : ℕ}
    (accepted : checkIntermediaryShare rule gross maxBps = .ok ())
    (narrow : gross * maxBps < maxValue 128) :
    intermediaries (exactMost gross) rule.lines ≤ gross * maxBps := by
  unfold checkIntermediaryShare saturatingMul at accepted
  rw [min_eq_left narrow.le] at accepted
  split_ifs at accepted with above
  have counted := count_exact narrow (not_lt.1 above)
  rwa [Nat.zero_add] at counted

/-! ### What is credited -/

def paidToIntermediaries (lines : List SplitLine) (credits : List ℕ) : ℕ :=
  (zipWith (fun line credit => if line.role.isIntermediary then credit else 0)
    lines credits).sum

theorem paid_le {f : SplitLine → ℕ} {lines : List SplitLine} {credits : List ℕ}
    (each : ∀ (i : ℕ) (line : SplitLine) (credit : ℕ), lines[i]? = some line →
      credits[i]? = some credit → line.role.isIntermediary → wholeBps * credit ≤ f line) :
    wholeBps * paidToIntermediaries lines credits ≤ intermediaries f lines := by
  unfold paidToIntermediaries intermediaries
  induction lines generalizing credits with
  | nil => simp
  | cons line lines ih =>
    obtain _ | ⟨credit, credits⟩ := credits
    · simp
    have rest := ih fun i l c there at_i => each (i + 1) l c there at_i
    have first := each 0 line credit rfl rfl
    rw [zipWith_cons_cons, sum_cons, map_cons, sum_cons, Nat.mul_add]
    refine Nat.add_le_add ?_ rest
    split_ifs with own
    · exact first own
    · simp

section
variable {rule : SplitRule} {net : ℕ} {credits : List ℕ} (fits : net < 2 ^ 128)
  (valid : Valid rule) (ran : divide net rule = .ok credits)
include fits valid ran

theorem credit_le_floor {i b credit : ℕ} {line : SplitLine} (there : rule.lines[i]? = some line)
    (basis : line.basis = .bps b) (level : i ∉ raised (poolOf net rule.lines) rule.lines)
    (at_i : credits[i]? = some credit) : wholeBps * credit ≤ poolOf net rule.lines * b := by
  obtain ⟨r, rest, there', own, -, divided⟩ := divide_run fits valid
  obtain rfl := Except.ok.inj (ran.symm.trans divided)
  have other : r ≠ i := by
    rintro rfl
    obtain rfl := Option.some.inj (there.symm.trans there')
    rw [own] at basis
    cases basis
  rw [getElem?_set_ne other] at at_i
  obtain ⟨share, at_share, rfl⟩ := getElem?_capped there at_i
  have inside : i < (fixedTakes rule.lines net).length := by
    rw [length_fixedTakes]
    exact (List.getElem?_eq_some_iff.1 there).1
  rw [rounded_at there (getElem?_eq_getElem inside), if_neg level,
    Option.some.injEq] at at_share
  have floor : share = poolOf net rule.lines * b / wholeBps := by
    rw [← at_share, withFloor, if_pos (by rw [basis]; rfl), floorOf, bpsOfLine, basis]
    rfl
  calc wholeBps * capped line share
    _ ≤ wholeBps * share := Nat.mul_le_mul_left _ (capped_le line share)
    _ ≤ poolOf net rule.lines * b := floor ▸ Nat.mul_div_le _ _

theorem credit_le_most {gross i credit : ℕ} {line : SplitLine} (part : net ≤ gross)
    (there : rule.lines[i]? = some line)
    (level : i ∉ raised (poolOf net rule.lines) rule.lines) (at_i : credits[i]? = some credit) :
    wholeBps * credit ≤ exactMost gross line := by
  obtain ⟨credits', divided, owed⟩ := divide_ok fits valid
  obtain rfl := Except.ok.inj (ran.symm.trans divided)
  obtain ⟨shares, length, -, each⟩ := owed.lines
  have inside : i < shares.length := length ▸ (List.getElem?_eq_some_iff.1 there).1
  obtain ⟨cap, kind⟩ := each i line _ credit there (getElem?_eq_getElem inside) at_i
  have whole : credit ≤ gross :=
    (owed.sum ▸ le_sum_of_mem (mem_of_getElem? at_i)).trans part
  have share : wholeBps * credit ≤ match line.basis with
      | .bps b => gross * b
      | .fixed a => min a gross * wholeBps
      | .remainder => gross * wholeBps := by
    rw [Nat.mul_comm]
    cases basis : line.basis with
    | bps b =>
      rw [Nat.mul_comm]
      refine (credit_le_floor fits valid ran there basis level at_i).trans ?_
      exact Nat.mul_le_mul_right _ ((Nat.sub_le _ _).trans part)
    | fixed a =>
      rw [basis] at kind
      exact Nat.mul_le_mul_right _ (le_min kind whole)
    | remainder => exact Nat.mul_le_mul_right _ whole
  unfold exactMost
  cases own : line.cap with
  | none => exact share
  | some c =>
    refine le_min share ?_
    rw [Nat.mul_comm]
    exact Nat.mul_le_mul_right _ (le_min (cap c own) whole)

end

theorem apply_ok {rule : SplitRule} {gross networkFees : ℕ} {params : FeeParams}
    {fee : FeeAllocation} {a : Allocation} (charged : feeAllocation gross params = .ok fee)
    (ran : apply gross rule params networkFees = .ok a) : Valid rule ∧
      divide (gross - (fee.fee + networkFees)) rule = .ok a.credits := by
  obtain ⟨_, validated, ran⟩ := bind_ok.1 ran
  obtain ⟨fee', charged', ran⟩ := bind_ok.1 ran
  obtain rfl := Except.ok.inj (charged.symm.trans charged')
  simp only [bind_ok] at ran
  obtain ⟨fees, within, net, left, credits, divided, _, -, ran⟩ := ran
  obtain rfl := pure_ok.1 ran
  have passed : rule.validate = .ok () := by
    cases checked : rule.validate with
    | error e => rw [checked] at validated; cases validated
    | ok u => rfl
  refine ⟨valid_of_validate passed, ?_⟩
  unfold feesWithin at within
  split_ifs at within
  obtain rfl := Except.ok.inj within
  unfold sub Checked.sub at left
  split_ifs at left
  obtain rfl := Except.ok.inj left
  exact divided

namespace Intermediaries

/-- A facilitator and a payee with half each. -/
def halves : SplitRule :=
  ⟨1, [⟨.facilitator, .legSubmitter, .bps 5000, none⟩, ⟨.payee, .legSubmitter, .bps 5000, none⟩,
    ⟨.refund, .legSubmitter, .remainder, none⟩]⟩

def free : FeeParams := ⟨0, 0, 0, 0⟩

end Intermediaries

end Tenzro.Split
