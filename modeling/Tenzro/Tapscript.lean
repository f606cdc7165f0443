import Tenzro.ByteCodec

set_option autoImplicit false

/-!
# Scripts of signature checks

Stack elements as numbers, and the opcodes a script of counted signatures needs: pushes, the two
signature checks and the comparison of numbers. Keys are 32 bytes; a key of another size and every
other opcode end the run.
-/
namespace Tapscript
open ByteCodec List Option

/-! ### Numbers -/

def number (b : Bytes) : Option ℤ :=
  if 4 < b.length then none
  else match b.reverse with
    | [] => some 0
    | top :: below =>
      if top.toNat % 128 = 0 ∧ below.head?.all (fun c => c.toNat < 128) then none
      else if top.toNat < 128 then some (ofLeBytes b)
      else some (128 * 256 ^ below.length - ofLeBytes b)

def unsigned (n : ℕ) : Bytes :=
  if n < 128 then [UInt8.ofNat n] else UInt8.ofNat (n % 256) :: unsigned (n / 256)

def encode : ℤ → Bytes
  | .ofNat 0 => []
  | .ofNat (n + 1) => unsigned (n + 1)
  | .negSucc n => (unsigned (n + 1)).modifyLast (· + 0x80)

def truthy (b : Bytes) : Bool :=
  b.dropLast.any (· ≠ 0) || b.getLast?.any fun top => top ≠ 0 ∧ top ≠ 0x80

/-! ### Scripts -/

inductive Op where
  | push (b : Bytes)
  | checkSig
  | checkSigAdd
  | numEqual
deriving DecidableEq

def parse : Bytes → Option (List Op)
  | [] => some []
  | op :: rest =>
    if 1 ≤ op.toNat ∧ op.toNat ≤ 75 then
      if rest.length < op.toNat then none
      else (parse (rest.drop op.toNat)).map (.push (rest.take op.toNat) :: ·)
    else if 0x51 ≤ op.toNat ∧ op.toNat ≤ 0x60 then (parse rest).map (.push [op - 0x50] :: ·)
    else if op = 0xac then (parse rest).map (.checkSig :: ·)
    else if op = 0xba then (parse rest).map (.checkSigAdd :: ·)
    else if op = 0x9c then (parse rest).map (.numEqual :: ·)
    else none
termination_by b => b.length
decreasing_by all_goals simp only [length_drop, length_cons]; omega

def counts (valid : Bytes → Bytes → Bool) (key sig : Bytes) : Option ℤ :=
  if key.length = 32 then
    if sig = [] then some 0 else if valid key sig then some 1 else none
  else none

def step (valid : Bytes → Bytes → Bool) (stack : List Bytes) : Op → Option (List Bytes)
  | .push b => some (b :: stack)
  | .checkSig =>
    match stack with
    | key :: sig :: stack => do return encode (← counts valid key sig) :: stack
    | _ => none
  | .checkSigAdd =>
    match stack with
    | key :: n :: sig :: stack => do
      return encode ((← number n) + (← counts valid key sig)) :: stack
    | _ => none
  | .numEqual =>
    match stack with
    | b :: a :: stack => do return (if (← number a) = (← number b) then [1] else []) :: stack
    | _ => none

def run (valid : Bytes → Bytes → Bool) (ops : List Op) (stack : List Bytes) : Option (List Bytes) :=
  ops.foldlM (step valid) stack

def accepts (valid : Bytes → Bytes → Bool) (script : Bytes) (stack : List Bytes) : Bool :=
  match parse script >>= fun ops => run valid ops stack with
  | some [top] => truthy top
  | _ => false

theorem parse_push {b rest : Bytes} {op : UInt8} (size : op.toNat = b.length) (some : b ≠ [])
    (short : b.length ≤ 75) : parse (op :: (b ++ rest)) = (parse rest).map (.push b :: ·) := by
  have pos := length_pos_of_ne_nil some
  rw [parse, if_pos (by omega), if_neg (by rw [length_append]; omega), size, take_left,
    drop_left]

theorem parse_checkSig (rest : Bytes) :
    parse (0xac :: rest) = (parse rest).map (.checkSig :: ·) := by
  rw [parse, if_neg (by decide), if_neg (by decide), if_pos rfl]

theorem parse_checkSigAdd (rest : Bytes) :
    parse (0xba :: rest) = (parse rest).map (.checkSigAdd :: ·) := by
  rw [parse, if_neg (by decide), if_neg (by decide), if_neg (by decide), if_pos rfl]

theorem parse_numEqual : parse [0x9c] = some [.numEqual] := by
  rw [parse, if_neg (by decide), if_neg (by decide), if_neg (by decide), if_neg (by decide),
    if_pos rfl, parse]
  rfl

theorem accepts_iff {valid : Bytes → Bytes → Bool} {script : Bytes} {ops : List Op}
    {stack : List Bytes} (parsed : parse script = some ops) : accepts valid script stack = true ↔
      ∃ top, run valid ops stack = some [top] ∧ truthy top = true := by
  unfold accepts
  rw [parsed, bind_eq_bind, bind_some]
  split
  · rename_i top ran
    rw [ran]
    simp
  · rename_i other
    exact ⟨nofun, fun ⟨top, ran, _⟩ => absurd ran (other top)⟩

/-! ### Numbers read back -/

theorem unsigned_small {n : ℕ} (small : n < 128) : unsigned n = [UInt8.ofNat n] := by
  rw [unsigned, if_pos small]

theorem unsigned_large {n : ℕ} (large : 128 ≤ n) :
    unsigned n = UInt8.ofNat (n % 256) :: unsigned (n / 256) := by
  rw [unsigned, if_neg large.not_gt]

theorem toNat_ofNat {n : ℕ} (small : n < 256) : (UInt8.ofNat n).toNat = n := by
  rw [UInt8.toNat_ofNat', Nat.mod_eq_of_lt small]

theorem ofLeBytes_unsigned (n : ℕ) : ofLeBytes (unsigned n) = n := by
  induction n using Nat.strong_induction_on with
  | _ n ih =>
    by_cases small : n < 128
    · rw [unsigned_small small, ofLeBytes, toNat_ofNat (by omega), ofLeBytes]
      omega
    · rw [unsigned_large (by omega), ofLeBytes, ih _ (by omega), toNat_ofNat (by omega)]
      omega

/-- The last byte has no sign bit, and is zero only where the one before needs it. -/
theorem reverse_unsigned (n : ℕ) : ∃ top below, (unsigned n).reverse = top :: below ∧
    top.toNat < 128 ∧ (n ≠ 0 → top.toNat = 0 → ∃ c ∈ below.head?, 128 ≤ c.toNat) := by
  induction n using Nat.strong_induction_on with
  | _ n ih =>
    by_cases small : n < 128
    · refine ⟨UInt8.ofNat n, [], by rw [unsigned_small small]; rfl, ?_⟩
      rw [toNat_ofNat (by omega)]
      exact ⟨small, fun some none => absurd none some⟩
    · obtain ⟨top, below, reversed, low, zero⟩ := ih (n / 256) (by omega)
      refine ⟨top, below ++ [UInt8.ofNat (n % 256)], ?_, low, fun _ none => ?_⟩
      · rw [unsigned_large (by omega), reverse_cons, reversed, cons_append]
      · by_cases rest : n / 256 = 0
        · rw [rest, unsigned_small (by norm_num)] at reversed
          obtain ⟨-, rfl⟩ := List.cons.inj reversed
          exact ⟨_, rfl, by rw [toNat_ofNat (by omega)]; omega⟩
        · obtain ⟨c, head, high⟩ := zero rest none
          exact ⟨c, by rw [head?_append, mem_def.1 head]; rfl, high⟩

theorem length_unsigned (n k : ℕ) : (unsigned n).length ≤ k + 1 ↔ n < 128 * 256 ^ k := by
  induction k generalizing n with
  | zero =>
    by_cases small : n < 128
    · rw [unsigned_small small]
      exact iff_of_true le_rfl (by omega)
    · obtain ⟨top, below, reversed, -⟩ := reverse_unsigned (n / 256)
      have some := congrArg List.length reversed
      rw [length_reverse, length_cons] at some
      rw [unsigned_large (by omega), length_cons]
      omega
  | succ k ih =>
    by_cases small : n < 128
    · rw [unsigned_small small]
      have room : 0 < 256 ^ (k + 1) := by positivity
      exact iff_of_true (by simp) (by omega)
    · rw [unsigned_large (by omega), length_cons, Nat.pow_succ]
      have rest := ih (n / 256)
      omega

theorem number_reverse {top : UInt8} {below : Bytes} (low : top.toNat < 128)
    (least : top.toNat = 0 → ∃ c ∈ below.head?, 128 ≤ c.toNat) :
    number (top :: below).reverse =
      if below.length ≤ 3 then some (ofBeBytes (top :: below) : ℤ) else none := by
  unfold number
  rw [length_reverse, length_cons, reverse_reverse]
  by_cases short : below.length ≤ 3
  · rw [if_neg (by omega), if_pos short]
    dsimp only
    rw [if_neg, if_pos low]
    · rfl
    · rintro ⟨zero, all⟩
      obtain ⟨c, head, high⟩ := least (by omega)
      rw [mem_def.1 head] at all
      simp only [all_some, decide_eq_true_eq] at all
      omega
  · rw [if_pos (by omega), if_neg short]

theorem number_encode (n : ℕ) : number (encode n) = if n < 2 ^ 31 then some (n : ℤ) else none := by
  obtain _ | n := n
  · rfl
  change number (unsigned (n + 1)) = _
  have size := length_unsigned (n + 1) 3
  have value := ofLeBytes_unsigned (n + 1)
  obtain ⟨top, below, reversed, low, zero⟩ := reverse_unsigned (n + 1)
  have bytes : unsigned (n + 1) = (top :: below).reverse := by rw [← reversed, reverse_reverse]
  rw [bytes] at size value ⊢
  rw [length_reverse, length_cons] at size
  rw [number_reverse low (zero (Nat.succ_ne_zero n)),
    show ofBeBytes (top :: below) = n + 1 from value]
  refine if_congr ?_ rfl rfl
  clear zero
  omega

/-! ### Counted signatures -/

section
variable {valid : Bytes → Bytes → Bool} {item : Bytes → Bytes} {keys : List Bytes} {key : Bytes}

def counted (item : Bytes → Bytes) (keys : List Bytes) : ℕ := keys.countP fun key => item key ≠ []

def Checks (valid : Bytes → Bytes → Bool) (item : Bytes → Bytes) (key : Bytes) : Prop :=
  key.length = 32 ∧ (item key ≠ [] → valid key (item key) = true)

theorem counts_item (checks : Checks valid item key) :
    counts valid key (item key) = some (counted item [key] : ℤ) := by
  unfold counts counted
  rw [if_pos checks.1]
  by_cases empty : item key = []
  · simp [empty]
  · simp [empty, checks.2 empty]

theorem run_append (a b : List Op) (stack : List Bytes) :
    run valid (a ++ b) stack = run valid a stack >>= run valid b := foldlM_append

theorem run_adds (checks : ∀ key ∈ keys, Checks valid item key) (c : ℕ) (stack : List Bytes) :
    (∀ s, run valid (keys.flatMap fun key => [.push key, .checkSigAdd])
      (encode c :: (keys.map item ++ stack)) = some s →
        s = encode (c + counted item keys : ℕ) :: stack) ∧
    (c + counted item keys < 2 ^ 31 →
      run valid (keys.flatMap fun key => [.push key, .checkSigAdd])
        (encode c :: (keys.map item ++ stack)) =
          some (encode (c + counted item keys : ℕ) :: stack)) := by
  induction keys generalizing c with
  | nil => exact ⟨fun s h => (Option.some.inj h).symm, fun _ => rfl⟩
  | cons key keys ih =>
    obtain ⟨first, rest⟩ := forall_mem_cons.1 checks
    have count : counted item (key :: keys) = counted item [key] + counted item keys :=
      (countP_append : ([key] ++ keys).countP _ = _)
    have once : run valid ((key :: keys).flatMap fun key => [.push key, .checkSigAdd])
        (encode c :: ((key :: keys).map item ++ stack)) =
      if c < 2 ^ 31 then run valid (keys.flatMap fun key => [.push key, .checkSigAdd])
        (encode (c + counted item [key] : ℕ) :: (keys.map item ++ stack)) else none := by
      simp only [run, flatMap_cons, cons_append, nil_append, foldlM_cons, step,
        map_cons, number_encode, counts_item first, bind_eq_bind, bind_some]
      split_ifs <;> rfl
    obtain ⟨only, all⟩ := ih rest (c + counted item [key])
    rw [once, count, ← Nat.add_assoc]
    constructor
    · intro s ran
      split_ifs at ran
      exact only s ran
    · intro fits
      rw [if_pos (by omega)]
      exact all fits

/-- The first key's signature, the further ones counted, and the count compared. -/
def multi (keys : List Bytes) (threshold : Bytes) : List Op :=
  (keys.zipIdx.flatMap fun k => [Op.push k.1, if k.2 = 0 then .checkSig else .checkSigAdd]) ++
    [.push threshold, .numEqual]

theorem multi_cons (key : Bytes) (keys : List Bytes) (threshold : Bytes) :
    multi (key :: keys) threshold = [Op.push key, .checkSig] ++
      ((keys.flatMap fun key => [Op.push key, .checkSigAdd]) ++ [.push threshold, .numEqual]) := by
  have later (k : ℕ) : ((keys.zipIdx (k + 1)).flatMap fun k =>
      [Op.push k.1, if k.2 = 0 then .checkSig else .checkSigAdd]) =
        keys.flatMap fun key => [.push key, .checkSigAdd] := by
    induction keys generalizing k with
    | nil => rfl
    | cons key keys ih =>
      rw [zipIdx_cons, flatMap_cons, flatMap_cons, ih (k + 1), if_neg (by simp)]
  rw [multi, zipIdx_cons, flatMap_cons, later 0, append_assoc]
  rfl

/-- The script leaves true when as many items count as the threshold says, no more and no fewer. -/
theorem multi_leaves (some_key : keys ≠ []) (checks : ∀ key ∈ keys, Checks valid item key)
    (threshold : Bytes) :
    (∃ top, run valid (multi keys threshold) (keys.map item) = some [top] ∧ truthy top = true) ↔
      counted item keys < 2 ^ 31 ∧ number threshold = some (counted item keys : ℤ) := by
  obtain ⟨key, keys, rfl⟩ := exists_cons_of_ne_nil some_key
  obtain ⟨first, rest⟩ := forall_mem_cons.1 checks
  have count : counted item (key :: keys) = counted item [key] + counted item keys :=
    (countP_append : ([key] ++ keys).countP _ = _)
  have once : run valid [.push key, .checkSig] (item key :: keys.map item) =
      some (encode (counted item [key] : ℕ) :: (keys.map item ++ [])) := by
    simp [run, step, counts_item first]
  obtain ⟨only, all⟩ := run_adds rest (counted item [key]) ([] : List Bytes)
  have compared (n : ℕ) : run valid [.push threshold, .numEqual] [encode n] =
      if n < 2 ^ 31 then (number threshold).map fun b => [if (n : ℤ) = b then [1] else []]
      else none := by
    simp only [run, foldlM_cons, foldlM_nil, step, number_encode, bind_eq_bind,
      bind_some]
    split_ifs <;> cases number threshold <;> rfl
  rw [multi_cons, run_append, map_cons, once, bind_eq_bind, bind_some,
    run_append, count]
  constructor
  · rintro ⟨top, ran, good⟩
    obtain ⟨s, added, ran⟩ := bind_eq_some_iff.1 ran
    obtain rfl := only s added
    rw [compared] at ran
    split_ifs at ran with fits
    obtain ⟨b, read, same⟩ := map_eq_some_iff.1 ran
    obtain rfl := (List.cons.inj same).1
    split_ifs at good with equal
    · exact ⟨fits, equal ▸ read⟩
    · cases good
  · rintro ⟨fits, read⟩
    refine ⟨[1], ?_, rfl⟩
    rw [all fits, bind_eq_bind, bind_some, compared, if_pos fits, read]
    simp

end

end Tapscript
