import Tenzro.ProofVerifiers

set_option autoImplicit false
set_option linter.dupNamespace false

/-!
# One answer from three verifiers

`decode` is what both ports accept as an encoding, and on a decoded proof all
three compute one root.
-/
namespace Tenzro.ProofVerifiers
open ByteCodec List
open StateTrie (HashScheme)
open Storage

/-! ### Words in bytes -/

def stemOf (b : Bytes) : Stem :=
  ⟨(b ++ replicate 31 0).take 31, by
    rw [length_take, length_append, length_replicate]; omega⟩

def words (b : Bytes) (n : ℕ) : List Word :=
  (List.range n).map fun d => TenzroStateProof.word b (32 * d)

section
variable {b rest : Bytes} {i n : ℕ}

theorem word_eq (fits : i + 32 ≤ b.length) :
    (TenzroStateProof.word b i).1 = (b.drop i).take 32 := by
  unfold TenzroStateProof.word
  exact take_append_of_le_length (by rw [length_drop]; omega)

theorem stemOf_eq (fits : 31 ≤ b.length) : (stemOf b).1 = b.take 31 :=
  take_append_of_le_length fits

/-- The verifier's checked read and the contract's read are one within the array. -/
theorem word_getD (fits : i + 32 ≤ b.length) :
    (FinalityVerifier.word b i).getD empty = TenzroStateProof.word b i := by
  unfold FinalityVerifier.word
  rw [dif_pos fits, Option.getD_some]
  exact Subtype.ext (word_eq fits).symm

theorem word_drop : TenzroStateProof.word (b.drop n) i = TenzroStateProof.word b (n + i) := by
  unfold TenzroStateProof.word
  simp only [drop_drop]

theorem words_succ : words b (n + 1) = words b n ++ [TenzroStateProof.word b (32 * n)] := by
  unfold words
  rw [range_succ, map_append, map_singleton]

theorem length_words : (words b n).length = n := by
  unfold words
  rw [length_map, length_range]

theorem flat_words (fits : 32 * n ≤ b.length) : flat (words b n) = b.take (32 * n) := by
  induction n with
  | zero => rfl
  | succ n ih =>
    have before := ih (by omega)
    unfold flat at before ⊢
    rw [words_succ, flatMap_append, before, flatMap_singleton, word_eq (by omega),
      ← take_add]
    rfl

theorem word_flat (w : Word) : TenzroStateProof.word (w.1 ++ rest) 0 = w := by
  refine Subtype.ext ?_
  rw [word_eq (by rw [length_append, w.2]; omega), drop_zero,
    take_append_of_le_length w.2.ge, take_of_length_le w.2.le]

theorem words_flat (l : List Word) : words (flat l ++ rest) l.length = l := by
  induction l with
  | nil => rfl
  | cons w l ih =>
    unfold words at ih ⊢
    rw [length_cons, range_succ_eq_map, map_cons, map_map]
    have front : flat (w :: l) ++ rest = w.1 ++ (flat l ++ rest) := by
      unfold flat
      rw [flatMap_cons, append_assoc]
    have back : (w.1 ++ (flat l ++ rest)).drop 32 = flat l ++ rest := by
      rw [drop_append_of_le_length w.2.ge, drop_of_length_le w.2.le, nil_append]
    rw [front]
    congr 1
    · exact word_flat w
    · refine (map_congr_left fun d _ => ?_).trans ih
      have shifted := word_drop (b := w.1 ++ (flat l ++ rest)) (n := 32) (i := 32 * d)
      rw [back] at shifted
      rw [Function.comp_apply, shifted, Nat.mul_succ, Nat.add_comm]

theorem length_flat (l : List Word) : (flat l).length = 32 * l.length := by
  induction l with
  | nil => rfl
  | cons w l ih =>
    unfold flat at ih ⊢
    rw [flatMap_cons, length_append, w.2, ih, length_cons]
    omega

end

/-! ### What both ports read -/

def decodeTerminal (tag : UInt8) (body : Bytes) : Option ProofTerminal :=
  if tag = 0 ∧ body = [] then some .empty
  else if tag = 1 ∧ body.length = 31 + 32 then
    some (.otherStem (stemOf body) (TenzroStateProof.word body 31))
  else if tag = 2 ∧ body.length = 32 * 8 then some (.stem ⟨words body 8, length_words⟩)
  else none

def decode (b : Bytes) : Option StateProof :=
  if b.length < 2 then none
  else
    let depth := ofBeBytes (b.take 2)
    if stemBits < depth then none
    else
      match b.drop (2 + 32 * depth) with
      | [] => none
      | tag :: body => (decodeTerminal tag body).map fun t => ⟨words (b.drop 2) depth, t⟩

section
variable {b body : Bytes} {tag : UInt8} {t : ProofTerminal} {p : StateProof}

theorem encode_terminal (read : decodeTerminal tag body = some t) : t.encode = tag :: body := by
  unfold decodeTerminal at read
  split_ifs at read with none other own
  · rw [← Option.some.inj read, none.1, none.2]
    rfl
  · rw [← Option.some.inj read]
    unfold ProofTerminal.encode
    simp only
    rw [stemOf_eq (by omega), word_eq (by omega), other.1]
    congr 1
    have whole : (body.drop 31).take 32 = body.drop 31 :=
      take_of_length_le (by rw [length_drop]; omega)
    rw [whole, take_append_drop]
  · rw [← Option.some.inj read]
    unfold ProofTerminal.encode
    simp only
    rw [flat_words own.2.ge, own.1, take_of_length_le own.2.le]

theorem decode_terminal (t : ProofTerminal) :
    ∃ tag body, t.encode = tag :: body ∧ decodeTerminal tag body = some t := by
  cases t with
  | empty => exact ⟨0, [], rfl, rfl⟩
  | otherStem other slotsRoot =>
    have length : (other.1 ++ slotsRoot.1).length = 31 + 32 := by
      rw [length_append, other.2, slotsRoot.2]
    refine ⟨1, _, rfl, ?_⟩
    unfold decodeTerminal
    rw [if_neg (by simp), if_pos ⟨rfl, length⟩]
    have stem : stemOf (other.1 ++ slotsRoot.1) = other := by
      refine Subtype.ext ?_
      rw [stemOf_eq (by omega), take_append_of_le_length other.2.ge,
        take_of_length_le other.2.le]
    have root : TenzroStateProof.word (other.1 ++ slotsRoot.1) 31 = slotsRoot := by
      refine Subtype.ext ?_
      rw [word_eq (by omega), drop_append_of_le_length other.2.ge,
        drop_of_length_le other.2.le, nil_append, take_of_length_le slotsRoot.2.le]
    rw [stem, root]
  | stem slotSiblings =>
    have length : (flat slotSiblings.1).length = 32 * 8 := by
      rw [length_flat, slotSiblings.2]
    refine ⟨2, _, rfl, ?_⟩
    unfold decodeTerminal
    rw [if_neg (by simp), if_neg (by simp), if_pos ⟨rfl, length⟩]
    have whole : words (flat slotSiblings.1 ++ []) slotSiblings.1.length = slotSiblings.1 :=
      words_flat slotSiblings.1
    rw [append_nil, slotSiblings.2] at whole
    simp only [whole]

theorem encode_decode (read : decode b = some p) :
    p.siblings.length ≤ stemBits ∧ p.encode = b := by
  unfold decode at read
  split_ifs at read with short
  simp only at read
  split_ifs at read with deep
  have lead : (b.take 2).length = 2 := by
    rw [length_take]
    omega
  cases parts : b.drop (2 + 32 * ofBeBytes (b.take 2)) with
  | nil =>
    rw [parts] at read
    cases read
  | cons tag body =>
    rw [parts] at read
    obtain ⟨t, terminal, rfl⟩ := Option.map_eq_some_iff.1 read
    refine ⟨by rw [length_words]; omega, ?_⟩
    have long := congrArg List.length parts
    rw [length_drop, length_cons] at long
    have path : flat (words (b.drop 2) (ofBeBytes (b.take 2))) =
        (b.drop 2).take (32 * ofBeBytes (b.take 2)) :=
      flat_words (by rw [length_drop]; omega)
    have count : beBytes 2 (ofBeBytes (b.take 2)) = b.take 2 := by
      have same := beBytes_ofBeBytes (b.take 2)
      rwa [lead] at same
    unfold StateProof.encode
    rw [length_words, count, path, encode_terminal terminal, ← parts, append_assoc,
      ← drop_drop, take_append_drop, take_append_drop]

theorem decode_encode (p : StateProof) (fits : p.siblings.length ≤ stemBits) :
    decode p.encode = some p := by
  obtain ⟨tag, body, terminal, read⟩ := decode_terminal p.terminal
  have small : p.siblings.length < 256 ^ 2 := by
    unfold stemBits at fits
    omega
  have shape : p.encode =
      beBytes 2 p.siblings.length ++ (flat p.siblings ++ (tag :: body)) := by
    unfold StateProof.encode
    rw [terminal, append_assoc]
  have lead : (beBytes 2 p.siblings.length).length = 2 := length_beBytes _ _
  have front : p.encode.take 2 = beBytes 2 p.siblings.length := by
    rw [shape, take_append_of_le_length lead.ge, take_of_length_le lead.le]
  have back : p.encode.drop 2 = flat p.siblings ++ (tag :: body) := by
    rw [shape, drop_append_of_le_length lead.ge, drop_of_length_le lead.le,
      nil_append]
  have last : p.encode.drop (2 + 32 * p.siblings.length) = tag :: body := by
    have length := length_flat p.siblings
    rw [← drop_drop, back, drop_append_of_le_length length.ge,
      drop_of_length_le length.le, nil_append]
  have long : ¬ p.encode.length < 2 := by
    rw [shape, length_append, lead]
    omega
  unfold decode
  rw [if_neg long]
  simp only [front, ofBeBytes_beBytes small, last, back, words_flat, read, if_neg (not_lt.2 fits)]
  rfl

end

section
variable [SchemeHash] {tk root : Word} {value : Option Bytes} {depth : ℕ} {b body : Bytes}
  {tag : UInt8}

/-! ### The node -/

def nodeStart (tk : Word) (value : Option Bytes) (depth : ℕ) : ProofTerminal → Option Word
  | .empty => if value.isSome then none else some empty
  | .otherStem other slotsRoot =>
    if value.isSome ∨ other = (splitTreeKey tk).1 ∨ !sharesPrefix other (splitTreeKey tk).1 depth
    then none else some (stemHash .sha256 other slotsRoot)
  | .stem slotSiblings =>
    let slots := slotsRootFromPath .sha256 (splitTreeKey tk).2
      ((value.map (leafHash .sha256)).getD empty) slotSiblings.1
    if slots = empty then none else some (stemHash .sha256 (splitTreeKey tk).1 slots)

def climb (stem : Stem) (siblings : List Word) (first : Word) : Word :=
  (List.range siblings.length).reverse.foldl (fun acc d =>
    let sibling := siblings.getD d empty
    if stemBit stem d = 0 then internalHash .sha256 acc sibling
    else internalHash .sha256 sibling acc) first

def Accepted (root tk : Word) (value : Option Bytes) (p : StateProof) : Prop :=
  ∃ first, nodeStart tk value p.siblings.length p.terminal = some first ∧
    climb (splitTreeKey tk).1 p.siblings first = root

theorem verifyUnder_ok (p : StateProof) : verifyUnder .sha256 root tk value p = .ok () ↔
    p.siblings.length ≤ stemBits ∧ Accepted root tk value p := by
  obtain ⟨siblings, terminal⟩ := p
  unfold verifyUnder Accepted
  simp only
  by_cases deep : stemBits < siblings.length
  · rw [if_pos deep]
    exact ⟨nofun, fun ok => absurd ok.1 (not_le.2 deep)⟩
  · have last : ∀ first, (if climb (splitTreeKey tk).1 siblings first ≠ root then
        Except.error (ProofError.rootMismatch
          (hexEncode (climb (splitTreeKey tk).1 siblings first).1) (hexEncode root.1))
        else .ok ()) = .ok () ↔ climb (splitTreeKey tk).1 siblings first = root := by
      intro first
      by_cases same : climb (splitTreeKey tk).1 siblings first = root
      · simp [same]
      · simp [same]
    rw [if_neg deep, and_iff_right (not_lt.1 deep)]
    cases terminal with
    | empty =>
      unfold nodeStart
      by_cases present : value.isSome
      · simp [present, bind, Except.bind]
      · simp only [present, Bool.false_eq_true, if_false, Option.some.injEq, exists_eq_left']
        exact last empty
    | otherStem other slotsRoot =>
      unfold nodeStart
      by_cases present : value.isSome
      · simp [present, bind, Except.bind]
      · by_cases off : other = (splitTreeKey tk).1 ∨
            !sharesPrefix other (splitTreeKey tk).1 siblings.length
        · simp only [present, off, Bool.false_eq_true, if_false, if_true, or_true]
          exact ⟨nofun, fun ⟨_, ok, _⟩ => nomatch ok⟩
        · simp only [present, off, Bool.false_eq_true, if_false, or_false, Option.some.injEq,
            exists_eq_left']
          exact last _
    | stem slotSiblings =>
      unfold nodeStart
      simp only
      split_ifs with none
      · exact ⟨nofun, fun ⟨_, ok, _⟩ => nomatch ok⟩
      · simp only [Option.some.injEq, exists_eq_left']
        exact last _

/-! ### The finality verifier -/

theorem slots_words (long : body.length = 32 * 8) (slot : UInt8) (first : Word) :
    ((List.range 8).foldl (fun (s, index) i =>
      let sib := (FinalityVerifier.word body (32 * i)).getD empty
      (if index % 2 = 0 then FinalityVerifier.slotPair s sib
        else FinalityVerifier.slotPair sib s, index / 2)) (first, slot.toNat)).1 =
      slotsRootFromPath .sha256 slot first (words body 8) := by
  unfold slotsRootFromPath words
  rw [foldl_map]
  refine congrArg Prod.fst (foldl_ext _ _ _ fun (s, index) i within => ?_)
  have fits := mem_range.1 within
  simp only [word_getD (b := body) (i := 32 * i) (by omega)]
  rfl

theorem start_eq : FinalityVerifier.start tk value depth tag body =
    (decodeTerminal tag body).bind (nodeStart tk value depth) := by
  unfold FinalityVerifier.start decodeTerminal
  by_cases none : tag = 0 ∧ body = []
  · rw [if_pos none, if_pos none]
    rfl
  by_cases other : tag = 1 ∧ body.length = 31 + 32
  · rw [if_neg none, if_neg none, if_pos other, if_pos other, Option.bind_some]
    have stem : (stemOf body).1 = body.take 31 := stemOf_eq (by omega)
    have same : body.take 31 = tk.1.take 31 ↔ stemOf body = (splitTreeKey tk).1 := by
      rw [Subtype.ext_iff, stem]
      rfl
    have tail : body.drop 31 = (TenzroStateProof.word body 31).1 := by
      rw [word_eq (by omega)]
      exact (take_of_length_le (by rw [length_drop]; omega)).symm
    simp only [same]
    rw [← stem, tail]
    rfl
  by_cases own : tag = 2 ∧ body.length = 32 * 8
  · rw [if_neg none, if_neg none, if_neg other, if_neg other, if_pos own, if_pos own,
      Option.bind_some]
    simp only [slots_words own.2]
    rfl
  · rw [if_neg none, if_neg none, if_neg other, if_neg other, if_neg own, if_neg own]
    rfl

theorem climb_words {stem : Stem} {n : ℕ} (fits : 2 + 32 * n ≤ b.length) (first : Word) :
    (List.range n).reverse.foldl (fun acc d =>
      let sib := (FinalityVerifier.word b (2 + 32 * d)).getD empty
      if FinalityVerifier.bit stem.1 d = 0 then sha (1 :: (acc.1 ++ sib.1))
      else sha (1 :: (sib.1 ++ acc.1))) first = climb stem (words (b.drop 2) n) first := by
  unfold climb
  rw [length_words]
  refine foldl_ext _ _ _ fun acc d within => ?_
  have below := mem_range.1 (mem_reverse.1 within)
  have sibling : (words (b.drop 2) n).getD d empty = TenzroStateProof.word b (2 + 32 * d) := by
    unfold words
    rw [getD_eq_getElem _ _ (by rwa [length_map, length_range]),
      getElem_map, getElem_range, word_drop]
  rw [word_getD (by omega), sibling]
  rfl

theorem verifyAt_iff : FinalityVerifier.verifyAt root tk value b = true ↔
    ∃ p, decode b = some p ∧ Accepted root tk value p := by
  unfold FinalityVerifier.verifyAt decode
  by_cases short : b.length < 2
  · rw [if_pos short, if_pos short]
    simp
  rw [if_neg short, if_neg short]
  by_cases deep : stemBits < ofBeBytes (b.take 2)
  · simp only [if_pos deep]
    simp
  simp only [if_neg deep]
  cases parts : b.drop (2 + 32 * ofBeBytes (b.take 2)) with
  | nil => simp
  | cons tag body =>
    have long := congrArg List.length parts
    rw [length_drop, length_cons] at long
    simp only [start_eq]
    cases terminal : decodeTerminal tag body with
    | none => simp
    | some t =>
      unfold Accepted
      simp only [Option.bind_some, Option.map_some, Option.some.injEq, exists_eq_left',
        length_words]
      cases nodeStart tk value (ofBeBytes (b.take 2)) t with
      | none => simp
      | some first =>
        simp only [Option.some.injEq, exists_eq_left', decide_eq_true_eq]
        rw [← climb_words (by omega) first]
        rfl

omit [SchemeHash] in
theorem decode_iff (p : StateProof) :
    decode b = some p ↔ p.siblings.length ≤ stemBits ∧ p.encode = b := by
  refine ⟨encode_decode, fun ⟨fits, encoded⟩ => ?_⟩
  rw [← encoded]
  exact decode_encode p fits

/-! ### The contract -/

omit [SchemeHash] in
theorem cleared_inj {v w : Word} : TenzroStateProof.cleared v = TenzroStateProof.cleared w ↔
    v.1.take 31 = w.1.take 31 := by
  unfold TenzroStateProof.cleared
  rw [Subtype.ext_iff]
  exact append_left_inj _

omit [SchemeHash] in
theorem take_cleared (w : Word) : (TenzroStateProof.cleared w).1.take 31 = w.1.take 31 := by
  have length : (w.1.take 31).length = 31 := by
    rw [length_take, w.2]
    rfl
  unfold TenzroStateProof.cleared
  rw [take_append_of_le_length length.ge, take_of_length_le length.le]

omit [SchemeHash] in
theorem bit_cleared (w : Word) {d : ℕ} (within : d < stemBits) :
    TenzroStateProof.bit (TenzroStateProof.cleared w) d =
      (FinalityVerifier.bit (w.1.take 31) d).toNat := by
  have length : (w.1.take 31).length = 31 := by
    rw [length_take, w.2]
    rfl
  have below : d / 8 < 31 := by
    unfold stemBits at within
    omega
  have shift : (UInt8.ofNat (7 - d % 8)).toNat % 8 = 7 - d % 8 := by
    rw [UInt8.toNat_ofNat']
    omega
  unfold TenzroStateProof.bit TenzroStateProof.cleared FinalityVerifier.bit
  rw [getD_append _ _ _ _ (by omega), UInt8.toNat_and, UInt8.toNat_shiftRight, shift,
    Nat.shiftRight_eq_div_pow]
  exact (Nat.and_one_is_mod _).symm

omit [SchemeHash] in
theorem bits_cleared (v w : Word) {d : ℕ} (within : d < stemBits) :
    TenzroStateProof.bit (TenzroStateProof.cleared v) d =
      TenzroStateProof.bit (TenzroStateProof.cleared w) d ↔
    FinalityVerifier.bit (v.1.take 31) d = FinalityVerifier.bit (w.1.take 31) d := by
  rw [bit_cleared v within, bit_cleared w within, UInt8.toNat_inj]

omit [SchemeHash] in
theorem bits_differ (v w : Word) (shallow : depth ≤ stemBits) :
    ((List.range depth).any fun d => TenzroStateProof.bit (TenzroStateProof.cleared v) d ≠
      TenzroStateProof.bit (TenzroStateProof.cleared w) d) =
    !(List.range depth).all fun d =>
      FinalityVerifier.bit (v.1.take 31) d = FinalityVerifier.bit (w.1.take 31) d := by
  rw [not_all_eq_any_not, Bool.eq_iff_iff, any_eq_true, any_eq_true]
  refine exists_congr fun d => and_congr_right fun within => ?_
  have below := mem_range.1 within
  simp only [Bool.not_eq_true', decide_eq_true_eq, decide_eq_false_iff_not, ne_eq,
    bits_cleared v w (below.trans_le shallow)]

theorem contract_slots {n : ℕ}
    (same : ∀ i, TenzroStateProof.word b (n + i) = TenzroStateProof.word body i) (slot : UInt8)
    (first : Word) :
    ((List.range 8).foldl (fun (s, index) i =>
      let sib := TenzroStateProof.word b (n + 32 * i)
      (if index % 2 = 0 then TenzroStateProof.pair s sib else TenzroStateProof.pair sib s,
        index / 2)) (first, slot.toNat)).1 =
      slotsRootFromPath .sha256 slot first (words body 8) := by
  unfold slotsRootFromPath words
  rw [foldl_map]
  refine congrArg Prod.fst (foldl_ext _ _ _ fun (s, index) i _ => ?_)
  simp only [same]
  rfl

theorem contract_start {present : Bool} {v : Bytes} (long : 2 + 32 * depth < b.length)
    (shallow : depth ≤ stemBits) (parts : b.drop (2 + 32 * depth) = tag :: body) :
    TenzroStateProof.start tk present v b depth =
      FinalityVerifier.start tk (if present then some v else none) depth tag body := by
  have length := congrArg List.length parts
  rw [length_drop, length_cons] at length
  have read : b.getD (2 + 32 * depth) 0 = tag := by
    have first := congrArg (fun l => l[0]?) parts
    rw [getElem?_drop, Nat.add_zero] at first
    rw [getD_eq_getElem?_getD, first]
    rfl
  have rest : b.drop (2 + 32 * depth + 1) = body := by
    rw [← drop_drop, parts]
    rfl
  have count : b.length - (2 + 32 * depth) - 1 = body.length := by omega
  have shifted (i : ℕ) : TenzroStateProof.word b (2 + 32 * depth + 1 + i) =
      TenzroStateProof.word body i := by
    rw [← rest, word_drop]
  have held : (if present then some v else none : Option Bytes).isSome = present := by
    cases present <;> rfl
  unfold TenzroStateProof.start FinalityVerifier.start
  simp only [read, count, held]
  by_cases none : tag = 0
  · subst none
    cases present <;> by_cases nothing : body = [] <;> simp [nothing]
  simp only [none, false_and, if_false]
  by_cases other : tag = 1
  · simp only [other, true_and, if_true]
    by_cases whole : body.length = 63
    · have lead : (TenzroStateProof.word b (2 + 32 * depth + 1)).1.take 31 = body.take 31 := by
        rw [← Nat.add_zero (2 + 32 * depth + 1), shifted, word_eq (by omega), drop_zero,
          take_take]
        rfl
      have tail : TenzroStateProof.word b (2 + 32 * depth + 32) = TenzroStateProof.word body 31 :=
        shifted 31
      have last : (TenzroStateProof.word body 31).1 = body.drop 31 := by
        rw [word_eq (by omega)]
        exact take_of_length_le (by rw [length_drop]; omega)
      simp only [cleared_inj, take_cleared, bits_differ _ _ shallow, lead, tail, last]
      cases present <;> by_cases same : body.take 31 = tk.1.take 31 <;> simp [whole, same]
    · simp [whole]
  simp only [other, false_and, if_false]
  by_cases own : tag = 2 ∧ body.length = 32 * 8
  · have first : (if present then sha (0 :: v) else empty) =
        ((if present then some v else Option.none).map fun v => sha (0 :: v)).getD empty := by
      cases present <;> rfl
    simp only [own, if_true, true_and, slots_words own.2, take_cleared, first]
    rw [contract_slots shifted]
    rfl
  · by_cases two : tag = 2
    · have whole : body.length ≠ 256 := fun length => own ⟨two, length⟩
      simp [two, whole]
    · simp [two]

omit [SchemeHash] in
theorem contract_depth (long : 2 ≤ b.length) :
    (b.getD 0 0).toNat * 256 + (b.getD 1 0).toNat = ofBeBytes (b.take 2) := by
  match b, long with
  | hi :: lo :: rest, _ =>
    change hi.toNat * 256 + lo.toNat = lo.toNat + 256 * (hi.toNat + 256 * 0)
    omega

theorem contract_climb {n : ℕ} (shallow : n ≤ stemBits) (fits : 2 + 32 * n ≤ b.length)
    (first : Word) :
    (List.range n).reverse.foldl (fun acc d =>
      let sib := TenzroStateProof.word b (2 + 32 * d)
      if TenzroStateProof.bit (TenzroStateProof.cleared tk) d = 0 then
        sha (1 :: (acc.1 ++ sib.1))
      else sha (1 :: (sib.1 ++ acc.1))) first =
    (List.range n).reverse.foldl (fun acc d =>
      let sib := (FinalityVerifier.word b (2 + 32 * d)).getD empty
      if FinalityVerifier.bit (tk.1.take 31) d = 0 then sha (1 :: (acc.1 ++ sib.1))
      else sha (1 :: (sib.1 ++ acc.1))) first := by
  refine foldl_ext _ _ _ fun acc d within => ?_
  have below := mem_range.1 (mem_reverse.1 within)
  have zero : TenzroStateProof.bit (TenzroStateProof.cleared tk) d = 0 ↔
      FinalityVerifier.bit (tk.1.take 31) d = 0 := by
    rw [bit_cleared tk (below.trans_le shallow), ← UInt8.toNat_inj]
    rfl
  rw [word_getD (by omega)]
  simp only [zero]

theorem contract_verifyAt (present : Bool) (v : Bytes) :
    TenzroStateProof.verifyAt root tk present v b =
      FinalityVerifier.verifyAt root tk (if present then some v else none) b := by
  unfold TenzroStateProof.verifyAt FinalityVerifier.verifyAt
  by_cases short : b.length < 2
  · rw [if_pos short, if_pos (by omega)]
  have lead := contract_depth (not_lt.1 short)
  rw [if_neg short]
  simp only [lead]
  change (if b.length < 3 then false else if stemBits < _ then false else _) =
    if stemBits < _ then false else _
  by_cases deep : stemBits < ofBeBytes (b.take 2)
  · rw [if_pos deep, if_pos deep]
    exact ite_self _
  rw [if_neg deep, if_neg deep]
  cases parts : b.drop (2 + 32 * ofBeBytes (b.take 2)) with
  | nil =>
    rw [if_pos (drop_eq_nil_iff.1 parts)]
    exact ite_self _
  | cons tag body =>
    have long := congrArg List.length parts
    rw [length_drop, length_cons] at long
    have shallow := not_lt.1 deep
    rw [if_neg (by omega), if_neg (by omega), contract_start (by omega) shallow parts]
    simp only
    cases FinalityVerifier.start tk (if present then some v else none)
      (ofBeBytes (b.take 2)) tag body with
    | none => rfl
    | some first =>
      simp only
      rw [contract_climb shallow (by omega)]

/-! ### The system's slots -/

omit [SchemeHash] in
theorem utf8_append (s t : String) : utf8 (s ++ t) = utf8 s ++ utf8 t := by
  unfold utf8
  rw [String.toList_append, flatMap_append]

omit [SchemeHash] in
theorem utf8_hexDigit {n : ℕ} (h : n < 16) :
    String.utf8EncodeChar (hexDigit n) = [FinalityVerifier.hexDigits.getD n 0] := by
  revert n
  decide

omit [SchemeHash] in
theorem utf8_hexByte (byte : UInt8) :
    (hexByte byte).flatMap String.utf8EncodeChar = FinalityVerifier.hexPair byte := by
  have high : (byte >>> 4).toNat = byte.toNat / 16 := by
    rw [UInt8.toNat_shiftRight, Nat.shiftRight_eq_div_pow]
    rfl
  have low : (byte &&& 15).toNat = byte.toNat % 16 := by
    rw [UInt8.toNat_and]
    exact Nat.and_two_pow_sub_one_eq_mod _ 4
  have range := byte.toNat_lt
  unfold hexByte FinalityVerifier.hexPair
  rw [high, low, flatMap_cons, flatMap_singleton, utf8_hexDigit (by omega),
    utf8_hexDigit (by omega)]
  rfl

omit [SchemeHash] in
theorem utf8_hexEncode (l : Bytes) :
    utf8 (hexEncode l) = l.flatMap FinalityVerifier.hexPair := by
  unfold utf8 hexEncode
  rw [String.toList_ofList, flatMap_assoc]
  simp only [utf8_hexByte]

theorem system_slot (lead : Bytes) (id : Word) :
    FinalityVerifier.systemSlotTreeKey lead id =
      treeKey "state" (storageKey systemAddress (lead ++ utf8 (hexEncode id.1))) := by
  have account : systemAddress.flatMap FinalityVerifier.hexPair =
      replicate 40 (UInt8.ofNat 102) := by decide
  have state : (utf8 "state").length = 5 := by decide
  unfold FinalityVerifier.systemSlotTreeKey treeKey storageKey
  simp only [toString, utf8_append, utf8_hexEncode, account, state, flatMap_append,
    flatMap_cons, flatMap_nil, append_nil, append_assoc]

/-! ### One answer -/

theorem verifyAt_encodes : FinalityVerifier.verifyAt root tk value b = true ↔
    ∃ p : StateProof, p.encode = b ∧ verifyUnder .sha256 root tk value p = .ok () := by
  rw [verifyAt_iff]
  refine exists_congr fun p => ?_
  rw [decode_iff, verifyUnder_ok]
  tauto

omit [SchemeHash] in
theorem terminal_front {t t' : ProofTerminal} {more : Bytes}
    (longer : t'.encode = t.encode ++ more) : more = [] := by
  have lengths := congrArg List.length longer
  have tags := congrArg head? longer
  rw [length_append] at lengths
  unfold ProofTerminal.encode at lengths tags
  refine eq_nil_of_length_eq_zero ?_
  cases t with
  | empty =>
    cases t' with
    | empty => simpa using lengths
    | otherStem other slotsRoot => simp at tags
    | stem slotSiblings => simp at tags
  | otherStem other slotsRoot =>
    cases t' with
    | empty => simp at tags
    | otherStem other' slotsRoot' =>
      simp only [length_cons, length_append, other.2, slotsRoot.2, other'.2,
        slotsRoot'.2] at lengths
      omega
    | stem slotSiblings => simp at tags
  | stem slotSiblings =>
    cases t' with
    | empty => simp at tags
    | otherStem other slotsRoot => simp at tags
    | stem slotSiblings' =>
      simp only [length_cons, length_flat, slotSiblings.2, slotSiblings'.2] at lengths
      omega

omit [SchemeHash] in
/-- No encoding continues another: a count says where the path ends, a tag where the terminal
does. -/
theorem encode_front {p q : StateProof} {more : Bytes} (shallow : p.siblings.length ≤ stemBits)
    (shallow' : q.siblings.length ≤ stemBits) (longer : q.encode = p.encode ++ more) :
    more = [] := by
  unfold stemBits at shallow shallow'
  unfold StateProof.encode at longer
  simp only [append_assoc] at longer
  obtain ⟨count, longer⟩ := append_inj longer (by rw [length_beBytes, length_beBytes])
  have same : q.siblings.length = p.siblings.length :=
    beBytes_injective (by omega) (by omega) count
  obtain ⟨_, longer⟩ := append_inj longer (by rw [length_flat, length_flat, same])
  exact terminal_front longer

theorem accepted_present {p : StateProof} {v : Bytes} (ok : Accepted root tk (some v) p) :
    ∃ slotSiblings, p.terminal = .stem slotSiblings := by
  obtain ⟨first, started, -⟩ := ok
  cases terminal : p.terminal with
  | empty => simp [terminal, nodeStart] at started
  | otherStem other slotsRoot => simp [terminal, nodeStart] at started
  | stem slotSiblings => exact ⟨slotSiblings, rfl⟩

/-- The three verifiers give one answer on every byte string, and what they accept has no trailing
byte, no path longer than a stem, and for a present value no terminal but its own stem. -/
theorem verifiers_agree (root tk : Word) (b : Bytes) :
    (∀ value, FinalityVerifier.verifyAt root tk value b = true ↔
      ∃ p : StateProof, p.encode = b ∧ verifyUnder .sha256 root tk value p = .ok ()) ∧
    (∀ present v, TenzroStateProof.verifyAt root tk present v b =
      FinalityVerifier.verifyAt root tk (if present then some v else none) b) ∧
    (∀ value, FinalityVerifier.verifyAt root tk value b = true →
      ofBeBytes (b.take 2) ≤ stemBits ∧
      ∀ root' tk' value' more, more ≠ [] →
        FinalityVerifier.verifyAt root' tk' value' (b ++ more) = false) ∧
    (∀ v, FinalityVerifier.verifyAt root tk (some v) b = true →
      ∃ siblings slotSiblings, b = (StateProof.mk siblings (.stem slotSiblings)).encode) ∧
    ∀ (lead : Bytes) (id : Word), FinalityVerifier.systemSlotTreeKey lead id =
      treeKey "state" (storageKey systemAddress (lead ++ utf8 (hexEncode id.1))) := by
  refine ⟨fun value => verifyAt_encodes, contract_verifyAt, fun value ok => ?_, fun v ok => ?_,
    system_slot⟩
  · obtain ⟨p, read, -⟩ := verifyAt_iff.1 ok
    obtain ⟨shallow, encoded⟩ := encode_decode read
    refine ⟨?_, fun root' tk' value' more some => ?_⟩
    · unfold decode at read
      split_ifs at read with short
      simp only at read
      split_ifs at read with deep
      exact not_lt.1 deep
    · refine Bool.eq_false_iff.2 fun accepted => some ?_
      obtain ⟨q, again, -⟩ := verifyAt_iff.1 accepted
      obtain ⟨shallow', encoded'⟩ := encode_decode again
      exact encode_front shallow shallow' (encoded'.trans (congrArg (· ++ more) encoded.symm))
  · obtain ⟨p, read, accepted⟩ := verifyAt_iff.1 ok
    obtain ⟨slotSiblings, terminal⟩ := accepted_present accepted
    refine ⟨p.siblings, slotSiblings, ?_⟩
    rw [← (encode_decode read).2, ← terminal]

end

end Tenzro.ProofVerifiers
