import Tenzro.ReceiptTrie

set_option autoImplicit false

/-!
# Walks in a receipts trie

What the nodes of a trie are, that a walk along them ends at the key's own entry, and that
the builder's proof is such a walk.
-/
namespace Tenzro.Receipt
open RlpCodec PrefixKeys Outcome KeccakHash List

variable {d : ℕ} {entries other : Entries} {k : List Nibble} {v : Bytes} {n : Nibble}

/-- Every key is shorter than the depth left. -/
def Fits (d : ℕ) (entries : Entries) : Prop := ∀ e ∈ entries, e.1.length < d

theorem fits_depth (entries : Entries) : Fits (depth entries) entries := by
  intro e mem
  have bound : e.1.length ≤ (entries.map fun e => e.1.length).foldr max 0 := by
    induction entries with
    | nil => exact absurd mem not_mem_nil
    | cons a rest ih =>
      simp only [map_cons, foldr_cons]
      rcases mem_cons.1 mem with rfl | later
      · exact le_max_left _ _
      · exact (ih later).trans (le_max_right _ _)
  exact Nat.lt_succ_of_le bound

theorem Fits.shorten (fits : Fits (d + 1) entries) (some_digit : 0 < commonLength entries) :
    Fits d (shorten (commonLength entries) entries) := by
  rintro ⟨k, v⟩ mem
  have whole := fits _ (mem_shorten.1 mem)
  rw [length_append, length_shared (ne_nil_of_mem (mem_shorten.1 mem))] at whole
  change k.length < d
  omega

theorem Fits.under (fits : Fits (d + 1) entries) : Fits d (under n entries) := by
  rintro ⟨k, v⟩ mem
  have whole := fits _ (mem_under.1 mem)
  rw [length_cons] at whole
  change k.length < d
  omega

section
variable [RlpCodec] [KeccakHash]

def encoded (d : ℕ) (entries : Entries) : Bytes := (node d entries none).1

def slot (d : ℕ) (entries : Entries) (n : Nibble) : Bytes :=
  if under n entries = [] then string [] else (reference (encoded d (under n entries)) false).1

def trieNodes : ℕ → Entries → List Bytes
  | 0, _ => []
  | d + 1, entries =>
    encoded (d + 1) entries :: match entries with
      | [_] => []
      | _ =>
        if 0 < commonLength entries then trieNodes d (shorten (commonLength entries) entries)
        else (finRange 16).flatMap fun n =>
          if under n entries = [] then [] else trieNodes d (under n entries)

/-! ### The shapes of a node -/

theorem node_leaf (e : List Nibble × Bytes) (target : Option (List Nibble)) :
    node (d + 1) [e] target = (list [string (hp e.1 true), string e.2], []) := rfl

theorem node_extension (target : Option (List Nibble)) (several : entries.length ≠ 1)
    (some_digit : 0 < commonLength entries) :
    node (d + 1) entries target =
      let sub := target.map (·.drop (commonLength entries))
      let below := node d (shorten (commonLength entries) entries) sub
      (list [string (hp (shared entries) false), (reference below.1 sub.isSome).1],
        below.2 ++ (reference below.1 sub.isSome).2) := by
  conv_lhs => unfold node
  split
  · exact absurd rfl several
  · simp only [some_digit, if_true]

theorem node_branch (target : Option (List Nibble)) (several : entries.length ≠ 1)
    (no_digit : ¬ 0 < commonLength entries) :
    node (d + 1) entries target =
      let slots := (finRange 16).map fun n =>
        if under n entries = [] then (string [], [])
        else
          let t := (target.filter fun t => t.head? = some n).map List.tail
          let below := node d (under n entries) t
          ((reference below.1 t.isSome).1, below.2 ++ (reference below.1 t.isSome).2)
      (list (slots.map Prod.fst ++ [string []]), slots.flatMap Prod.snd) := by
  conv_lhs => unfold node
  split
  · exact absurd rfl several
  · simp only [no_digit, if_false]

theorem node_fst (d : ℕ) (entries : Entries) (target : Option (List Nibble)) :
    (node d entries target).1 = encoded d entries := by
  induction d generalizing entries target with
  | zero => rfl
  | succ d ih =>
    by_cases one : entries.length = 1
    · obtain ⟨e, rfl⟩ := length_eq_one_iff.1 one
      rfl
    · unfold encoded
      by_cases some_digit : 0 < commonLength entries
      · rw [node_extension target one some_digit, node_extension none one some_digit]
        simp only [ih, reference_fst]
      · rw [node_branch target one some_digit, node_branch none one some_digit]
        simp only [map_map]
        congr 2
        refine map_congr_left fun n _ => ?_
        simp only [Function.comp_apply]
        split_ifs
        · rfl
        · simp only [ih, reference_fst]

theorem encoded_extension (several : entries.length ≠ 1)
    (some_digit : 0 < commonLength entries) :
    encoded (d + 1) entries = list [string (hp (shared entries) false),
      (reference (encoded d (shorten (commonLength entries) entries)) false).1] := by
  unfold encoded
  rw [node_extension none several some_digit]
  rfl

theorem encoded_branch (several : entries.length ≠ 1) (no_digit : ¬ 0 < commonLength entries) :
    encoded (d + 1) entries = list ((finRange 16).map (slot d entries) ++ [string []]) := by
  unfold encoded
  rw [node_branch none several no_digit]
  simp only [map_map]
  congr 2
  refine map_congr_left fun n _ => ?_
  unfold slot
  simp only [Function.comp_apply]
  split_ifs <;> rfl

theorem encoded_list (fits : Fits d entries) (some_entry : entries ≠ []) :
    ∃ parts, encoded d entries = list parts ∧ ∀ p ∈ parts, Item p := by
  induction d generalizing entries with
  | zero =>
    obtain ⟨e, mem⟩ := exists_mem_of_ne_nil entries some_entry
    exact absurd (fits e mem) (Nat.not_lt_zero _)
  | succ d ih =>
    by_cases one : entries.length = 1
    · obtain ⟨e, rfl⟩ := length_eq_one_iff.1 one
      exact ⟨_, rfl, by simpa using ⟨Item.string _, Item.string _⟩⟩
    · by_cases some_digit : 0 < commonLength entries
      · have below : shorten (commonLength entries) entries ≠ [] := by
          simpa [shorten] using some_entry
        obtain ⟨parts, eq, each⟩ := ih (fits.shorten some_digit) below
        refine ⟨_, encoded_extension one some_digit, ?_⟩
        have item : Item (reference (list parts) false).1 := item_reference (.list each)
        rw [eq]
        simpa using ⟨Item.string _, item⟩
      · refine ⟨_, encoded_branch one some_digit, fun p mem => ?_⟩
        rcases mem_append.1 mem with in_slot | value
        · obtain ⟨n, -, rfl⟩ := mem_map.1 in_slot
          unfold slot
          split_ifs with empty
          · exact .string []
          · obtain ⟨parts, eq, each⟩ := ih fits.under empty
            rw [eq]
            exact item_reference (.list each)
        · rw [mem_singleton.1 value]
          exact .string []

theorem slots_items (fits : Fits (d + 1) entries) :
    ∀ p ∈ (finRange 16).map (slot d entries), Item p := by
  intro p mem
  obtain ⟨n, -, rfl⟩ := mem_map.1 mem
  unfold slot
  split_ifs with empty
  · exact .string []
  · obtain ⟨parts, eq, each⟩ := encoded_list fits.under empty
    rw [eq]
    exact item_reference (.list each)

theorem encoded_mem_trieNodes (fits : Fits d entries) (some_entry : entries ≠ []) :
    encoded d entries ∈ trieNodes d entries := by
  cases d with
  | zero =>
    obtain ⟨e, mem⟩ := exists_mem_of_ne_nil entries some_entry
    exact absurd (fits e mem) (Nat.not_lt_zero _)
  | succ d => exact mem_cons_self

theorem trieNodes_shorten (several : entries.length ≠ 1) (some_digit : 0 < commonLength entries)
    {m : Bytes} (mem : m ∈ trieNodes d (shorten (commonLength entries) entries)) :
    m ∈ trieNodes (d + 1) entries := by
  unfold trieNodes
  refine mem_cons_of_mem _ ?_
  split
  · exact absurd rfl several
  · rwa [if_pos some_digit]

theorem trieNodes_under (several : entries.length ≠ 1) (no_digit : ¬ 0 < commonLength entries)
    {m : Bytes} (some_entry : under n entries ≠ []) (mem : m ∈ trieNodes d (under n entries)) :
    m ∈ trieNodes (d + 1) entries := by
  unfold trieNodes
  refine mem_cons_of_mem _ ?_
  split
  · exact absurd rfl several
  · rw [if_neg no_digit]
    exact mem_flatMap.2 ⟨n, mem_finRange n, by rwa [if_neg some_entry]⟩

/-! ### A walk ends at the key's entry -/

def NoCollision (proof nodes : List Bytes) : Prop :=
  ∀ n ∈ proof, ∀ m ∈ nodes, keccak n = keccak m → n = m

variable {proof : List Bytes} {turns used : ℕ} {next : Next} {rest : List Nibble}

/-- The reference resolves to this node or to none. -/
def Leads (proof : List Bytes) (next : Next) (used : ℕ) (c : Bytes) : Prop :=
  ∀ n u, resolve proof used next = .ok (n, u) → n = c

omit [RlpCodec] in
theorem hash_leads {c : Bytes} (free : ∀ n ∈ proof, keccak n = keccak c → n = c) :
    Leads proof (.hash (keccak c)) used c := by
  intro n u went
  unfold resolve at went
  cases at_used : proof[used]? with
  | none => simp [at_used, bad] at went
  | some m =>
    simp only [at_used] at went
    split_ifs at went with same
    · simp only [Except.ok.injEq, Prod.mk.injEq] at went
      exact went.1 ▸ free m (mem_of_getElem? at_used) same
    · simp [bad] at went

omit [RlpCodec] in
theorem pointer_leads {c : Bytes} (free : ∀ n ∈ proof, keccak n = keccak c → n = c) :
    Leads proof (pointer c) used c := by
  unfold pointer
  split_ifs with long
  · exact hash_leads free
  · intro n u went
    simp only [resolve, Except.ok.injEq, Prod.mk.injEq] at went
    exact went.1.symm

theorem walk_turn {c : Bytes} (leads : Leads proof next used c)
    (went : walk proof (turns + 1) next used rest = .ok v) :
    (visit c rest = .ok (.inl v)) ∨ ∃ next' rest' u,
      visit c rest = .ok (.inr (next', rest')) ∧ walk proof turns next' u rest' = .ok v := by
  obtain ⟨⟨n, u⟩, resolved, went⟩ := bind_ok.1 went
  obtain ⟨turn, visited, went⟩ := bind_ok.1 went
  rw [leads n u resolved] at visited
  cases turn with
  | inl value =>
    obtain ⟨_, -, same⟩ := bind_ok.1 went
    exact Or.inl (pure_ok.1 same ▸ visited)
  | inr onward => exact Or.inr ⟨onward.1, onward.2, u, visited, went⟩

variable [Lawful]

omit [Lawful] in
theorem slots_getD (n : Nibble) :
    ((finRange 16).map (slot d entries)).getD n [] = slot d entries n := by
  rw [getD_eq_getElem?_getD, getElem?_map]
  simp

theorem walk_sound {d : ℕ} {entries : Entries} (keys : PrefixFree entries) (some_entry : entries ≠ [])
    (fits : Fits d entries) (free : NoCollision proof (trieNodes d entries))
    (leads : Leads proof next used (encoded d entries))
    (went : walk proof turns next used rest = .ok v) : (rest, v) ∈ entries := by
  induction d generalizing entries turns next used rest with
  | zero =>
    obtain ⟨e, mem⟩ := exists_mem_of_ne_nil entries some_entry
    exact absurd (fits e mem) (Nat.not_lt_zero _)
  | succ d ih =>
    cases turns with
    | zero => simp [walk, bad] at went
    | succ turns =>
      have turn := walk_turn leads went
      by_cases one : entries.length = 1
      · obtain ⟨e, rfl⟩ := length_eq_one_iff.1 one
        rw [encoded, node_leaf, visit_pair (.string _)] at turn
        simp only [if_true, data_string] at turn
        rcases turn with ended | ⟨_, _, _, onward, -⟩
        · obtain ⟨_, same, value⟩ := bind_ok.1 ended
          rw [ensure_ok] at same
          have at_v : e.2 = v := Sum.inl.inj (Except.ok.inj value)
          rw [← same, ← at_v]
          exact mem_singleton_self e
        · obtain ⟨_, -, value⟩ := bind_ok.1 onward
          cases value
      by_cases some_digit : 0 < commonLength entries
      · have below : shorten (commonLength entries) entries ≠ [] := by
          simpa [shorten] using some_entry
        have fits' := fits.shorten some_digit
        obtain ⟨parts, eq, each⟩ := encoded_list fits' below
        rw [encoded_extension one some_digit, eq, visit_pair (item_reference (.list each)),
          child_reference each, ← eq] at turn
        simp only [Bool.false_eq_true, if_false] at turn
        rcases turn with ended | ⟨next', rest', u, onward, went'⟩
        · obtain ⟨_, -, value⟩ := bind_ok.1 ended
          cases value
        · obtain ⟨_, along, value⟩ := bind_ok.1 onward
          rw [ensure_ok] at along
          obtain ⟨rfl, rfl⟩ := Prod.mk.inj (Sum.inr.inj (Except.ok.inj value))
          have found := ih keys.shorten below fits'
            (fun n hn m hm => free n hn m (trieNodes_shorten one some_digit hm))
            (pointer_leads fun n hn same => free n hn _
              (trieNodes_shorten one some_digit (encoded_mem_trieNodes fits' below)) same) went'
          have whole := mem_shorten.1 found
          rwa [prefix_iff_eq_append.1 along.2] at whole
      · rw [encoded_branch one some_digit, visit_branch _ ?_ (by simp)] at turn
        · cases rest with
          | nil => rcases turn with ended | ⟨_, _, _, onward, -⟩ <;> simp_all [bad]
          | cons a tail =>
            simp only [slots_getD] at turn
            unfold slot at turn
            split_ifs at turn with empty
            · rw [child_empty] at turn
              rcases turn with ended | ⟨_, _, _, onward, -⟩ <;> simp_all [bad, bind, Except.bind]
            · obtain ⟨parts, eq, each⟩ := encoded_list fits.under empty
              rw [eq, child_reference each, ← eq] at turn
              rcases turn with ended | ⟨next', rest', u, onward, went'⟩
              · cases ended
              · obtain ⟨rfl, rfl⟩ := Prod.mk.inj (Sum.inr.inj (Except.ok.inj onward))
                have found := ih keys.under empty fits.under
                  (fun n hn m hm => free n hn m (trieNodes_under one some_digit empty hm))
                  (pointer_leads fun n hn same => free n hn _
                    (trieNodes_under one some_digit empty
                      (encoded_mem_trieNodes fits.under empty)) same) went'
                exact mem_under.1 found
        · exact slots_items fits

/-! ### The builder's proof is a walk -/

omit [Lawful] in
theorem node_snd_none (d : ℕ) (entries : Entries) : (node d entries none).2 = [] := by
  induction d generalizing entries with
  | zero => rfl
  | succ d ih =>
    by_cases one : entries.length = 1
    · obtain ⟨e, rfl⟩ := length_eq_one_iff.1 one
      rfl
    · by_cases some_digit : 0 < commonLength entries
      · rw [node_extension none one some_digit]
        simp [ih, reference_snd]
      · rw [node_branch none one some_digit]
        simp only [flatMap_map, flatMap_eq_nil_iff]
        intro n _
        split_ifs
        · rfl
        · simp [ih, reference_snd]

def pathBelow (d : ℕ) (entries : Entries) (k : List Nibble) : List Bytes :=
  (node d entries (some k)).2 ++ (reference (encoded d entries) true).2

omit [Lawful] in
theorem node_snd_extension (several : entries.length ≠ 1) (some_digit : 0 < commonLength entries) :
    (node (d + 1) entries (some k)).2 =
      pathBelow d (shorten (commonLength entries) entries) (k.drop (commonLength entries)) := by
  rw [node_extension (some k) several some_digit]
  simp only [Option.map_some, node_fst, Option.isSome_some]
  rfl

omit [RlpCodec] [KeccakHash] [Lawful] in
theorem flatMap_only {α β : Type} {l : List α} (nodup : l.Nodup) {a : α} (mem : a ∈ l)
    {f : α → List β} (others : ∀ x, x ≠ a → f x = []) : l.flatMap f = f a := by
  induction l with
  | nil => exact absurd mem not_mem_nil
  | cons x l ih =>
    obtain ⟨apart, nodup⟩ := nodup_cons.1 nodup
    rw [flatMap_cons]
    by_cases here : x = a
    · subst here
      have rest : l.flatMap f = [] := by
        rw [flatMap_eq_nil_iff]
        exact fun y in_l => others y fun same => apart (same ▸ in_l)
      rw [rest, append_nil]
    · rw [others x here, nil_append]
      exact ih nodup ((mem_cons.1 mem).resolve_left (Ne.symm here))

omit [Lawful] in
theorem node_snd_branch (several : entries.length ≠ 1) (no_digit : ¬ 0 < commonLength entries)
    (some_entry : under n entries ≠ []) :
    (node (d + 1) entries (some (n :: k))).2 = pathBelow d (under n entries) k := by
  rw [node_branch (some (n :: k)) several no_digit]
  simp only [flatMap_map]
  rw [flatMap_only (nodup_finRange 16) (mem_finRange n) ?_]
  · simp only [if_neg some_entry]
    simp [Option.filter, node_fst, pathBelow]
  · intro m other
    split_ifs with empty
    · rfl
    · have elsewhere : ¬ n = m := fun same => other same.symm
      simp [Option.filter, elsewhere, node_snd_none, reference_snd]

omit [Lawful] in
theorem pointer_resolves {c : Bytes} {done after : List Bytes}
    (path : proof = done ++ ((reference c true).2 ++ after)) :
    resolve proof done.length (pointer c) =
      .ok (c, (done ++ (reference c true).2).length) := by
  subst path
  by_cases long : 32 ≤ c.length
  · simp [pointer, reference_snd, resolve, long]
  · simp [pointer, reference_snd, resolve, long]

omit [Lawful] in
theorem pathBelow_reverse : (pathBelow d entries k).reverse =
    (reference (encoded d entries) true).2 ++ (node d entries (some k)).2.reverse := by
  unfold pathBelow
  rw [reverse_append, reference_snd]
  split_ifs <;> rfl

theorem walk_complete {d : ℕ} {entries : Entries} {k : List Nibble} {done : List Bytes}
    (keys : PrefixFree entries) (fits : Fits d entries) (mem : (k, v) ∈ entries)
    (path : proof = done ++ (node d entries (some k)).2.reverse)
    (resolved : resolve proof used next = .ok (encoded d entries, done.length))
    (enough : k.length < turns) : walk proof turns next used k = .ok v := by
  induction d generalizing entries turns next used k done with
  | zero => exact absurd (fits _ mem) (Nat.not_lt_zero _)
  | succ d ih =>
    have some_entry : entries ≠ [] := ne_nil_of_mem mem
    cases turns with
    | zero => exact absurd enough (Nat.not_lt_zero _)
    | succ turns =>
      unfold walk
      rw [resolved]
      change visit _ _ >>= _ = _
      by_cases one : entries.length = 1
      · obtain ⟨e, rfl⟩ := length_eq_one_iff.1 one
        obtain rfl := mem_singleton.1 mem
        have all : done.length = proof.length := by simp [path, node_leaf]
        rw [encoded, node_leaf, visit_pair (.string _)]
        simp only [if_true, data_string]
        rw [ensure, if_pos trivial]
        change finish v done.length proof.length = _
        rw [finish, ensure, if_pos all]
        rfl
      by_cases some_digit : 0 < commonLength entries
      · have below := mem_shorten_of_mem (n := commonLength entries) mem
        have fits' := fits.shorten some_digit
        obtain ⟨parts, eq, each⟩ := encoded_list fits' (ne_nil_of_mem below)
        have length := length_shared some_entry
        have starts : shared entries ≠ [] ∧ shared entries <+: k := by
          refine ⟨fun empty => ?_, shared_front mem⟩
          rw [empty, length_nil] at length
          omega
        rw [encoded_extension one some_digit, eq, visit_pair (item_reference (.list each)),
          child_reference each, ← eq]
        simp only [Bool.false_eq_true, if_false]
        rw [ensure, if_pos starts]
        change walk proof turns (pointer _) done.length (k.drop (shared entries).length) = _
        rw [length]
        rw [node_snd_extension one some_digit, pathBelow_reverse] at path
        refine ih keys.shorten fits' below (by rw [path, append_assoc]) (pointer_resolves path) ?_
        have long := starts.2.length_le
        rw [length_drop]
        omega
      · obtain ⟨a, tail, rfl⟩ := exists_cons_of_ne_nil (keys.ne_nil (by
          have some_length := length_pos_of_ne_nil some_entry
          omega) mem)
        have below := mem_under.2 mem
        have empty := ne_nil_of_mem below
        obtain ⟨parts, eq, each⟩ := encoded_list fits.under empty
        rw [encoded_branch one some_digit, visit_branch _ (slots_items fits) (by simp)]
        simp only [slots_getD]
        unfold slot
        rw [if_neg empty, eq, child_reference each, ← eq]
        change walk proof turns (pointer _) done.length tail = _
        rw [node_snd_branch one some_digit empty, pathBelow_reverse] at path
        refine ih keys.under fits.under below (by rw [path, append_assoc])
          (pointer_resolves path) ?_
        simp only [length_cons] at enough
        omega

omit [Lawful] in
theorem length_path (mem : (k, v) ∈ entries) (keys : PrefixFree entries) :
    (node d entries (some k)).2.length ≤ k.length := by
  induction d generalizing entries k with
  | zero => exact Nat.zero_le _
  | succ d ih =>
    have some_entry : entries ≠ [] := ne_nil_of_mem mem
    have grows (other : Entries) (j : List Nibble) :
        (pathBelow d other j).length ≤ (node d other (some j)).2.length + 1 := by
      unfold pathBelow
      rw [length_append, reference_snd]
      split_ifs <;> simp
    by_cases one : entries.length = 1
    · obtain ⟨e, rfl⟩ := length_eq_one_iff.1 one
      exact Nat.zero_le _
    by_cases some_digit : 0 < commonLength entries
    · have below := ih (mem_shorten_of_mem (n := commonLength entries) mem) keys.shorten
      have long := (shared_front mem).length_le
      have grown := grows (shorten (commonLength entries) entries) (k.drop (commonLength entries))
      rw [length_shared some_entry] at long
      rw [node_snd_extension one some_digit]
      simp only [length_drop] at below
      omega
    · obtain ⟨a, tail, rfl⟩ := exists_cons_of_ne_nil (keys.ne_nil (by
        have some_length := length_pos_of_ne_nil some_entry
        omega) mem)
      have below := ih (mem_under.2 mem) keys.under
      have grown := grows (under a entries) tail
      rw [node_snd_branch one some_digit (ne_nil_of_mem (mem_under.2 mem)), length_cons]
      omega

omit [Lawful] in
theorem encoded_perm (same : entries.Perm other) : encoded d entries = encoded d other := by
  induction d generalizing entries other with
  | zero => rfl
  | succ d ih =>
    by_cases one : entries.length = 1
    · obtain ⟨e, rfl⟩ := length_eq_one_iff.1 one
      rw [singleton_perm.1 same]
    · have one' : other.length ≠ 1 := same.length_eq ▸ one
      have common := commonLength_perm same
      by_cases some_digit : 0 < commonLength entries
      · rw [encoded_extension one some_digit, encoded_extension one' (common ▸ some_digit),
          shared_perm same, ← common, ih (shorten_perm same)]
      · rw [encoded_branch one some_digit, encoded_branch one' (common ▸ some_digit)]
        congr 2
        refine map_congr_left fun n _ => ?_
        have slots : (under n entries).Perm (under n other) := under_perm same
        unfold slot
        by_cases empty : under n entries = []
        · have empty' : under n other = [] := by
            rw [empty] at slots
            exact slots.nil_eq.symm
          rw [if_pos empty, if_pos empty']
        · have empty' : under n other ≠ [] := fun none => empty (by
            rw [none] at slots
            exact slots.eq_nil)
          rw [if_neg empty, if_neg empty', ih slots]

end

end Tenzro.Receipt
