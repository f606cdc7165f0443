import Tenzro.RouteState

set_option autoImplicit false

/-!
# Keys of the route records never collide

A key is its fields joined by colons, and no field holds one, so two keys with the same
text are the same key.
-/
namespace Tenzro.Bridge
open ByteCodec List Function Nat

/-! ### Joined fields -/

def ColonFree (s : String) : Prop := ':' ∉ s.toList

theorem intercalate_injective {xs ys : List String} (hx : ∀ s ∈ xs, ColonFree s)
    (hy : ∀ s ∈ ys, ColonFree s) (nx : xs ≠ []) (ny : ys ≠ [])
    (h : ":".intercalate xs = ":".intercalate ys) : xs = ys := by
  have chars := congrArg String.toList h
  rw [String.toList_intercalate, String.toList_intercalate] at chars
  have split (zs : List String) (free : ∀ s ∈ zs, ColonFree s) (nonempty : zs ≠ []) :
      ([':'].intercalate (zs.map String.toList)).splitOn ':' = zs.map String.toList := by
    apply splitOn_intercalate
    · intro l mem
      obtain ⟨s, hs, rfl⟩ := mem_map.1 mem
      exact free s hs
    · simpa using nonempty
  have parts : xs.map String.toList = ys.map String.toList := by
    rw [← split xs hx nx, ← split ys hy ny]
    exact congrArg (splitOn ':') chars
  exact map_injective_iff.2 (fun a b => String.toList_inj.1) parts

theorem colonFree_of_all {s : String} {p : Char → Bool} (h : s.toList.all p = true)
    (no : p ':' = false) : ColonFree s := by
  intro mem
  have := all_eq_true.1 h ':' mem
  simp [no] at this

theorem colonFree_toString (n : ℕ) : ColonFree (toString n) := by
  intro mem
  rw [toString_eq_repr, toList_repr] at mem
  have digit := isDigit_of_mem_toDigits (by decide) (by decide) mem
  simp [Char.isDigit] at digit

theorem colonFree_hexEncode (b : Bytes) : ColonFree (hexEncode b) := by
  intro mem
  have := mem_hexEncode mem
  simp [Char.isAlphanum, Char.isAlpha, Char.isUpper, Char.isLower, Char.isDigit] at this

theorem colonFree_asStr (a : BridgeRouteAdapter) : ColonFree a.asStr := by
  cases a <;> (unfold ColonFree; decide)

theorem colonFree_direction (d : LaneDirection) : ColonFree d.asStr := by
  cases d <;> (unfold ColonFree; decide)

/-! ### Keys -/

def RouteKey.Clean : RouteKey → Prop
  | .assetMintEpoch r symbol => ColonFree r.chain ∧ ColonFree symbol
  | .outflow unit => ColonFree unit
  | .assetSupply r symbol => ColonFree r.chain ∧ ColonFree symbol
  | .assetLane _ r symbol => ColonFree r.chain ∧ ColonFree symbol
  | .lightClient r _ suffix => ColonFree r.chain ∧ suffix ≠ ["utxos"] ∧ ∀ f ∈ suffix, ColonFree f
  | .nonce r _ => ColonFree r.chain
  | .messageNonce r _ => ColonFree r.chain
  | .mintEpoch r => ColonFree r.chain
  | .supply r => ColonFree r.chain
  | .sequence r => ColonFree r.chain
  | .messageSequence r => ColonFree r.chain
  | .outbound r _ => ColonFree r.chain
  | .outboundMessage r _ => ColonFree r.chain
  | .lane _ r => ColonFree r.chain
  | .utxos r _ => ColonFree r.chain
  | .ibc _ => True

theorem RouteKey.Clean.fields {k : RouteKey} (h : k.Clean) : ∀ f ∈ k.fields, ColonFree f := by
  have adapter := colonFree_asStr
  have digits := colonFree_toString
  have hex := colonFree_hexEncode
  have direction := colonFree_direction
  have literal : ∀ s ∈ ["bridge_nonce", "bridge_msg_nonce", "bridge_mint_epoch",
      "bridge_outflow_epoch", "bridge_supply", "bridge_out_seq", "bridge_out_msg_seq",
      "bridge_out", "bridge_out_msg", "bridge_lane", "bridge_lc", "bridge_route", "utxos"],
      ColonFree s := by
    unfold ColonFree
    decide
  simp only [forall_mem_cons, not_mem_nil, false_implies, implies_true, and_true]
    at literal
  cases k with
  | ibc path =>
    intro f mem
    simp only [RouteKey.fields, mem_singleton] at mem
    subst mem
    intro colon
    rw [String.toList_append, mem_append] at colon
    rcases colon with colon | colon
    · revert colon
      decide
    · exact hex path colon
  | _ => simp_all [RouteKey.fields, RouteName.fields, RouteKey.Clean]

theorem asStr_inj {a b : BridgeRouteAdapter} : a.asStr = b.asStr ↔ a = b := by
  constructor
  · intro h
    cases a <;> cases b <;> first | rfl | (revert h; decide)
  · exact congrArg _

theorem direction_inj {a b : LaneDirection} : a.asStr = b.asStr ↔ a = b := by
  constructor
  · intro h
    cases a <;> cases b <;> first | rfl | (revert h; decide)
  · exact congrArg _

theorem hexEncode_inj {a b : Bytes} : hexEncode a = hexEncode b ↔ a = b :=
  ⟨hexEncode_injective, congrArg _⟩

theorem routeName_ext {r r' : RouteName} (adapter : r.adapter = r'.adapter)
    (chain : r.chain = r'.chain) : r = r' := by
  cases r
  cases r'
  cases adapter
  cases chain
  rfl

theorem ibcText_injective {a b : Bytes} (h : "ibc/" ++ hexEncode a = "ibc/" ++ hexEncode b) :
    a = b := by
  have chars := congrArg String.toList h
  rw [String.toList_append, String.toList_append, append_cancel_left_eq] at chars
  exact hexEncode_injective (String.toList_inj.1 chars)

theorem toString_injective {m n : ℕ} (h : toString m = toString n) : m = n := by
  rw [toString_eq_repr, toString_eq_repr] at h
  exact repr_injective h

theorem RouteKey.fields_injective {k k' : RouteKey} (h : k.Clean) (h' : k'.Clean)
    (same : k.fields = k'.fields) : k = k' := by
  cases k <;> cases k' <;>
    simp_all only [RouteKey.fields, RouteName.fields, RouteKey.Clean, cons_append,
      nil_append, List.cons.injEq, and_true, true_and, asStr_inj, direction_inj,
      hexEncode_inj, reduceCtorEq, String.reduceEq, and_false, false_and]
  all_goals grind [routeName_ext, toString_injective, ibcText_injective]

theorem RouteKey.fields_ne_nil (k : RouteKey) : k.fields ≠ [] := by
  cases k <;> simp [RouteKey.fields]

theorem RouteKey.text_injective {k k' : RouteKey} (h : k.Clean) (h' : k'.Clean)
    (same : k.text = k'.text) : k = k' :=
  fields_injective h h'
    (intercalate_injective h.fields h'.fields k.fields_ne_nil k'.fields_ne_nil same)

/-! ### What a list of writes leaves -/

def written : List Write → RouteKey → Option Bytes
  | [], _ => none
  | w :: writes, k => (written writes k).or (if w.1 = k then some w.2 else none)

section
variable {writes later : List Write} {k : RouteKey}

@[simp]
theorem written_nil : written [] k = none := rfl

@[simp]
theorem written_cons {w : Write} :
    written (w :: writes) k = (written writes k).or (if w.1 = k then some w.2 else none) := rfl

@[simp]
theorem written_append :
    written (writes ++ later) k = (written later k).or (written writes k) := by
  induction writes with
  | nil => simp
  | cons w writes ih => simp [ih, Option.or_assoc]

theorem written_of_ne (h : ∀ w ∈ writes, w.1 ≠ k) : written writes k = none := by
  induction writes with
  | nil => rfl
  | cons w writes ih =>
    rw [written_cons, ih fun x mem => h x (by simp [mem]), if_neg (h w (by simp))]
    rfl

end

/-- What a record is for. -/
inductive RecordKind where
  | nonce
  | messageNonce
  | minted
  | outflow
  | supply
  | sequence
  | messageSequence
  | outbound
  | outboundMessage
  | lane
  | utxos
  | lightClient
  | ibc
deriving DecidableEq

def RouteKey.kind : RouteKey → RecordKind
  | .nonce .. => .nonce
  | .messageNonce .. => .messageNonce
  | .mintEpoch .. => .minted
  | .assetMintEpoch .. => .minted
  | .outflow .. => .outflow
  | .supply .. => .supply
  | .assetSupply .. => .supply
  | .sequence .. => .sequence
  | .messageSequence .. => .messageSequence
  | .outbound .. => .outbound
  | .outboundMessage .. => .outboundMessage
  | .lane .. => .lane
  | .assetLane .. => .lane
  | .utxos .. => .utxos
  | .lightClient .. => .lightClient
  | .ibc .. => .ibc

def ofKind (kind : RecordKind) (writes : List Write) : List Write :=
  writes.filter fun w => w.1.kind = kind

section
variable {writes later : List Write} {kind : RecordKind}

@[simp]
theorem ofKind_nil : ofKind kind [] = [] := rfl

@[simp]
theorem ofKind_cons {w : Write} :
    ofKind kind (w :: writes) = (if w.1.kind = kind then [w] else []) ++ ofKind kind writes := by
  unfold ofKind
  by_cases h : w.1.kind = kind <;> simp [h]

@[simp]
theorem ofKind_append : ofKind kind (writes ++ later) = ofKind kind writes ++ ofKind kind later :=
  filter_append ..

theorem ofKind_eq_nil (h : ∀ w ∈ writes, w.1.kind ≠ kind) : ofKind kind writes = [] := by
  simpa [ofKind] using h

theorem ofKind_of_key {key : RouteKey} (h : ∀ w ∈ writes, w.1 = key) (no : kind ≠ key.kind) :
    ofKind kind writes = [] :=
  ofKind_eq_nil fun w mem => by
    rw [h w mem]
    exact no.symm

theorem written_ofKind {k : RouteKey} : written (ofKind k.kind writes) k = written writes k := by
  induction writes with
  | nil => rfl
  | cons w writes ih =>
    rw [ofKind_cons, written_append, written_cons, ih]
    by_cases same : w.1 = k
    · simp [same]
    · congr 1
      rw [if_neg same]
      split_ifs <;> simp [same]

end

namespace RouteState

theorem put_get {s : RouteState} {writes : List Write} {k : RouteKey} (clean : k.Clean)
    (all : ∀ w ∈ writes, w.1.Clean) : (s.put writes).get k = (written writes k).or (s.get k) := by
  unfold put get
  generalize s.kv = kv
  induction writes generalizing kv with
  | nil => rfl
  | cons w writes ih =>
    have first : update kv w.1.text (some w.2) k.text =
        (if w.1 = k then some w.2 else none).or (kv k.text) := by
      split_ifs with same
      · rw [same]
        exact update_self ..
      · refine update_of_ne (fun text => same ?_) ..
        exact (RouteKey.text_injective clean (all w (by simp)) text).symm
    have rest := ih (fun x mem => all x (by simp [mem])) (update kv w.1.text (some w.2))
    simp only [foldl_cons, written_cons, Option.or_assoc]
    rw [← first]
    exact rest

end RouteState

end Tenzro.Bridge
