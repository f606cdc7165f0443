import Tenzro.RouteEffects
import Tenzro.Staking

set_option autoImplicit false

/-!
# Payment references

A payment's reference is the hash of its nonce, told apart by origin, and settles once.
-/
namespace Tenzro.Payments
open List Function
open ByteCodec (hexEncode hexEncode_injective)
open Staking (VmError refuse)
open Bridge (ColonFree colonFree_chain colonFree_hexEncode isChainName)

structure PaymentBinding where
  requestDigest : Bytes
  quoteDigest : Bytes
  usdE6 : ℕ
  appMargin : Option (Bytes × ℕ)
deriving DecidableEq

def PaymentBinding.keyed (b : PaymentBinding) : PaymentBinding := { b with usdE6 := 0 }

/-- Where a recorded payment was made. -/
inductive Origin where
  | native
  | proven (chain : String)
  | attested (attestor : Bytes)
deriving DecidableEq

def Origin.scoped (nonce : String) : Origin → String
  | .native => nonce
  | .proven chain => "proven:" ++ chain ++ ":" ++ nonce
  | .attested attestor => "attested:" ++ hexEncode attestor ++ ":" ++ nonce

structure Statement where
  payee : Bytes
  binding : PaymentBinding
  nonce : String
  origin : Origin
deriving DecidableEq

/-! ### Scoped nonces -/

def Origin.Named : Origin → Prop
  | .proven chain => isChainName chain = true
  | _ => True

def SpellsElsewhere (id : String) : Prop :=
  ∃ (o : Origin) (nonce : String), o ≠ .native ∧ o.Named ∧ nonce ≠ "" ∧ id = o.scoped nonce

def Statement.Plain (t : Statement) : Prop := t.origin = .native → ¬SpellsElsewhere t.nonce

theorem split_colon {a b m n : List Char} (ha : ':' ∉ a) (hb : ':' ∉ b)
    (same : a ++ ':' :: m = b ++ ':' :: n) : a = b ∧ m = n := by
  have front (l k : List Char) (free : ':' ∉ l) :
      (l ++ ':' :: k).takeWhile (· ≠ ':') = l := by
    rw [takeWhile_append_of_pos, takeWhile_cons_of_neg (by simp), append_nil]
    intro c mem
    exact decide_eq_true fun colon => free (colon ▸ mem)
  obtain rfl : a = b := by rw [← front a m ha, same, front b n hb]
  exact ⟨rfl, (List.cons.inj (append_cancel_left same)).2⟩

theorem scope_unique {p a b m n : String} (ha : ColonFree a) (hb : ColonFree b)
    (same : p ++ a ++ ":" ++ m = p ++ b ++ ":" ++ n) : a = b ∧ m = n := by
  have chars := congrArg String.toList same
  simp only [String.toList_append, append_assoc, append_cancel_left_eq] at chars
  obtain ⟨scopes, nonces⟩ := split_colon ha hb chars
  exact ⟨String.toList_inj.1 scopes, String.toList_inj.1 nonces⟩

theorem scoped_unique {o o' : Origin} {n n' : String} (named : o.Named) (named' : o'.Named)
    (away : o ≠ .native) (away' : o' ≠ .native) (same : o.scoped n = o'.scoped n') :
    o = o' ∧ n = n' := by
  have first := congrArg (·.toList.head?) same
  cases o with
  | native => exact absurd rfl away
  | proven chain =>
    cases o' with
    | native => exact absurd rfl away'
    | proven chain' =>
      obtain ⟨rfl, rfl⟩ := scope_unique (colonFree_chain named) (colonFree_chain named') same
      exact ⟨rfl, rfl⟩
    | attested => simp [Origin.scoped] at first
  | attested attestor =>
    cases o' with
    | native => exact absurd rfl away'
    | proven => simp [Origin.scoped] at first
    | attested attestor' =>
      obtain ⟨hex, rfl⟩ := scope_unique (colonFree_hexEncode _) (colonFree_hexEncode _) same
      rw [hexEncode_injective hex]
      exact ⟨rfl, rfl⟩

/-! ### Claiming -/

/-- The records by reference, and the reference each settled native id is indexed at. -/
structure PaymentBook (Ref Record : Type) where
  payments : Ref → Option Record
  ids : String → Option Ref

section
variable {Ref Record : Type} (payRef : ℕ → Bytes → PaymentBinding → String → Ref) (chainId : ℕ)

def Statement.reference (t : Statement) : Ref :=
  payRef chainId t.payee t.binding (t.origin.scoped t.nonce)

def claimReference (s : PaymentBook Ref Record) (t : Statement) :
    Except VmError (PaymentBook Ref Record × Ref) :=
  if t.nonce = "" ∨ 128 < t.nonce.utf8ByteSize then refuse "a payment id is 1 to 128 bytes"
  else if t.binding.requestDigest = replicate 32 0 then
    refuse "a payment names the request it pays for"
  else
    let reference := t.reference payRef chainId
    if (s.payments reference).isSome then refuse s!"payment {t.nonce} is already recorded"
    else if t.origin = .native then
      if (s.ids t.nonce).isSome then refuse s!"payment {t.nonce} is already settled"
      else .ok ({ s with ids := update s.ids t.nonce (some reference) }, reference)
    else .ok (s, reference)

def PaymentBook.writeRecord [DecidableEq Ref] (s : PaymentBook Ref Record) (reference : Ref)
    (record : Record) : PaymentBook Ref Record :=
  { s with payments := update s.payments reference (some record) }

def Statement.Valid (t : Statement) : Prop :=
  ¬(t.nonce = "" ∨ 128 < t.nonce.utf8ByteSize) ∧
    t.binding.requestDigest ≠ replicate 32 0

def CollisionFree : Prop := ∀ p b n p' b' n', payRef chainId p b n = payRef chainId p' b' n' →
  p = p' ∧ PaymentBinding.keyed b = PaymentBinding.keyed b' ∧ n = n'

def nativeIds (opened : List Statement) : List String :=
  (opened.filter (·.origin = .native)).map Statement.nonce

variable {payRef chainId} {s : PaymentBook Ref Record} {opened : List Statement} {t t' : Statement}
  {out : PaymentBook Ref Record × Ref}

theorem claimReference_ok : claimReference payRef chainId s t = .ok out ↔
    t.Valid ∧ ¬(s.payments (t.reference payRef chainId)).isSome ∧
      (t.origin = .native → ¬(s.ids t.nonce).isSome) ∧
      (if t.origin = .native then
        { s with ids := update s.ids t.nonce (some (t.reference payRef chainId)) }
        else s, t.reference payRef chainId) = out := by
  unfold claimReference Statement.Valid
  generalize (replicate 32 0 : Bytes) = zero
  simp only
  split_ifs <;> simp_all [refuse]

theorem reference_unique (free : CollisionFree payRef chainId)
    (valid : t.Valid ∧ t.origin.Named) (valid' : t'.Valid ∧ t'.origin.Named)
    (plain : t.Plain) (plain' : t'.Plain)
    (same : t.reference payRef chainId = t'.reference payRef chainId) :
    t.payee = t'.payee ∧ t.binding.keyed = t'.binding.keyed ∧ t.origin = t'.origin ∧
      t.nonce = t'.nonce := by
  obtain ⟨payee, binding, scope⟩ := free _ _ _ _ _ _ same
  refine ⟨payee, binding, ?_⟩
  by_cases native : t.origin = .native <;> by_cases native' : t'.origin = .native
  · rw [native, native'] at scope
    exact ⟨native.trans native'.symm, scope⟩
  · rw [native] at scope
    exact absurd ⟨_, _, native', valid'.2, valid'.1.1 ∘ .inl, scope⟩ (plain native)
  · rw [native'] at scope
    exact absurd ⟨_, _, native, valid.2, valid.1.1 ∘ .inl, scope.symm⟩ (plain' native')
  · exact scoped_unique valid.2 valid'.2 native native' scope

/-! ### Runs -/

variable [DecidableEq Ref] (payRef chainId)

/-- The books after settlements, later changes of a record, and the statements recorded. -/
inductive Recording : PaymentBook Ref Record → List Statement → Prop
  | fresh : Recording ⟨fun _ => none, fun _ => none⟩ []
  | record {s s' : PaymentBook Ref Record} {opened : List Statement} {t : Statement}
      {reference : Ref} (run : Recording s opened) (named : t.origin.Named)
      (claimed : claimReference payRef chainId s t = .ok (s', reference)) (record : Record) :
      Recording (s'.writeRecord reference record) (t :: opened)
  | rewrite {s : PaymentBook Ref Record} {opened : List Statement} {reference : Ref}
      (run : Recording s opened) (found : (s.payments reference).isSome) (record : Record) :
      Recording (s.writeRecord reference record) opened

/-- The records and the index hold exactly what was opened, each once. -/
structure Indexed (s : PaymentBook Ref Record) (opened : List Statement) : Prop where
  valid : ∀ t ∈ opened, t.Valid ∧ t.origin.Named
  payments : ∀ r, (s.payments r).isSome ↔ r ∈ opened.map (Statement.reference payRef chainId)
  ids : ∀ id, (s.ids id).isSome ↔ id ∈ nativeIds opened
  once : (opened.map (Statement.reference payRef chainId)).Nodup
  onceId : (nativeIds opened).Nodup

/-- References tell payments apart, block only their own, and open once. -/
structure Unambiguous (s : PaymentBook Ref Record) (opened : List Statement) : Prop where
  apart : ∀ t ∈ opened, ∀ t' : Statement, t'.Valid → t'.origin.Named → t'.Plain →
    t.reference payRef chainId = t'.reference payRef chainId →
    t.origin = t'.origin ∧ t.nonce = t'.nonce
  unblocked : ∀ t : Statement, t.Valid → t.origin.Named → t.Plain →
    (∀ t' ∈ opened, t'.origin = t.origin → t'.nonce = t.nonce →
      t.origin ≠ .native ∧ (t'.payee ≠ t.payee ∨ t'.binding.keyed ≠ t.binding.keyed)) →
    ∃ out, claimReference payRef chainId s t = .ok out
  once : (opened.map (Statement.reference payRef chainId)).Nodup
  onceId : (nativeIds opened).Nodup

variable {payRef chainId}

theorem isSome_writeRecord {reference r : Ref} {record : Record} :
    ((s.writeRecord reference record).payments r).isSome ↔
      r = reference ∨ (s.payments r).isSome := by
  unfold PaymentBook.writeRecord
  by_cases own : r = reference <;> simp [own]

theorem Recording.indexed (run : Recording payRef chainId s opened) :
    Indexed payRef chainId s opened := by
  induction run with
  | fresh => exact ⟨by simp, by simp, by simp [nativeIds], nodup_nil, nodup_nil⟩
  | @record s s' opened t reference run named claimed record ih =>
    obtain ⟨valid, unrecorded, unsettled, out⟩ := claimReference_ok.1 claimed
    obtain ⟨rfl, rfl⟩ := Prod.mk.inj out
    have fresh := (ih.payments _).not.1 unrecorded
    refine ⟨forall_mem_cons.2 ⟨⟨valid, named⟩, ih.valid⟩, fun r => ?_, fun id => ?_,
      nodup_cons.2 ⟨fresh, ih.once⟩, ?_⟩
    · rw [isSome_writeRecord, map_cons, mem_cons, ← ih.payments]
      split_ifs <;> rfl
    · have before := ih.ids id
      unfold PaymentBook.writeRecord nativeIds at *
      by_cases native : t.origin = .native <;> by_cases own : id = t.nonce <;> simp_all
    · unfold nativeIds
      by_cases native : t.origin = .native
      · rw [filter_cons_of_pos (by simpa using native)]
        exact nodup_cons.2 ⟨(ih.ids _).not.1 (unsettled native), ih.onceId⟩
      · rw [filter_cons_of_neg (by simpa using native)]
        exact ih.onceId
  | rewrite run found record ih =>
    refine ⟨ih.valid, fun r => ?_, ih.ids, ih.once, ih.onceId⟩
    rw [isSome_writeRecord, ← ih.payments]
    exact or_iff_right_of_imp fun own => own ▸ found

theorem Recording.unambiguous (run : Recording payRef chainId s opened)
    (free : CollisionFree payRef chainId) (plain : ∀ t ∈ opened, t.Plain) :
    Unambiguous payRef chainId s opened := by
  have indexed := run.indexed
  refine ⟨fun t mem t' valid named own same => ?_, fun t valid named own fresh => ?_,
    indexed.once, indexed.onceId⟩
  · exact (reference_unique free (indexed.valid t mem) ⟨valid, named⟩ (plain t mem) own same).2.2
  · refine ⟨_, claimReference_ok.2 ⟨valid, fun held => ?_, fun native held => ?_, rfl⟩⟩
    · obtain ⟨t', mem, same⟩ := mem_map.1 ((indexed.payments _).1 held)
      obtain ⟨payee, binding, origin, nonce⟩ := reference_unique free (indexed.valid t' mem)
        ⟨valid, named⟩ (plain t' mem) own same
      rcases (fresh t' mem origin nonce).2 with other | other
      · exact other payee
      · exact other binding
    · obtain ⟨t', mem, nonce⟩ := mem_map.1 ((indexed.ids _).1 held)
      obtain ⟨mem, native'⟩ := mem_filter.1 mem
      exact (fresh t' mem ((of_decide_eq_true native').trans native.symm) nonce).1 native

end

namespace SpelledId

def payRef (_ : ℕ) (payee : Bytes) (binding : PaymentBinding) (nonce : String) :=
  (payee, binding.keyed, nonce)

theorem payRef_free : CollisionFree payRef 1 := fun _ _ _ _ _ _ same => by
  simpa [payRef] using same

def statement (nonce : String) (origin : Origin) : Statement :=
  ⟨replicate 32 2, ⟨replicate 32 1, replicate 32 0, 0, none⟩, nonce, origin⟩

theorem valid_of {nonce : String} {origin : Origin}
    (sized : ¬(nonce = "" ∨ 128 < nonce.utf8ByteSize)) : (statement nonce origin).Valid :=
  ⟨sized, show (replicate 32 1 : Bytes) ≠ replicate 32 0 by decide⟩

theorem native_recorded (id : String) (sized : ¬(id = "" ∨ 128 < id.utf8ByteSize)) :
    ∃ s : PaymentBook _ Unit, Recording payRef 1 s [statement id .native] :=
  ⟨_, .record (t := statement id .native) .fresh trivial (claimReference_ok.2 ⟨valid_of sized, by simp, by simp,
    rfl⟩) ()⟩

/-- A native payment under the id `proven:ethereum:7` takes the reference of the payment `7` proven
from that chain. -/
theorem native_blocks_proven : ∃ s : PaymentBook _ Unit,
    Recording payRef 1 s [statement "proven:ethereum:7" .native] ∧
      (statement "7" (.proven "ethereum")).Valid ∧ Origin.Named (.proven "ethereum") ∧
      claimReference payRef 1 s (statement "7" (.proven "ethereum")) =
        refuse "payment 7 is already recorded" := by
  obtain ⟨s, run⟩ := native_recorded "proven:ethereum:7" (by decide)
  refine ⟨s, run, valid_of (by decide), by unfold Origin.Named; decide, ?_⟩
  have held := (run.indexed.payments ((statement "7" (.proven "ethereum")).reference payRef 1)).2
    (.head _)
  unfold claimReference
  rw [if_neg (by decide), if_neg (by decide), if_pos held]
  rfl

/-- One payment under an id of another shape. -/
theorem unambiguous_order : ∃ s : PaymentBook _ Unit,
    Unambiguous payRef 1 s [statement "order" .native] := by
  obtain ⟨s, run⟩ := native_recorded "order" (by decide)
  refine ⟨s, run.unambiguous payRef_free ?_⟩
  rintro _ (_ | ⟨_, ⟨⟩⟩) - ⟨o, nonce, away, -, -, spelled⟩
  have first := congrArg (·.toList.head?) spelled
  cases o <;> simp [Origin.scoped, statement] at away first

end SpelledId

end Tenzro.Payments
