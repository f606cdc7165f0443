import Tenzro.Beacon

set_option autoImplicit false
set_option linter.dupNamespace false

/-!
# The beacon over whole runs

A run is a sequence of contributions, each under the stake, the keys, the lever and the time it
finds.
-/
namespace Tenzro.Beacon
open ByteCodec FixedWidth Outcome List
open Staking (VmError refuse bump)
open ProofVerifiers (Fixed Word SchemeHash sha utf8)
open Bisection (firstTrue)

/-! ### Hexadecimal words -/

theorem hexValue_hexDigit {n : ℕ} (small : n < 16) : Rates.hexValue (hexDigit n) = some n := by
  have all : ∀ n < 16, Rates.hexValue (hexDigit n) = some n := by decide
  exact all n small

theorem hexDecode_flatMap (b : Bytes) : Rates.hexDecode (b.flatMap hexByte) = some b := by
  induction b with
  | nil => rfl
  | cons x b ih =>
    have small := x.toNat_lt
    have whole : UInt8.ofNat (16 * (x.toNat / 16) + x.toNat % 16) = x := by
      rw [Nat.div_add_mod]
      exact UInt8.ofNat_toNat
    rw [flatMap_cons]
    show Rates.hexDecode (hexDigit _ :: hexDigit _ :: b.flatMap hexByte) = _
    simp only [Rates.hexDecode, hexValue_hexDigit (show x.toNat / 16 < 16 by omega),
      hexValue_hexDigit (show x.toNat % 16 < 16 by omega), ih]
    exact congrArg (fun y => some (y :: b)) whole

theorem hexDecode_hexEncode (b : Bytes) : Rates.hexDecode (hexEncode b).toList = some b := by
  rw [hexEncode, String.toList_ofList, hexDecode_flatMap]

theorem toFixed_val {n : ℕ} (b : Fixed n) : toFixed n b.val = some b := dif_pos b.property

theorem toFixed_eq {n : ℕ} {b : Bytes} (length : b.length = n) : ∃ f, toFixed n b = some f :=
  ⟨⟨b, length⟩, dif_pos length⟩

theorem decodeWord_hexEncode (w : Word) : decodeWord (hexEncode w.val) = some w := by
  unfold decodeWord
  rw [hexDecode_hexEncode]
  exact toFixed_val w

/-! ### One contribution -/

theorem secretsIn_ok {lever : Bool} {bytes : Bytes} {commitment reveal : Option Word}
    (ran : secretsIn lever bytes = .ok (commitment, reveal)) :
    commitment.isSome = lever ∧ (reveal.isSome → lever) := by
  unfold secretsIn at ran
  cases lever with
  | false =>
    rw [if_neg (by decide)] at ran
    split_ifs at ran
    · obtain ⟨rfl, rfl⟩ := Prod.ext_iff.1 (Except.ok.inj ran)
      exact ⟨rfl, nofun⟩
    · cases ran
  | true =>
    rw [if_pos rfl] at ran
    split_ifs at ran with one two
    · obtain ⟨rfl, rfl⟩ := Prod.ext_iff.1 (Except.ok.inj ran)
      obtain ⟨c, exact'⟩ := toFixed_eq (show (bytes.drop proofLen).length = 32 by
        rw [length_drop, one, Nat.add_sub_cancel_left])
      exact ⟨by rw [exact']; rfl, fun _ => rfl⟩
    · obtain ⟨rfl, rfl⟩ := Prod.ext_iff.1 (Except.ok.inj ran)
      obtain ⟨c, exact'⟩ := toFixed_eq (show ((bytes.drop proofLen).take 32).length = 32 by
        rw [length_take, length_drop, two, Nat.add_sub_cancel_left]
        rfl)
      exact ⟨by rw [exact']; rfl, fun _ => rfl⟩
    · cases ran

structure BeaconCall where
  view : BeaconView
  sender : Bytes
  payload : Except String BeaconContribution

section
variable [SchemeHash]

def Opens (addr : Bytes) (h : BeaconCommitment) (r : Word) : Prop :=
  hexEncode (commitmentTo addr r).val = h.commitment

/-- What a contribution reveals: the secret its validator committed to, or nothing. -/
def Reveals (s : BeaconState) (sender : Bytes) (reveal : Option Word) : Prop :=
  match s.commitments sender with
  | none => reveal = none
  | some h => ∃ r, reveal = some r ∧ Opens sender h r

variable {s s' : BeaconState} {sender : Bytes} {entry : BeaconEntry}
  {commitment reveal : Option Word} {next : Word} {nowMs : ℤ}

theorem checkReveal_ok {u : Unit} :
    s.checkReveal sender reveal = .ok u ↔ Reveals s sender reveal := by
  unfold BeaconState.checkReveal Reveals Opens refuse
  cases s.commitments sender with
  | none => cases reveal <;> simp
  | some h =>
    cases reveal with
    | none => simp
    | some r => simp

def nextIndex (s : BeaconState) (sender : Bytes) : ℕ :=
  (s.commitments sender).elim 0 fun h => h.index + 1

omit [SchemeHash] in
theorem commit_ok {commitments : Bytes → Option BeaconCommitment}
    (ran : s.commit sender commitment = .ok commitments) :
    commitments = commitment.elim s.commitments fun c =>
      Function.update s.commitments sender (some ⟨hexEncode c.val, nextIndex s sender⟩) := by
  cases commitment with
  | none => exact (Except.ok.inj ran).symm
  | some c =>
    obtain ⟨index, counted, ran⟩ := bind_ok.1 ran
    rw [← pure_ok.1 ran]
    unfold nextIndex
    cases held : s.commitments sender with
    | none =>
      rw [held] at counted
      rw [← Except.ok.inj counted]
      rfl
    | some h =>
      rw [held] at counted
      simp only [Option.elim_some, bump] at counted
      split_ifs at counted
      rw [← Except.ok.inj counted]
      rfl

theorem record_ok (ran : s.record nowMs sender commitment next = .ok (s', entry)) :
    s.readHead.round < maxValue 64 ∧
    entry = ⟨s.readHead.round, hexEncode next.val, nowMs, hexEncode sender⟩ ∧
    s' = ⟨some ⟨s.readHead.round + 1, hexEncode next.val⟩,
      Function.update s.entries s.readHead.round (some entry),
      Function.update s.last sender (some nowMs),
      commitment.elim s.commitments fun c =>
        Function.update s.commitments sender (some ⟨hexEncode c.val, nextIndex s sender⟩)⟩ := by
  obtain ⟨commitments, committed, ran⟩ := bind_ok.1 ran
  obtain ⟨round, counted, ran⟩ := bind_ok.1 ran
  obtain ⟨rfl, rfl⟩ := Prod.ext_iff.1 (pure_ok.1 ran)
  unfold bump at counted
  split_ifs at counted with fits
  refine ⟨fits, rfl, ?_⟩
  rw [← commit_ok committed, ← Except.ok.inj counted]

variable [Vrf]

/-- What a contribution that is taken met and did. -/
structure Contributed (s : BeaconState) (call : BeaconCall) (s' : BeaconState)
    (entry : BeaconEntry) (key : Word) (output : Fixed 64) (commitment reveal : Option Word) :
    Prop where
  registered : call.view.vrfKey call.sender = some key
  verified : ∃ proof,
    Vrf.verify key (alpha s.readHead.round (mixBytes s.readHead)) proof = .ok output
  commits : commitment.isSome = call.view.commitReveal
  lever : reveal.isSome → call.view.commitReveal
  reveals : Reveals s call.sender reveal
  recorded : s.record call.view.nowMs call.sender commitment
    (nextMix (mixBytes s.readHead) output reveal) = .ok (s', entry)

theorem contribute_ok {call : BeaconCall}
    (ran : s.contribute call.view call.sender call.payload = .ok (s', entry)) :
    ∃ key output commitment reveal, Contributed s call s' entry key output commitment reveal := by
  unfold BeaconState.contribute at ran
  simp only [bind_ok] at ran
  obtain ⟨c, -, _, -, _, -, _, -, key, registered, bytes, -, ⟨commitment, reveal⟩, shape, proof, -,
    _, reveals, output, verified, ran⟩ := ran
  obtain ⟨commits, lever⟩ := secretsIn_ok shape
  refine ⟨key, output, commitment, reveal, ?_, ⟨proof, ?_⟩, commits, lever,
    checkReveal_ok.1 reveals, ran⟩
  · cases stored : call.view.vrfKey call.sender with
    | none =>
      rw [stored] at registered
      cases registered
    | some key' =>
      rw [stored] at registered
      rw [Except.ok.inj registered]
  · cases checked : Vrf.verify key (alpha s.readHead.round (mixBytes s.readHead)) proof with
    | error e =>
      rw [checked] at verified
      cases verified
    | ok output' =>
      rw [checked] at verified
      rw [Except.ok.inj verified]

theorem contribution_of {view : BeaconView} {payload : Except String BeaconContribution}
    (ran : s.contribute view sender payload = .ok (s', entry)) :
    ∃ key output commitment reveal,
      Contributed s ⟨view, sender, payload⟩ s' entry key output commitment reveal :=
  contribute_ok ran

namespace Contributed
variable {call : BeaconCall} {key : Word} {output : Fixed 64}
  (h : Contributed s call s' entry key output commitment reveal)
include h

theorem head : s'.readHead =
    ⟨s.readHead.round + 1, hexEncode (nextMix (mixBytes s.readHead) output reveal).val⟩ := by
  rw [(record_ok h.recorded).2.2]
  rfl

theorem mix : entryMix entry = some (nextMix (mixBytes s.readHead) output reveal) := by
  rw [(record_ok h.recorded).2.1]
  exact decodeWord_hexEncode _

theorem mixBytes_head : mixBytes s'.readHead = nextMix (mixBytes s.readHead) output reveal := by
  rw [h.head]
  exact congrArg (Option.getD · genesisMix) (decodeWord_hexEncode _)

theorem recommits {c : BeaconCommitment} (held : s.commitments call.sender = some c) :
    ∃ c', s'.commitments call.sender = some c' ∧ c'.index = c.index + 1 := by
  have reveals := h.reveals
  unfold Reveals at reveals
  rw [held] at reveals
  obtain ⟨r, rfl, -⟩ := reveals
  have on := h.commits.trans (h.lever rfl)
  obtain ⟨word, rfl⟩ := Option.isSome_iff_exists.1 on
  rw [(record_ok h.recorded).2.2]
  refine ⟨_, Function.update_self .., ?_⟩
  show nextIndex s call.sender = _
  unfold nextIndex
  rw [held]
  rfl

theorem commitments {a : Bytes} {c : BeaconCommitment} (held : s'.commitments a = some c) :
    s.commitments a = some c ∨ a = call.sender ∧ c.index = nextIndex s call.sender := by
  rw [(record_ok h.recorded).2.2] at held
  cases commitment with
  | none => exact .inl held
  | some word =>
    by_cases same : a = call.sender
    · subst same
      simp only [Option.elim_some, Function.update_self] at held
      obtain rfl := Option.some.inj held
      exact .inr ⟨rfl, rfl⟩
    · simp only [Option.elim_some, Function.update_of_ne same] at held
      exact .inl held

theorem kept {a : Bytes} (other : a ≠ call.sender) : s'.commitments a = s.commitments a := by
  rw [(record_ok h.recorded).2.2]
  cases commitment with
  | none => rfl
  | some word => exact Function.update_of_ne other _ _

end Contributed

/-! ### Runs -/

/-- A value the beacon took, with the contribution and the state it was taken in. -/
structure Taken where
  before : BeaconState
  call : BeaconCall
  entry : BeaconEntry

def Taken.consumed (t : Taken) : Option (Bytes × ℕ) :=
  (t.before.commitments t.call.sender).map fun c => (t.call.sender, c.index)

structure BeaconWorld where
  state : BeaconState
  taken : List Taken

namespace BeaconWorld

def start : BeaconWorld := ⟨⟨none, fun _ => none, fun _ => none, fun _ => none⟩, []⟩

def apply (w : BeaconWorld) (call : BeaconCall) : BeaconWorld :=
  match w.state.contribute call.view call.sender call.payload with
  | .error _ => w
  | .ok (s, entry) => ⟨s, w.taken ++ [⟨w.state, call, entry⟩]⟩

def run (w : BeaconWorld) (calls : List BeaconCall) : BeaconWorld := calls.foldl apply w

def mixAfter (l : List Taken) : Word := (l.getLast?.bind fun t => entryMix t.entry).getD genesisMix

end BeaconWorld

/-- How a value comes from the mix before it: through the output of its validator's key on its round
and that mix, and through the secret its validator committed to before. -/
def Taken.Chained (t : Taken) (n : ℕ) (mix : Word) : Prop :=
  ∃ key output reveal, t.call.view.vrfKey t.call.sender = some key ∧
    (∃ proof, Vrf.verify key (alpha n mix) proof = .ok output) ∧
    entryMix t.entry = some (nextMix mix output reveal) ∧
    Reveals t.before t.call.sender reveal ∧
    t.entry = ⟨n, hexEncode (nextMix mix output reveal).val, t.call.view.nowMs,
      hexEncode t.call.sender⟩

namespace BeaconWorld

structure Kept (w : BeaconWorld) : Prop where
  rounds : w.state.readHead.round = w.taken.length
  mix : mixBytes w.state.readHead = mixAfter w.taken
  entries : ∀ n, w.state.entries n = (w.taken[n]?).map Taken.entry
  chained : ∀ (n : ℕ) (t : Taken), w.taken[n]? = some t → t.Chained n (mixAfter (w.taken.take n))
  indexed : ∀ a c, w.state.commitments a = some c → c.index < w.taken.length
  spent : ∀ t ∈ w.taken, ∀ a i, t.consumed = some (a, i) →
    ∃ c, w.state.commitments a = some c ∧ i < c.index
  once : (w.taken.filterMap Taken.consumed).Nodup

omit [Vrf] in
theorem mixBytes_genesis : mixBytes ⟨0, hexEncode genesisMix.val⟩ = genesisMix := by
  unfold mixBytes
  rw [decodeWord_hexEncode]
  rfl

theorem kept_start : start.Kept where
  rounds := rfl
  mix := mixBytes_genesis
  entries := by simp [start]
  chained := by simp [start]
  indexed := by simp [start]
  spent := by simp [start]
  once := nodup_nil

variable {w : BeaconWorld} {call : BeaconCall} {key : Word} {output : Fixed 64}

omit [Vrf] in
theorem mixAfter_append (l : List Taken) (t : Taken) :
    mixAfter (l ++ [t]) = (entryMix t.entry).getD genesisMix := by
  unfold mixAfter
  rw [getLast?_concat]
  rfl

theorem Kept.contributed (kept : w.Kept)
    (h : Contributed w.state call s' entry key output commitment reveal) :
    Kept ⟨s', w.taken ++ [⟨w.state, call, entry⟩]⟩ := by
  obtain ⟨-, entry_eq, state_eq⟩ := record_ok h.recorded
  have longer : (w.taken ++ [(⟨w.state, call, entry⟩ : Taken)]).length = w.taken.length + 1 :=
    length_append
  have next : ∀ a c, s'.commitments a = some c → c.index < w.taken.length + 1 := by
    intro a c held
    rcases h.commitments held with old | ⟨rfl, new⟩
    · exact (kept.indexed a c old).trans (Nat.lt_succ_self _)
    · rw [new]
      unfold nextIndex
      cases before : w.state.commitments call.sender with
      | none => exact Nat.succ_pos _
      | some c' => exact Nat.succ_lt_succ (kept.indexed _ _ before)
  have later : ∀ a c, w.state.commitments a = some c →
      ∃ c', s'.commitments a = some c' ∧ c.index ≤ c'.index := by
    intro a c held
    by_cases same : a = call.sender
    · subst same
      obtain ⟨c', now, index⟩ := h.recommits held
      exact ⟨c', now, by omega⟩
    · exact ⟨c, (h.kept same).trans held, le_rfl⟩
  constructor
  · rw [h.head, longer, ← kept.rounds]
  · rw [h.mixBytes_head, mixAfter_append, h.mix]
    rfl
  · intro n
    simp only
    rw [state_eq]
    simp only
    rw [kept.rounds]
    by_cases here : n = w.taken.length
    · rw [here, Function.update_self, getElem?_concat_length]
      rfl
    · rw [Function.update_of_ne here, kept.entries]
      rcases Nat.lt_or_gt_of_ne here with before | past
      · rw [getElem?_append_left before]
      · rw [getElem?_eq_none past.le, getElem?_eq_none (by rw [longer]; exact past)]
  · intro n t found
    simp only at found ⊢
    rcases Nat.lt_trichotomy n w.taken.length with before | here | past
    · rw [getElem?_append_left before] at found
      rw [take_append_of_le_length before.le]
      exact kept.chained n t found
    · rw [here, getElem?_concat_length] at found
      obtain rfl := Option.some.inj found
      rw [here, take_append_of_le_length le_rfl, take_length, ← kept.mix, ← kept.rounds]
      exact ⟨key, output, reveal, h.registered, h.verified, h.mix, h.reveals, entry_eq⟩
    · rw [getElem?_eq_none (by rw [longer]; exact past)] at found
      cases found
  · intro a c held
    rw [longer]
    exact next a c held
  · intro t mem a i consumed
    rcases mem_append.1 mem with old | new
    · obtain ⟨c, held, less⟩ := kept.spent t old a i consumed
      obtain ⟨c', now, le⟩ := later a c held
      exact ⟨c', now, less.trans_le le⟩
    · obtain rfl := mem_singleton.1 new
      obtain ⟨c, held, named⟩ := Option.map_eq_some_iff.1 consumed
      obtain ⟨rfl, rfl⟩ := Prod.ext_iff.1 named
      obtain ⟨c', now, index⟩ := h.recommits held
      exact ⟨c', now, by simp only at index ⊢; omega⟩
  · rw [filterMap_append, nodup_append]
    refine ⟨kept.once, ?_, fun x old y new same => ?_⟩
    · cases consumed : Taken.consumed ⟨w.state, call, entry⟩ with
      | none => simp [consumed]
      | some x => simp [consumed]
    · subst same
      obtain ⟨t, mem, before⟩ := mem_filterMap.1 old
      obtain ⟨t', mem', now⟩ := mem_filterMap.1 new
      obtain rfl := mem_singleton.1 mem'
      obtain ⟨c, held, rfl⟩ := Option.map_eq_some_iff.1 now
      obtain ⟨c', held', less⟩ := kept.spent t mem _ _ before
      obtain rfl := Option.some.inj (held.symm.trans held')
      exact absurd less (lt_irrefl _)

theorem apply_ok (ran : w.state.contribute call.view call.sender call.payload = .ok (s', entry)) :
    w.apply call = ⟨s', w.taken ++ [⟨w.state, call, entry⟩]⟩ := by
  simp only [apply, ran]

theorem apply_taken (w : BeaconWorld) (call : BeaconCall) :
    ∃ more, (w.apply call).taken = w.taken ++ more ∧
      ∀ t ∈ more, t.entry.atMs = call.view.nowMs := by
  cases ran : w.state.contribute call.view call.sender call.payload with
  | error e =>
    refine ⟨[], ?_, nofun⟩
    simp only [apply, ran, append_nil]
  | ok result =>
    obtain ⟨s, entry⟩ := result
    refine ⟨[⟨w.state, call, entry⟩], ?_, fun t mem => ?_⟩
    · rw [apply_ok ran]
    · obtain ⟨key, output, commitment, reveal, h⟩ := contribute_ok ran
      rw [mem_singleton.1 mem, (record_ok h.recorded).2.1]

theorem Kept.apply (kept : w.Kept) (call : BeaconCall) : (w.apply call).Kept := by
  cases ran : w.state.contribute call.view call.sender call.payload with
  | error e =>
    simp only [BeaconWorld.apply, ran]
    exact kept
  | ok result =>
    obtain ⟨s, entry⟩ := result
    obtain ⟨key, output, commitment, reveal, h⟩ := contribute_ok ran
    rw [apply_ok ran]
    exact kept.contributed h

theorem Kept.run {calls : List BeaconCall} : ∀ {w : BeaconWorld}, w.Kept → (w.run calls).Kept := by
  induction calls with
  | nil => exact fun kept => kept
  | cons call calls ih => exact fun kept => ih (kept.apply call)

theorem run_taken (calls : List BeaconCall) : ∀ w : BeaconWorld,
    ∃ more, (w.run calls).taken = w.taken ++ more := by
  induction calls with
  | nil => exact fun w => ⟨[], (append_nil _).symm⟩
  | cons call calls ih =>
    intro w
    obtain ⟨one, first, -⟩ := w.apply_taken call
    obtain ⟨more, rest⟩ := ih (w.apply call)
    exact ⟨one ++ more, by rw [← append_assoc, ← first]; exact rest⟩

/-- Block times never decrease. -/
def InOrder (calls : List BeaconCall) : Prop :=
  calls.Pairwise fun a b => a.view.nowMs ≤ b.view.nowMs

def Sorted (l : List Taken) : Prop := l.Pairwise fun a b => a.entry.atMs ≤ b.entry.atMs

theorem sorted_run {calls : List BeaconCall} : ∀ {w : BeaconWorld}, InOrder calls →
    Sorted w.taken → (∀ t ∈ w.taken, ∀ call ∈ calls, t.entry.atMs ≤ call.view.nowMs) →
      Sorted (w.run calls).taken := by
  induction calls with
  | nil => exact fun _ sorted _ => sorted
  | cons call calls ih =>
    intro w inOrder sorted past
    obtain ⟨one, first, now⟩ := w.apply_taken call
    obtain ⟨after, inOrder⟩ := pairwise_cons.1 inOrder
    refine ih inOrder ?_ fun t mem later ahead => ?_
    · rw [first]
      refine pairwise_append.2 ⟨sorted,
        pairwise_of_forall_mem_list fun a a_mem b b_mem => ?_, fun a a_mem b b_mem => ?_⟩
      · rw [now a a_mem, now b b_mem]
      · rw [now b b_mem]
        exact past a a_mem call mem_cons_self
    · rw [first] at mem
      rcases mem_append.1 mem with old | new
      · exact past t old later (mem_cons_of_mem _ ahead)
      · rw [now t new]
        exact after later ahead

theorem Kept.firstAtOrAfter_eq (kept : w.Kept) (sorted : Sorted w.taken) (atMs : ℤ) :
    w.state.firstAtOrAfter atMs =
      (w.taken.map Taken.entry).find? fun e => atMs ≤ e.atMs := by
  have entries : ∀ n, w.state.entries n = (w.taken.map Taken.entry)[n]? := fun n => by
    rw [kept.entries, getElem?_map]
  have mono : (w.taken.map Taken.entry).Pairwise fun a b =>
      decide (atMs ≤ a.atMs) = true → decide (atMs ≤ b.atMs) = true :=
    pairwise_map.2 (sorted.imp fun le holds =>
      decide_eq_true ((of_decide_eq_true holds).trans le))
  rw [← Bisection.getElem?_firstTrue mono]
  unfold BeaconState.firstAtOrAfter
  simp only [entries, kept.rounds, length_map]
  split_ifs with inside
  · rfl
  · rw [getElem?_eq_none]
    rw [length_map]
    exact Nat.le_of_not_lt inside

end BeaconWorld

/-! ### What can be contributed -/

/-- A validator with enough stake whose interval has passed, who can prove under its registered key
and knows the secret it committed to. -/
structure Eligible (s : BeaconState) (view : BeaconView) (sender : Bytes) : Prop where
  staked : max view.validatorStake 1 ≤ view.bonded sender
  due : ∀ last, s.last sender = some last → dueFrom last ≤ view.nowMs
  proves : ∃ key, view.vrfKey sender = some key ∧
    ∀ input, ∃ proof output, Vrf.verify key input proof = .ok output
  knows : ∀ h, s.commitments sender = some h → ∃ r, Opens sender h r

/-- Some contribution of the validator is taken. -/
def Accepted (s : BeaconState) (view : BeaconView) (sender : Bytes) : Prop :=
  ∃ payload s' entry, s.contribute view sender payload = .ok (s', entry)

omit [SchemeHash] [Vrf] in
theorem secretsIn_contributionProof (proof : Fixed proofLen) (c : Word) (reveal : Option Word) :
    secretsIn true (contributionProof proof (some c) reveal) = .ok (some c, reveal) := by
  have whole : (contributionProof proof (some c) reveal).drop proofLen =
      c.val ++ reveal.elim [] Subtype.val := drop_left' proof.property
  unfold secretsIn
  rw [if_pos rfl]
  cases reveal with
  | none =>
    have length : (contributionProof proof (some c) none).length = proofLen + 32 := by
      simp [contributionProof, proof.property, c.property]
    rw [if_pos length, whole]
    simp only [Option.elim_none, append_nil, toFixed_val]
  | some r =>
    have length : (contributionProof proof (some c) (some r)).length = proofLen + 64 := by
      simp [contributionProof, proof.property, c.property, r.property]
    have second : (contributionProof proof (some c) (some r)).drop (proofLen + 32) = r.val := by
      rw [← drop_drop, whole]
      exact drop_left' c.property
    rw [if_neg (by omega), if_pos length, whole, second]
    simp only [Option.elim_some, take_left' c.property, toFixed_val]

omit [SchemeHash] [Vrf] in
theorem contributionProof_take (proof : Fixed proofLen) (commitment reveal : Option Word) :
    (contributionProof proof commitment reveal).take
      (min proofLen (contributionProof proof commitment reveal).length) = proof.val := by
  have long : proofLen ≤ (contributionProof proof commitment reveal).length := by
    unfold contributionProof
    rw [length_append, proof.property]
    exact Nat.le_add_right _ _
  rw [min_eq_left long]
  exact take_left' proof.property

omit [SchemeHash] [Vrf] in
theorem commit_fits (held : ∀ h, s.commitments sender = some h → h.index < maxValue 64) :
    ∃ commitments, s.commit sender commitment = .ok commitments := by
  cases commitment with
  | none => exact ⟨_, rfl⟩
  | some c =>
    unfold BeaconState.commit
    cases stored : s.commitments sender with
    | none => exact ⟨_, rfl⟩
    | some h => exact ⟨_, bind_ok.2 ⟨_, if_pos (held h stored), rfl⟩⟩

variable {view : BeaconView}

theorem contribute_record {key : Word} {proof : Fixed proofLen} {output : Fixed 64}
    {result : BeaconState × BeaconEntry} (staked : max view.validatorStake 1 ≤ view.bonded sender)
    (due : ∀ last, s.last sender = some last → dueFrom last ≤ view.nowMs)
    (registered : view.vrfKey sender = some key)
    (verified : Vrf.verify key (alpha s.readHead.round (mixBytes s.readHead)) proof = .ok output)
    (shape : secretsIn view.commitReveal (contributionProof proof commitment reveal) =
      .ok (commitment, reveal))
    (reveals : Reveals s sender reveal)
    (recorded : s.record view.nowMs sender commitment
      (nextMix (mixBytes s.readHead) output reveal) = .ok result) :
    s.contribute view sender (.ok ⟨s.readHead.round,
      hexEncode (contributionProof proof commitment reveal)⟩) = .ok result := by
  refine bind_ok.2 ⟨_, rfl, bind_ok.2 ⟨(), ensure_ok.2 staked, bind_ok.2 ⟨(),
    ensure_ok.2 rfl, bind_ok.2 ⟨(), ?_, bind_ok.2 ⟨key, ?_, bind_ok.2 ⟨_, ?_,
      bind_ok.2 ⟨_, shape, bind_ok.2 ⟨proof, ?_, bind_ok.2 ⟨(), checkReveal_ok.2 reveals,
        bind_ok.2 ⟨output, ?_, recorded⟩⟩⟩⟩⟩⟩⟩⟩⟩⟩
  · unfold BeaconState.requireInterval
    cases stored : s.last sender with
    | none => rfl
    | some last => exact if_neg (not_lt.2 (due last stored))
  · rw [registered]
    rfl
  · rw [hexDecode_hexEncode]
    rfl
  · rw [contributionProof_take, toFixed_val]
    rfl
  · rw [verified]
    rfl

theorem accepted_of (eligible : Eligible s view sender) (round : s.readHead.round < maxValue 64)
    (held : ∀ h, s.commitments sender = some h → h.index < maxValue 64)
    (shape : ∀ proof, secretsIn view.commitReveal (contributionProof proof commitment reveal) =
      .ok (commitment, reveal))
    (reveals : Reveals s sender reveal) : Accepted s view sender := by
  obtain ⟨key, registered, proves⟩ := eligible.proves
  obtain ⟨proof, output, verified⟩ := proves (alpha s.readHead.round (mixBytes s.readHead))
  obtain ⟨commitments, (committed : s.commit sender commitment = _)⟩ := commit_fits held
  exact ⟨_, _, _, contribute_record eligible.staked eligible.due registered verified (shape proof)
    reveals (bind_ok.2 ⟨_, committed, bind_ok.2 ⟨_, if_pos round, rfl⟩⟩)⟩

/-- A validator that could contribute is shut out exactly while a commitment of its waits for a
reveal that the paused lever refuses, or once the rounds are used up. -/
theorem accepted_iff (eligible : Eligible s view sender)
    (held : ∀ h, s.commitments sender = some h → h.index < maxValue 64) :
    Accepted s view sender ↔ s.readHead.round < maxValue 64 ∧
      (view.commitReveal = true ∨ s.commitments sender = none) := by
  constructor
  · rintro ⟨payload, s', entry, ran⟩
    obtain ⟨key, output, commitment, reveal, h⟩ := contribution_of ran
    refine ⟨(record_ok h.recorded).1, ?_⟩
    cases pending : s.commitments sender with
    | none => exact .inr rfl
    | some c =>
      have reveals := h.reveals
      unfold Reveals at reveals
      rw [pending] at reveals
      obtain ⟨r, rfl, -⟩ := reveals
      exact .inl (h.lever rfl)
  · rintro ⟨round, free⟩
    cases lever : view.commitReveal with
    | true =>
      have shape := secretsIn_contributionProof
      rw [← lever] at shape
      cases pending : s.commitments sender with
      | none =>
        refine accepted_of eligible round held (fun proof => shape proof genesisMix none) ?_
        unfold Reveals
        rw [pending]
      | some c =>
        obtain ⟨r, opens⟩ := eligible.knows c pending
        refine accepted_of eligible round held (fun proof => shape proof genesisMix (some r)) ?_
        unfold Reveals
        rw [pending]
        exact ⟨r, rfl, opens⟩
    | false =>
      have pending := free.resolve_left (by rw [lever]; decide)
      have shape : ∀ proof, secretsIn view.commitReveal (contributionProof proof none none) =
          .ok (none, none) := by
        intro proof
        have length : (contributionProof proof none none).length = proofLen := by
          simp [contributionProof, proof.property]
        rw [lever, secretsIn, if_neg (by decide), if_pos length]
      refine accepted_of eligible round held shape ?_
      unfold Reveals
      rw [pending]

/-! ### The beacon -/

/-- A verifiable random function gives one output for a key and an input. -/
def Unique : Prop :=
  ∀ key input proof proof' output output', Vrf.verify key input proof = .ok output →
    Vrf.verify key input proof' = .ok output' → output = output'

omit [Vrf] in
def Binding : Prop := ∀ addr, Function.Injective (commitmentTo addr)

/-- How a value comes from the mix before it: as the hash of that mix, the only output of its
validator's key on its round and that mix, and the only secret its validator's last commitment
fixed. -/
def Taken.Extends (t : Taken) (n : ℕ) (mix : Word) : Prop :=
  ∃ key output reveal, t.call.view.vrfKey t.call.sender = some key ∧
    (∃ proof, Vrf.verify key (alpha n mix) proof = .ok output) ∧
    (∀ proof output', Vrf.verify key (alpha n mix) proof = .ok output' → output' = output) ∧
    entryMix t.entry = some (nextMix mix output reveal) ∧
    t.entry.round = n ∧ t.entry.atMs = t.call.view.nowMs ∧
    t.entry.contributor = hexEncode t.call.sender ∧
    match t.before.commitments t.call.sender with
    | none => reveal = none
    | some h => ∃ r, reveal = some r ∧ Opens t.call.sender h r ∧
        ∀ r', Opens t.call.sender h r' → r' = r

theorem Taken.Chained.extends {t : Taken} {n : ℕ} {mix : Word} (unique : Unique)
    (binding : Binding) (h : t.Chained n mix) : t.Extends n mix := by
  obtain ⟨key, output, reveal, registered, ⟨proof, verified⟩, hash, reveals, entry⟩ := h
  refine ⟨key, output, reveal, registered, ⟨proof, verified⟩,
    fun proof' output' other => unique _ _ _ _ _ _ other verified, hash, ?_, ?_, ?_, ?_⟩
  · rw [entry]
  · rw [entry]
  · rw [entry]
  · unfold Reveals at reveals
    cases held : t.before.commitments t.call.sender with
    | none =>
      rw [held] at reveals
      exact reveals
    | some c =>
      rw [held] at reveals
      obtain ⟨r, rfl, opens⟩ := reveals
      refine ⟨r, rfl, opens, fun r' other =>
        binding t.call.sender (Subtype.ext (hexEncode_injective ?_))⟩
      exact other.trans opens.symm

namespace BeaconWorld

/-- What a state of the beacon says of the values taken. -/
structure Sound (w : BeaconWorld) : Prop where
  rounds : w.state.readHead.round = w.taken.length
  mix : mixBytes w.state.readHead = mixAfter w.taken
  entries : ∀ n, w.state.entries n = (w.taken[n]?).map Taken.entry
  chain : ∀ (n : ℕ) (t : Taken), w.taken[n]? = some t → t.Extends n (mixAfter (w.taken.take n))
  once : (w.taken.filterMap Taken.consumed).Nodup
  earliest : ∀ atMs, w.state.firstAtOrAfter atMs =
    (w.taken.map Taken.entry).find? fun e => atMs ≤ e.atMs

/-- What a state found stays as it is in a later one. -/
structure Persists (w w' : BeaconWorld) : Prop where
  entries : ∀ n e, w.state.entries n = some e → w'.state.entries n = some e
  lookup : ∀ atMs e, w.state.firstAtOrAfter atMs = some e →
    w'.state.firstAtOrAfter atMs = some e

theorem Sound.persists {w w' : BeaconWorld} (sound : w.Sound) (sound' : w'.Sound)
    (longer : ∃ more, w'.taken = w.taken ++ more) : w.Persists w' := by
  obtain ⟨more, taken⟩ := longer
  constructor
  · intro n e stored
    rw [sound.entries] at stored
    rw [sound'.entries, taken]
    obtain ⟨t, found, rfl⟩ := Option.map_eq_some_iff.1 stored
    have inside := (List.getElem?_eq_some_iff.1 found).1
    rw [getElem?_append_left inside, found]
    rfl
  · intro atMs e found
    rw [sound.earliest] at found
    rw [sound'.earliest, taken, map_append, find?_append, found]
    rfl

theorem sound_run (unique : Unique) (binding : Binding) {calls : List BeaconCall}
    (inOrder : InOrder calls) : (start.run calls).Sound := by
  have kept : (start.run calls).Kept := kept_start.run
  have sorted : Sorted (start.run calls).taken := sorted_run inOrder List.Pairwise.nil nofun
  exact ⟨kept.rounds, kept.mix, kept.entries,
    fun n t found => (kept.chained n t found).extends unique binding, kept.once,
    kept.firstAtOrAfter_eq sorted⟩

/-- The beacon is one chain whose values stay, and a validator that could contribute can, except
while a commitment of its waits for a reveal that the paused lever refuses. -/
theorem beacon_run (unique : Unique) (binding : Binding) {earlier later : List BeaconCall}
    (inOrder : InOrder (earlier ++ later)) :
    (start.run earlier).Sound ∧ (start.run earlier).Persists (start.run (earlier ++ later)) ∧
    ∀ view sender, Eligible (start.run earlier).state view sender →
      (Accepted (start.run earlier).state view sender ↔
        (start.run earlier).taken.length < maxValue 64 ∧
          (view.commitReveal = true ∨ (start.run earlier).state.commitments sender = none)) := by
  have before := sound_run unique binding (pairwise_append.1 inOrder).1
  refine ⟨before, before.persists (sound_run unique binding inOrder) ?_,
    fun view sender eligible => ?_⟩
  · obtain ⟨more, taken⟩ := run_taken later (start.run earlier)
    refine ⟨more, ?_⟩
    rw [← taken]
    exact congrArg BeaconWorld.taken foldl_append
  · have kept : (start.run earlier).Kept := kept_start.run
    rw [← kept.rounds]
    by_cases room : (start.run earlier).state.readHead.round < maxValue 64
    · refine accepted_iff eligible fun h held => ?_
      have index := kept.indexed sender h held
      rw [← kept.rounds] at index
      exact index.trans room
    · refine iff_of_false ?_ fun both => room both.1
      rintro ⟨payload, s', entry, ran⟩
      obtain ⟨key, output, commitment, reveal, h⟩ := contribution_of ran
      exact room (record_ok h.recorded).1

end BeaconWorld

end

/-! ### A commitment that waits -/

namespace PausedLever
open BeaconWorld

/-- The last 32 bytes of what is hashed: injective in a secret, as the commitments are. -/
local instance tailHash : SchemeHash where
  digest _ b := ⟨(b.reverse ++ replicate 32 0).take 32, by simp⟩

/-- A proof that names the key proves the one output of the key. -/
local instance namedVrf : Vrf where
  verify key _ proof :=
    if proof.val.take 32 = key.val then
      .ok ⟨key.val ++ key.val, by rw [length_append, key.property]⟩
    else .error "the proof is of another key"

def proofOf (key : Word) : Fixed proofLen :=
  ⟨key.val ++ replicate 48 0, by rw [length_append, key.property]; rfl⟩

theorem proofOf_verifies (key : Word) (input : Bytes) :
    ∃ output, Vrf.verify key input (proofOf key) = .ok output :=
  ⟨_, if_pos (take_left' key.property)⟩

def word (b : UInt8) : Word := ⟨replicate 32 b, length_replicate⟩

def validator : Bytes := [1]

def under (lever : Bool) (now : ℤ) : BeaconView :=
  ⟨1, fun _ => 1, fun _ => some (word 5), lever, now⟩

/-- The first contribution commits to a secret. -/
def committing : BeaconCall where
  view := under true 1000
  sender := validator
  payload := .ok ⟨0, hexEncode (contributionProof (proofOf (word 5))
    (some (commitmentTo validator (word 9))) none)⟩

theorem committing_run :
    (start.run [committing]).state.commitments validator =
        some ⟨hexEncode (commitmentTo validator (word 9)).val, 0⟩ ∧
      (start.run [committing]).state.last validator = some 1000 ∧
      (start.run [committing]).taken.length = 1 := by
  obtain ⟨output, verified⟩ := proofOf_verifies (word 5)
    (alpha start.state.readHead.round (mixBytes start.state.readHead))
  have shape := secretsIn_contributionProof (proofOf (word 5)) (commitmentTo validator (word 9)) none
  obtain ⟨⟨s', entry⟩, recorded⟩ : ∃ result, start.state.record 1000 validator
      (some (commitmentTo validator (word 9)))
      (nextMix (mixBytes start.state.readHead) output none) = .ok result :=
    ⟨_, bind_ok.2 ⟨_, rfl, bind_ok.2 ⟨_, if_pos (by decide), rfl⟩⟩⟩
  have ran : start.state.contribute committing.view committing.sender committing.payload =
      .ok (s', entry) := contribute_record le_rfl nofun rfl verified shape rfl recorded
  obtain ⟨-, -, state_eq⟩ := record_ok recorded
  have ends : start.run [committing] = ⟨s', start.taken ++ [⟨start.state, committing, entry⟩]⟩ := by
    unfold run
    rw [foldl_cons, foldl_nil, apply_ok ran]
  rw [ends]
  refine ⟨?_, ?_, rfl⟩
  · rw [state_eq]
    change Function.update start.state.commitments validator (some _) validator = _
    rw [Function.update_self]
    rfl
  · rw [state_eq]
    change Function.update start.state.last validator (some 1000) validator = _
    rw [Function.update_self]

theorem waiting (lever : Bool) :
    Eligible (start.run [committing]).state (under lever 61000) validator where
  staked := le_rfl
  due last stored := by
    obtain rfl := Option.some.inj (committing_run.2.1.symm.trans stored)
    show dueFrom 1000 ≤ 61000
    decide
  proves := ⟨word 5, rfl, fun input => ⟨_, proofOf_verifies (word 5) input⟩⟩
  knows h stored := by
    obtain rfl := Option.some.inj (committing_run.1.symm.trans stored)
    exact ⟨word 9, rfl⟩

/-- With the lever paused again nothing the validator sends is taken, although its interval passed
and it knows its secret. -/
theorem shut_out : Eligible (start.run [committing]).state (under false 61000) validator ∧
    ¬ Accepted (start.run [committing]).state (under false 61000) validator := by
  refine ⟨waiting false, fun accepted => ?_⟩
  have free := ((accepted_iff (waiting false) fun h stored => ?_).1 accepted).2
  · rw [committing_run.1] at free
    cases free with
    | inl lever => exact absurd lever (by decide)
    | inr gone => cases gone
  · obtain rfl := Option.some.inj (committing_run.1.symm.trans stored)
    decide

theorem tailHash_binding : Binding := by
  intro addr r r' same
  have bytes := congrArg Subtype.val same
  simp only [commitmentTo, sha, SchemeHash.digest, reverse_append, append_assoc] at bytes
  rw [take_left' (by rw [length_reverse, r.property]),
    take_left' (by rw [length_reverse, r'.property])] at bytes
  exact Subtype.ext (reverse_injective bytes)

theorem namedVrf_unique : Unique := by
  intro key input proof proof' output output' one two
  simp only [Vrf.verify] at one two
  split_ifs at one two
  exact (Except.ok.inj one).symm.trans (Except.ok.inj two)

/-- The same validator under a lever that stays on. -/
theorem beacon_run_lever_on : (start.run [committing]).Sound ∧
    Accepted (start.run [committing]).state (under true 61000) validator := by
  have inOrder : InOrder ([committing] ++ []) := pairwise_singleton _ _
  have run := beacon_run namedVrf_unique tailHash_binding inOrder
  refine ⟨run.1, (run.2.2 _ _ (waiting true)).2 ⟨?_, .inl rfl⟩⟩
  rw [committing_run.2.2]
  decide

end PausedLever

end Tenzro.Beacon
