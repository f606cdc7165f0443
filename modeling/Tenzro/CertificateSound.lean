import Tenzro.Checkpoint
import Tenzro.ReliableBroadcast

set_option autoImplicit false

/-!
# What a certificate that verifies says

Its signers are distinct members with a quorum of seats, and each one's session key,
vouched for by its hardware key, signed the checkpoint.
-/
namespace Tenzro
open WeightedQuorum List

theorem signerSeats_ascending {c : Committee} {prev : Option ValidatorIndex}
    {l : List ValidatorIndex} {seats seats' : SeatSet}
    (h : signerSeats c prev l seats = some seats') :
    l.Pairwise (· < ·) ∧ (∀ p, prev = some p → ∀ s ∈ l, p < s) ∧
      ∀ s ∈ l, (c.member s).isSome = true := by
  induction l generalizing prev seats with
  | nil => simp
  | cons s l ih =>
    unfold signerSeats at h
    split_ifs at h with refused
    push Not at refused
    obtain ⟨later, member⟩ := refused
    obtain ⟨sorted, above, members⟩ := ih h
    have below : ∀ p, prev = some p → p < s := by
      intro p hp
      simpa [hp] using later
    refine ⟨pairwise_cons.2 ⟨above s rfl, sorted⟩, ?_, ?_⟩
    · intro p hp t ht
      cases mem_cons.1 ht with
      | inl same => exact same ▸ below p hp
      | inr rest => exact (below p hp).trans (above s rfl t rest)
    · intro t ht
      cases mem_cons.1 ht with
      | inl same => exact same ▸ Option.isSome_iff_ne_none.2 member
      | inr rest => exact members t rest

theorem signerSeats_weight {c : Committee} (prev : Option ValidatorIndex)
    {l : List ValidatorIndex} (seats : SeatSet) (sorted : l.Pairwise (· < ·))
    (above : ∀ p, prev = some p → ∀ s ∈ l, p < s) (members : ∀ s ∈ l, (c.member s).isSome = true)
    (fresh : ∀ s ∈ l, s ∉ seats.members) :
    ∃ seats', signerSeats c prev l seats = some seats' ∧
      seats'.weight = seats.weight + weight c.seats l.toFinset := by
  induction l generalizing prev seats with
  | nil => exact ⟨seats, rfl, by simp [weight]⟩
  | cons s l ih =>
    obtain ⟨before, sorted⟩ := pairwise_cons.1 sorted
    have free : s ∉ l.toFinset := by
      rw [mem_toFinset]
      exact fun mem => lt_irrefl s (before s mem)
    have later : ∀ t ∈ l, t ∉ (seats.insert s (c.seats s)).1.members := by
      intro t ht
      rw [SeatSet.members_insert, Finset.mem_insert]
      rintro (rfl | old)
      · exact lt_irrefl t (before t ht)
      · exact fresh t (mem_cons_of_mem _ ht) old
    obtain ⟨seats', eq, total⟩ := ih (some s) _ sorted
      (fun p hp => Option.some.inj hp ▸ before)
      (fun t ht => members t (mem_cons_of_mem _ ht)) later
    refine ⟨seats', ?_, ?_⟩
    · have member := members s mem_cons_self
      unfold signerSeats
      rw [if_neg, eq]
      rintro (low | none)
      · cases prev with
        | none => simp at low
        | some p =>
          simp only [Option.any_some, decide_eq_true_eq] at low
          exact absurd low (not_le.2 (above p rfl s mem_cons_self))
      · rw [none] at member
        cases member
    · rw [total, SeatSet.weight_insert_of_notMem (fresh s mem_cons_self), toFinset_cons,
        weight_insert free, add_assoc]

variable [Finality]

/-- Certificates verified against their members' hardware keys, for one chain and epoch. -/
inductive SessionBook.Admitted (c : Committee) (chainId : ℕ) (genesis : Digest) :
    SessionBook → Prop where
  | new : Admitted c chainId genesis (.new chainId genesis c.epoch)
  | admitSession {b : SessionBook} (s : SessionCertificate) : Admitted c chainId genesis b →
      Admitted c chainId genesis (b.admitSession c s).1

theorem SessionBook.admit_cases (b : SessionBook) (c : Committee) (s : SessionCertificate) :
    (b.admitSession c s).1 = b ∨ ∃ j m, c.member j = some m ∧ m.publicKey = s.validator ∧
      s.certifies s.validator b.chainId b.genesisHash b.epoch = true ∧
      (b.admitSession c s).1 = { b with
        perValidator := b.perValidator.insert j (b.perValidator.getD j 0 + 1)
        byDigest := b.byDigest.insert (Finality.sessionDigest s) (j, s) } := by
  unfold SessionBook.admitSession
  dsimp only
  by_cases old : b.byDigest.contains (Finality.sessionDigest s) = true
  · exact .inl (by simp [old])
  · by_cases other : c.epoch ≠ b.epoch
    · exact .inl (by simp [old, other])
    · cases found : c.members.findIdx? (fun m => m.publicKey = s.validator) with
      | none => exact .inl (by simp [old, other])
      | some j =>
        by_cases signed : s.certifies s.validator b.chainId b.genesisHash b.epoch = false
        · exact .inl (by simp [old, other, signed])
        · by_cases many : maxSessionsPerValidator ≤ b.perValidator.getD j 0
          · exact .inl (by simp [old, other, signed, many])
          · obtain ⟨here, key, -⟩ := findIdx?_eq_some_iff_getElem.1 found
            refine .inr ⟨j, c.members[j], getElem?_eq_getElem here, of_decide_eq_true key,
              by simpa using signed, by simp [old, other, signed, many]⟩

namespace SessionBook.Admitted
variable {c : Committee} {chainId : ℕ} {genesis : Digest} {b : SessionBook}

theorem of (h : Admitted c chainId genesis b) :
    b.chainId = chainId ∧ b.genesisHash = genesis ∧ b.epoch = c.epoch := by
  induction h with
  | new => exact ⟨rfl, rfl, rfl⟩
  | @admitSession b s _ ih =>
    obtain same | ⟨j, m, -, -, -, taken⟩ := b.admit_cases c s
    · rw [same]
      exact ih
    · rw [taken]
      exact ih

theorem certified (h : Admitted c chainId genesis b) {d : Digest} {i : ValidatorIndex}
    {s : SessionCertificate} (held : b.byDigest.get? d = some (i, s)) :
    d = Finality.sessionDigest s ∧
      ∃ m, c.member i = some m ∧ s.certifies m.publicKey chainId genesis c.epoch = true := by
  induction h with
  | new => simp [SessionBook.new] at held
  | @admitSession b t before ih =>
    obtain same | ⟨j, m, member, key, signed, taken⟩ := b.admit_cases c t
    · rw [same] at held
      exact ih held
    · rw [taken] at held
      dsimp only at held
      rw [SortedMap.get?_insert] at held
      split_ifs at held with here
      · obtain ⟨rfl, rfl⟩ := Prod.mk.inj (Option.some.inj held)
        obtain ⟨chain, gen, epoch⟩ := before.of
        rw [chain, gen, epoch, ← key] at signed
        exact ⟨here, m, member, signed⟩
      · exact ih held

end SessionBook.Admitted

/-- What `Certificate::verify` checks. -/
structure Certificate.Backed (cert : Certificate) (chainId : ℕ) (genesis : Digest) (c : Committee)
    (b : SessionBook) : Prop where
  chain : cert.checkpoint.chainId = chainId
  genesis : cert.checkpoint.genesisHash = genesis
  epoch : cert.checkpoint.epoch = c.epoch
  book : cert.checkpoint.epoch = b.epoch
  wellFormed : cert.checkpoint.wellFormed = true
  signatures : cert.signers.length = cert.signatures.length
  sessions : cert.signers.length = cert.sessions.length
  ascending : cert.signers.Pairwise (· < ·)
  members : ∀ s ∈ cert.signers, (c.member s).isSome = true
  quorum : c.quorum ≤ weight c.seats cert.signers.toFinset
  signed : ∀ s d sig, ((s, d), sig) ∈ (cert.signers.zip cert.sessions).zip cert.signatures →
    ∃ ses, b.byDigest.get? d = some (s, ses) ∧
      Finality.signsVote ses.sessionKey cert.checkpoint.digest sig = true

theorem Certificate.verify_iff {cert : Certificate} {chainId : ℕ} {genesis : Digest}
    {c : Committee} {b : SessionBook} :
    cert.verify chainId genesis c b = true ↔ cert.Backed chainId genesis c b := by
  have counted (sorted : cert.signers.Pairwise (· < ·))
      (members : ∀ s ∈ cert.signers, (c.member s).isSome = true) :
      ∃ seats, signerSeats c none cert.signers .empty = some seats ∧
        seats.weight = weight c.seats cert.signers.toFinset := by
    obtain ⟨seats, eq, total⟩ := signerSeats_weight none .empty sorted
      (fun p hp => nomatch hp) members (fun s _ => Finset.notMem_empty s)
    exact ⟨seats, eq, by simpa [SeatSet.empty] using total⟩
  constructor
  · intro h
    simp only [verify, Bool.and_eq_true, decide_eq_true_eq, all_eq_true] at h
    obtain ⟨⟨⟨⟨⟨⟨⟨⟨chain, gen⟩, epoch⟩, book⟩, formed⟩, sigs⟩, ses⟩, seats⟩, all⟩ := h
    cases hs : signerSeats c none cert.signers .empty with
    | none => simp [hs] at seats
    | some set =>
      obtain ⟨sorted, -, members⟩ := signerSeats_ascending hs
      obtain ⟨set', eq, total⟩ := counted sorted members
      rw [hs] at eq
      cases eq
      simp only [hs, decide_eq_true_eq] at seats
      refine ⟨chain, gen, epoch, book, formed, sigs, ses, sorted, members, total ▸ seats, ?_⟩
      intro s d sig mem
      have ok := all _ mem
      cases hd : b.byDigest.get? d with
      | none => simp [hd] at ok
      | some e =>
        simp only [hd, Bool.and_eq_true, decide_eq_true_eq] at ok
        exact ⟨e.2, by rw [← ok.1], ok.2⟩
  · intro h
    obtain ⟨seats, eq, total⟩ := counted h.ascending h.members
    simp only [verify, Bool.and_eq_true, decide_eq_true_eq, all_eq_true, eq]
    refine ⟨⟨⟨⟨⟨⟨⟨⟨h.chain, h.genesis⟩, h.epoch⟩, h.book⟩, h.wellFormed⟩, h.signatures⟩,
      h.sessions⟩, total ▸ h.quorum⟩, ?_⟩
    rintro ⟨⟨s, d⟩, sig⟩ mem
    obtain ⟨ses, held, ok⟩ := h.signed s d sig mem
    simp [held, ok]

def voteSignature (cert : Certificate) (i : ℕ) (b : SessionBook) : Option VoteSignature :=
  (cert.sessions[i]?).bind (fun d => (b.byDigest.get? d).bind (fun e =>
    (cert.signatures[i]?).map (fun sig => ⟨e.2, sig⟩)))

theorem Certificate.Backed.voteSignature {cert : Certificate} {chainId : ℕ} {genesis : Digest}
    {c : Committee} {b : SessionBook} (h : cert.Backed chainId genesis c b)
    (book : b.Admitted c chainId genesis) {i : ℕ} {s : ValidatorIndex}
    (here : (s, i) ∈ cert.signers.zipIdx) :
    ∃ m sig, c.member s = some m ∧ Tenzro.voteSignature cert i b = some sig ∧
      sig.verify m.publicKey cert.checkpoint = true := by
  have signer : cert.signers[i]? = some s := mk_mem_zipIdx_iff_getElem?.1 here
  have bound : i < cert.signers.length := by
    obtain ⟨bound, -⟩ := List.getElem?_eq_some_iff.1 signer
    exact bound
  obtain ⟨d, session⟩ : ∃ d, cert.sessions[i]? = some d :=
    ⟨_, getElem?_eq_getElem (h.sessions ▸ bound)⟩
  obtain ⟨sig, signature⟩ : ∃ sig, cert.signatures[i]? = some sig :=
    ⟨_, getElem?_eq_getElem (h.signatures ▸ bound)⟩
  have zipped : ((s, d), sig) ∈ (cert.signers.zip cert.sessions).zip cert.signatures := by
    refine mem_of_getElem? (i := i) ?_
    simp [getElem?_zip_eq_some, signer, session, signature]
  obtain ⟨ses, held, signed⟩ := h.signed s d sig zipped
  obtain ⟨-, m, member, certifies⟩ := book.certified held
  refine ⟨m, ⟨ses, sig⟩, member, ?_, ?_⟩
  · simp [Tenzro.voteSignature, session, held, signature]
  · simp only [VoteSignature.verify, h.chain, h.genesis, h.epoch, certifies, signed, Bool.and_self]

end Tenzro
