import Tenzro.LightClient
import Tenzro.AccountableFinality

set_option autoImplicit false
set_option linter.dupNamespace false

/-!
# Light-client soundness

However a checkpoint is accepted, there is a chain of committees from the anchored one, each
named by a checkpoint a quorum of the one before signed, and a quorum of the last signed the
checkpoint.
-/
namespace Tenzro
open WeightedQuorum List Function
variable [LightHash]

omit [LightHash] in
theorem checkSigners_ok {c : Committee} {prev : Option ValidatorIndex} {l : List ValidatorIndex}
    {seats seats' : SeatSet} (h : checkSigners c prev l seats = .ok seats') :
    signerSeats c prev l seats = some seats' := by
  induction l generalizing prev seats with
  | nil =>
    cases h
    rfl
  | cons s l ih =>
    unfold checkSigners at h
    unfold signerSeats
    split_ifs at h with low out
    rw [if_neg (by simp [low, out])]
    exact ih h

theorem checkSignatures_ok {b : SessionBook} {digest : Digest}
    {l : List ((ValidatorIndex × Digest) × ℕ)} (h : checkSignatures b digest l = .ok ()) :
    ∀ s d sig, ((s, d), sig) ∈ l → ∃ ses, b.byDigest.get? d = some (s, ses) ∧
      Finality.signsVote ses.sessionKey digest sig = true := by
  induction l with
  | nil => simp
  | cons e l ih =>
    obtain ⟨⟨s, session⟩, sig⟩ := e
    unfold checkSignatures at h
    cases held : b.byDigest.get? session with
    | none => simp [held] at h
    | some found =>
      obtain ⟨holder, cert⟩ := found
      simp only [held] at h
      split_ifs at h with other unsigned
      push Not at other
      intro s' d' sig' mem
      cases mem_cons.1 mem with
      | inl here =>
        obtain ⟨⟨rfl, rfl⟩, rfl⟩ : (s' = s ∧ d' = session) ∧ sig' = sig := by simpa using here
        exact ⟨cert, by rw [held, other], by simpa using unsigned⟩
      | inr rest => exact ih h s' d' sig' rest

theorem Certificate.check_backed {cert : Certificate} {chainId : ℕ} {genesis : Digest}
    {c : Committee} {b : SessionBook} {u : Unit} (h : cert.check chainId genesis c b = .ok u) :
    cert.Backed chainId genesis c b := by
  unfold check at h
  dsimp only at h
  split_ifs at h with chain epoch formed counts
  push Not at chain epoch counts
  cases hs : checkSigners c none cert.signers .empty with
  | error why => simp [hs] at h
  | ok seats =>
    simp only [hs] at h
    split_ifs at h with few
    have signers := checkSigners_ok hs
    refine verify_iff.1 ?_
    simp only [verify, Bool.and_eq_true, decide_eq_true_eq, all_eq_true, signers]
    refine ⟨⟨⟨⟨⟨⟨⟨⟨chain.1, chain.2⟩, epoch.1⟩, epoch.2⟩, by simpa using formed⟩, counts.1⟩,
      counts.2⟩, not_lt.1 few⟩, ?_⟩
    rintro ⟨⟨s, d⟩, sig⟩ mem
    obtain ⟨ses, held, signed⟩ := checkSignatures_ok h s d sig mem
    simp [held, signed]

/-- A checkpoint of the chain that members of `c` holding a quorum of seats signed. -/
structure Checkpoint.SignedBy (chainId : ℕ) (genesis : Digest) (c : Committee) (cp : Checkpoint) :
    Prop where
  chain : cp.chainId = chainId
  genesis : cp.genesisHash = genesis
  epoch : cp.epoch = c.epoch
  quorum : ∃ signers ⊆ c.indices, c.quorum ≤ weight c.seats signers ∧
    ∀ s ∈ signers, ∃ m sig, c.member s = some m ∧ VoteSignature.verify sig m.publicKey cp = true

theorem Certificate.Backed.signedBy {cert : Certificate} {chainId : ℕ} {genesis : Digest}
    {c : Committee} {b : SessionBook} (h : cert.Backed chainId genesis c b)
    (book : b.Admitted c chainId genesis) : cert.checkpoint.SignedBy chainId genesis c where
  chain := h.chain
  genesis := h.genesis
  epoch := h.epoch
  quorum := by
    refine ⟨cert.signers.toFinset, ?_, h.quorum, ?_⟩
    · intro s hs
      exact c.mem_indices.2 (h.members s (mem_toFinset.1 hs))
    · intro s hs
      obtain ⟨i, here⟩ := getElem?_of_mem (mem_toFinset.1 hs)
      obtain ⟨m, sig, member, -, ok⟩ :=
        h.voteSignature book (mk_mem_zipIdx_iff_getElem?.2 here)
      exact ⟨m, sig, member, ok⟩

/-- Committees of epochs 0 to `e` from the one with the given root, each named by a checkpoint the
one before signed. -/
structure TrustChain (chainId : ℕ) (genesis root : Digest) (e : ℕ) (C : ℕ → Committee) : Prop where
  first : (C 0).root = root
  epochs : ∀ i ≤ e, (C i).epoch = i
  handovers : ∀ i < e, ∃ cp : Checkpoint, cp.epoch = i ∧
    cp.nextCommitteeRoot = some (C (i + 1)).root ∧ cp.SignedBy chainId genesis (C i)

def Trusted (chainId : ℕ) (genesis root : Digest) (c : Committee) : Prop :=
  ∃ C, TrustChain chainId genesis root c.epoch C ∧ C c.epoch = c

namespace Trusted
variable {chainId : ℕ} {genesis root : Digest} {c next : Committee} {cp : Checkpoint}

theorem start (epoch : c.epoch = 0) (anchored : c.root = root) : Trusted chainId genesis root c := by
  refine ⟨fun _ => c, ⟨anchored, ?_, ?_⟩, rfl⟩
  · intro i hi
    omega
  · intro i hi
    omega

theorem extend (h : Trusted chainId genesis root c) (epoch : next.epoch = c.epoch + 1)
    (signed : cp.SignedBy chainId genesis c) (names : cp.nextCommitteeRoot = some next.root) :
    Trusted chainId genesis root next := by
  obtain ⟨C, chain, last⟩ := h
  have below {i : ℕ} (hi : i ≤ c.epoch) : update C (c.epoch + 1) next i = C i :=
    update_of_ne (by omega) _ _
  refine ⟨update C (c.epoch + 1) next, ⟨?_, ?_, ?_⟩, ?_⟩
  · rw [below (Nat.zero_le _)]
    exact chain.first
  · intro i hi
    by_cases new : i = c.epoch + 1
    · rw [new, update_self, epoch]
    · rw [below (by omega)]
      exact chain.epochs i (by omega)
  · intro i hi
    rw [below (i := i) (by omega)]
    by_cases new : i = c.epoch
    · rw [new, update_self, last]
      exact ⟨cp, signed.epoch, names, signed⟩
    · rw [below (i := i + 1) (by omega)]
      exact chain.handovers i (by omega)
  · rw [epoch, update_self]

end Trusted

omit [LightHash] in
theorem Committee.fromMembers_ok {epoch : ℕ} {members : List Member} {c : Committee}
    (h : Committee.fromMembers epoch members = .ok c) : c.epoch = epoch ∧ c.members = members := by
  unfold Committee.fromMembers at h
  split_ifs at h
  cases h
  exact ⟨rfl, rfl⟩

omit [LightHash] in
theorem Committee.ext' {c d : Committee} (epoch : c.epoch = d.epoch)
    (members : c.members = d.members) : c = d := by
  cases c
  cases d
  cases epoch
  cases members
  rfl

/-- What a light client knows: its committee is trusted, and so is the latest checkpoint while it
is of the committee's epoch. -/
structure LightClient.Sound (root : Digest) (l : LightClient) : Prop where
  trusted : Trusted l.chainId l.genesisHash root l.committee
  book : l.sessions.Admitted l.committee l.chainId l.genesisHash
  latest : ∀ cp, l.latest = some cp → cp.epoch = l.committee.epoch →
    cp.SignedBy l.chainId l.genesisHash l.committee

namespace LightClient
variable {root : Digest} {l l' : LightClient}

theorem sound_new {chainId : ℕ} {genesis : Digest} {c : Committee}
    (trusted : Trusted chainId genesis root c) : (new chainId genesis c).Sound root where
  trusted := trusted
  book := .new
  latest _ h := nomatch h

theorem Sound.addSessions (h : l.Sound root) (bundle : List SessionCertificate) :
    (l.addSessions bundle).Sound root where
  trusted := h.trusted
  book := by
    change (bundle.foldl _ l.sessions).Admitted _ _ _
    have kept := h.book
    generalize l.sessions = b at kept ⊢
    induction bundle generalizing b with
    | nil => exact kept
    | cons s bundle ih => exact ih _ (.admitSession s kept)
  latest := h.latest

theorem Sound.accept (h : l.Sound root) {cert : Certificate}
    (ok : l.acceptCertificate cert = .ok l') :
    cert.checkpoint.SignedBy l.chainId l.genesisHash l.committee ∧ l'.Sound root ∧
      l'.committee = l.committee ∧ l'.chainId = l.chainId ∧ l'.genesisHash = l.genesisHash := by
  unfold acceptCertificate at ok
  cases checked : cert.check l.chainId l.genesisHash l.committee l.sessions with
  | error why => simp [checked] at ok
  | ok u =>
    simp only [checked, Except.ok.injEq] at ok
    have signed := (Certificate.check_backed checked).signedBy h.book
    subst ok
    refine ⟨signed, ?_, ?_⟩
    · unfold advance
      split_ifs
      · refine ⟨h.trusted, h.book, ?_⟩
        rintro cp ⟨⟩ -
        exact signed
      · exact h
    · unfold advance
      split_ifs <;> exact ⟨rfl, rfl, rfl⟩

theorem Sound.handOver (h : l.Sound root) {members : List Member}
    (ok : l.handOver members = .ok l') : l'.Sound root ∧
      l'.committee.epoch = l.committee.epoch + 1 ∧ l'.chainId = l.chainId ∧
      l'.genesisHash = l.genesisHash := by
  unfold LightClient.handOver at ok
  cases hl : l.latest with
  | none => simp [hl] at ok
  | some cp =>
    cases hr : cp.nextCommitteeRoot with
    | none => simp [hl, hr] at ok
    | some r =>
      simp only [hl, Option.bind_some, hr, Option.any_some, decide_eq_true_eq] at ok
      split_ifs at ok with other
      push Not at other
      cases hc : Committee.fromMembers (l.committee.epoch + 1) members with
      | error why => simp [hc] at ok
      | ok next =>
        simp only [hc] at ok
        split_ifs at ok with differs
        push Not at differs
        cases ok
        have epoch := (Committee.fromMembers_ok hc).1
        have signed := h.latest cp hl other
        refine ⟨⟨h.trusted.extend epoch signed (differs ▸ hr), .new, ?_⟩, epoch, rfl, rfl⟩
        intro old ho same
        -- the latest checkpoint is still the one of the epoch before
        cases ho
        change cp.epoch = next.epoch at same
        omega

theorem Sound.followAll (h : l.Sound root) {hs : List EpochHandover}
    (ok : l.followAll hs = .ok l') : l'.Sound root ∧
      l'.committee.epoch = l.committee.epoch + hs.length ∧ l'.chainId = l.chainId ∧
      l'.genesisHash = l.genesisHash := by
  induction hs generalizing l with
  | nil =>
    cases ok
    exact ⟨h, rfl, rfl, rfl⟩
  | cons x hs ih =>
    unfold LightClient.followAll follow at ok
    cases accepted : (l.addSessions x.sessions).acceptCertificate x.certificate with
    | error why => simp [accepted] at ok
    | ok a =>
      simp only [accepted] at ok
      cases handed : a.handOver x.nextMembers with
      | error why => simp [handed] at ok
      | ok b =>
        simp only [handed] at ok
        obtain ⟨-, sound, committee, chain, genesis⟩ := (h.addSessions x.sessions).accept accepted
        obtain ⟨sound', epoch', chain', genesis'⟩ := sound.handOver handed
        obtain ⟨done, epoch'', chain'', genesis''⟩ := ih sound' ok
        refine ⟨done, ?_, ?_, ?_⟩
        · rw [epoch'', epoch', committee, length_cons]
          change l.committee.epoch + 1 + hs.length = _
          omega
        · rw [chain'', chain', chain]
          rfl
        · rw [genesis'', genesis', genesis]
          rfl

/-- What a client may do from one state to another. -/
inductive Follows : LightClient → LightClient → Prop where
  | refl (l : LightClient) : Follows l l
  | addSessions {l l' : LightClient} (bundle : List SessionCertificate) : Follows l l' →
      Follows l (l'.addSessions bundle)
  | accept {l l' l'' : LightClient} (cert : Certificate) : Follows l l' →
      l'.acceptCertificate cert = .ok l'' → Follows l l''
  | handOver {l l' l'' : LightClient} (members : List Member) : Follows l l' →
      l'.handOver members = .ok l'' → Follows l l''

theorem Sound.follows (h : l.Sound root) (f : Follows l l') :
    l'.Sound root ∧ l'.chainId = l.chainId ∧ l'.genesisHash = l.genesisHash := by
  induction f with
  | refl => exact ⟨h, rfl, rfl⟩
  | addSessions bundle _ ih => exact ⟨ih.1.addSessions bundle, ih.2⟩
  | accept cert _ ok ih =>
    obtain ⟨-, sound, -, chain, genesis⟩ := ih.1.accept ok
    exact ⟨sound, chain.trans ih.2.1, genesis.trans ih.2.2⟩
  | handOver members _ ok ih =>
    obtain ⟨sound, -, chain, genesis⟩ := ih.1.handOver ok
    exact ⟨sound, chain.trans ih.2.1, genesis.trans ih.2.2⟩

end LightClient

theorem SessionBook.tryAdmitAll_ok {c : Committee} {chainId : ℕ} {genesis : Digest}
    {b b' : SessionBook} {l : List SessionCertificate} (book : b.Admitted c chainId genesis)
    (ok : b.tryAdmitAll c l = .ok b') : b'.Admitted c chainId genesis := by
  induction l generalizing b with
  | nil =>
    cases ok
    exact book
  | cons s l ih =>
    unfold SessionBook.tryAdmitAll at ok
    cases one : b.tryAdmit c s with
    | error why => simp [one] at ok
    | ok next =>
      simp only [one] at ok
      refine ih ?_ ok
      unfold SessionBook.tryAdmit at one
      dsimp only at one
      split_ifs at one
      cases one
      exact .admitSession s book

theorem FinalityStep.verify_ok {s : FinalityStep} {j : FinalityJournal} (ok : s.verify = .ok j) :
    ∃ c, Committee.fromMembers s.certificate.checkpoint.epoch s.members = .ok c ∧
      j = s.journal c ∧ s.certificate.checkpoint.SignedBy s.chainId s.genesisHash c := by
  unfold FinalityStep.verify at ok
  dsimp only at ok
  cases hc : Committee.fromMembers s.certificate.checkpoint.epoch s.members with
  | error why => simp [hc] at ok
  | ok c =>
    simp only [hc] at ok
    cases hb : (SessionBook.new s.chainId s.genesisHash s.certificate.checkpoint.epoch).tryAdmitAll c
        s.sessions with
    | error why => simp [hb] at ok
    | ok b =>
      simp only [hb] at ok
      cases checked : s.certificate.check s.chainId s.genesisHash c b with
      | error why => simp [checked] at ok
      | ok u =>
        simp only [checked, Except.ok.injEq] at ok
        have epoch := (Committee.fromMembers_ok hc).1
        rw [← epoch] at hb
        have book := SessionBook.tryAdmitAll_ok .new hb
        exact ⟨c, rfl, ok.symm, (Certificate.check_backed checked).signedBy book⟩

/-- What a receipt of the handover program stands for: a link that verifies, on a journal that is
itself proven. -/
inductive HandoverChainJournal.Proven (program : Digest) : HandoverChainJournal → Prop where
  | link (l : HandoverLink) (j : HandoverChainJournal) : l.verify = .ok j →
      (∀ p, l.prev = some p → p.program = program → Proven program p) → Proven program j

def ReceiptSound (program : Digest) (verifyReceipt : ReceiptVerifier) : Prop :=
  ∀ receipt words, verifyReceipt program receipt = .ok words →
    ∃ j : HandoverChainJournal, words = j.encode ∧ j.Proven program

omit [LightHash] in
theorem HandoverChainJournal.decode_encode {j j' : HandoverChainJournal}
    (h : decode j.encode = some j') : j' = j := by
  simp only [encode, decode, readU64] at h
  split_ifs at h <;> simp at h
  exact h.symm

theorem HandoverLink.verify_ok {l : HandoverLink} {j : HandoverChainJournal}
    (ok : l.verify = .ok j) : ∃ c r, l.step.certificate.checkpoint.SignedBy j.chainId j.genesisHash c ∧
      l.step.certificate.checkpoint.nextCommitteeRoot = some r ∧
      j = ⟨l.program, j.chainId, j.genesisHash, l.genesisRoot, c.epoch + 1, r⟩ ∧
      ((l.prev = none ∧ c.epoch = 0 ∧ c.root = l.genesisRoot) ∨
        l.prev = some ⟨l.program, j.chainId, j.genesisHash, l.genesisRoot, c.epoch, c.root⟩) := by
  unfold HandoverLink.verify at ok
  cases hs : l.step.verify with
  | error why => simp [hs] at ok
  | ok f =>
    obtain ⟨c, hc, rfl, signed⟩ := FinalityStep.verify_ok hs
    by_cases foreign : (l.step.journal c).chainId ≠ l.step.chainId ∨
        (l.step.journal c).genesisHash ≠ l.step.genesisHash
    · simp [hs, foreign] at ok
    simp only [hs, foreign, if_false] at ok
    push Not at foreign
    cases hr : l.refusal (l.step.journal c) with
    | some why => simp [hr] at ok
    | none =>
      simp only [hr] at ok
      split_ifs at ok with open'
      cases ok
      obtain ⟨r, named⟩ : ∃ r, l.step.certificate.checkpoint.nextCommitteeRoot = some r := by
        cases hn : l.step.certificate.checkpoint.nextCommitteeRoot with
        | none => simp [FinalityStep.journal, hn] at open'
        | some r => exact ⟨r, rfl⟩
      have epoch : l.step.certificate.checkpoint.epoch = c.epoch :=
        (Committee.fromMembers_ok hc).1.symm
      refine ⟨c, r, ?_, named, ?_, ?_⟩
      · rw [foreign.1, foreign.2]
        exact signed
      · simp [FinalityStep.journal, named, epoch]
      · unfold HandoverLink.refusal at hr
        cases hp : l.prev with
        | none =>
          simp only [hp] at hr
          split_ifs at hr with bad
          push Not at bad
          exact .inl ⟨rfl, epoch ▸ bad.1, bad.2⟩
        | some p =>
          simp only [hp] at hr
          split_ifs at hr with program chain place
          push Not at program chain place
          refine .inr ?_
          obtain ⟨pp, pc, pg, pr, pe, px⟩ := p
          simp only at program chain place
          obtain ⟨rfl, rfl, rfl⟩ := chain
          obtain ⟨rfl, rfl⟩ := place
          rw [program]
          simp [FinalityStep.journal, epoch]

theorem HandoverChainJournal.Proven.trusted {program : Digest} {j : HandoverChainJournal}
    (h : j.Proven program) (named : j.program = program) {c : Committee}
    (epoch : c.epoch = j.epoch) (root : c.root = j.committeeRoot) :
    Trusted j.chainId j.genesisHash j.genesisRoot c := by
  induction h generalizing c with
  | link l j ok _ ih =>
    obtain ⟨before, r, signed, commits, shape, start⟩ := HandoverLink.verify_ok ok
    have program' : l.program = program := by rw [← named, shape]
    have genesisRoot : j.genesisRoot = l.genesisRoot := by rw [shape]
    have next : c.epoch = before.epoch + 1 := by rw [epoch, shape]
    have committed : c.root = r := by rw [root, shape]
    have trusted : Trusted j.chainId j.genesisHash j.genesisRoot before := by
      obtain ⟨-, zero, anchored⟩ | prev := start
      · exact .start zero (anchored.trans genesisRoot.symm)
      · rw [genesisRoot]
        exact ih _ prev program' program' rfl rfl
    exact trusted.extend next signed (committed ▸ commits)

theorem ChainAnchor.reached_trusted {a : ChainAnchor} {chain : List ℕ}
    {verifyReceipt : ReceiptVerifier} {epoch : ℕ} {root : Digest}
    (sound : chain ≠ [] → ReceiptSound a.program verifyReceipt)
    (ok : a.reached chain verifyReceipt = .ok (epoch, root)) {c : Committee}
    (hepoch : c.epoch = epoch) (hroot : c.root = root) :
    Trusted a.chainId a.genesisHash a.genesisRoot c := by
  unfold ChainAnchor.reached at ok
  split_ifs at ok with none
  · cases ok
    exact .start hepoch hroot
  · cases hv : verifyReceipt a.program chain with
    | error e => simp [hv] at ok
    | ok words =>
      obtain ⟨j, rfl, proven⟩ := sound none chain words hv
      simp only [hv] at ok
      cases hd : HandoverChainJournal.decode j.encode with
      | none => simp [hd] at ok
      | some j' =>
        cases HandoverChainJournal.decode_encode hd
        simp only [hd] at ok
        split_ifs at ok with program foreign
        push Not at program foreign
        cases ok
        have trusted := proven.trusted program hepoch hroot
        rw [foreign.1, foreign.2.1, foreign.2.2] at trusted
        exact trusted

namespace ChainedCheckpointProof
variable {a : ChainAnchor} {members : List Member} {c : Committee}

theorem step_signed {cert : Certificate} {sessions : List SessionCertificate} {j : FinalityJournal}
    (hc : Committee.fromMembers j.epoch members = .ok c) (ok : step a members cert sessions = .ok j) :
    cert.checkpoint.SignedBy a.chainId a.genesisHash c ∧ j.epoch = cert.checkpoint.epoch ∧
      j.nextCommitteeRoot = cert.checkpoint.nextCommitteeRoot.getD 0 := by
  obtain ⟨c', hc', rfl, signed⟩ := FinalityStep.verify_ok ok
  have same : Committee.fromMembers cert.checkpoint.epoch members = .ok c := hc
  rw [hc'] at same
  cases same
  exact ⟨signed, rfl, rfl⟩

theorem followAll_trusted {root : Digest} {epoch epoch' : ℕ} {members' : List Member}
    {hs : List EpochHandover} (hc : Committee.fromMembers epoch members = .ok c)
    (trusted : Trusted a.chainId a.genesisHash root c)
    (ok : followAll a epoch members hs = .ok (epoch', members')) :
    ∃ c', Committee.fromMembers epoch' members' = .ok c' ∧
      Trusted a.chainId a.genesisHash root c' := by
  induction hs generalizing epoch members c with
  | nil =>
    cases ok
    exact ⟨c, hc, trusted⟩
  | cons h hs ih =>
    unfold followAll at ok
    cases hj : step a members h.certificate h.sessions with
    | error why => simp [hj] at ok
    | ok j =>
      by_cases bad : j.epoch ≠ epoch ∨ j.nextCommitteeRoot = 0
      · simp [hj, bad] at ok
      simp only [hj, bad, if_false] at ok
      push Not at bad
      cases hn : Committee.fromMembers (epoch + 1) h.nextMembers with
      | error why => simp [hn] at ok
      | ok next =>
        simp only [hn] at ok
        split_ifs at ok with differs
        push Not at differs
        obtain ⟨signed, -, names⟩ := step_signed (bad.1 ▸ hc) hj
        have ends : h.certificate.checkpoint.nextCommitteeRoot = some next.root := by
          cases hr : h.certificate.checkpoint.nextCommitteeRoot with
          | none => exact absurd (by rw [names, hr]; rfl) bad.2
          | some r =>
            rw [differs, names, hr]
            rfl
        refine ih hn (trusted.extend ?_ signed ends) ok
        rw [(Committee.fromMembers_ok hn).1, (Committee.fromMembers_ok hc).1]

end ChainedCheckpointProof

/-- The ways a checkpoint is accepted under a genesis anchor and a handover program. -/
inductive Accepts (anchor : GenesisAnchor) (program : Digest) (verifyReceipt : ReceiptVerifier) :
    Checkpoint → Prop where
  | genesis (p : CheckpointProof) (cp : Checkpoint) : p.verify anchor = .ok cp →
      Accepts anchor program verifyReceipt cp
  | chained (p : ChainedCheckpointProof) (cp : Checkpoint) :
      p.verify ⟨anchor.chainId, anchor.genesisHash, anchor.committeeRoot, program⟩ verifyReceipt =
        .ok cp → Accepts anchor program verifyReceipt cp
  | segment (s : ChainSegment) (named : Option Digest) (client follower last : LightClient)
      (cert : Certificate) : (∀ p, named = some p → p = program) →
      s.lightClient anchor named verifyReceipt = .ok client → client.Follows follower →
      follower.acceptCertificate cert = .ok last →
      Accepts anchor program verifyReceipt cert.checkpoint

def Checkpoint.Final (anchor : GenesisAnchor) (cp : Checkpoint) : Prop :=
  ∃ c, Trusted anchor.chainId anchor.genesisHash anchor.committeeRoot c ∧
    cp.SignedBy anchor.chainId anchor.genesisHash c

variable {anchor : GenesisAnchor} {program : Digest} {verifyReceipt : ReceiptVerifier}
  {cp : Checkpoint}

theorem CheckpointProof.final {p : CheckpointProof} (ok : p.verify anchor = .ok cp) :
    cp.Final anchor := by
  unfold CheckpointProof.verify at ok
  cases hg : Committee.fromMembers 0 p.genesisMembers with
  | error why => simp [hg] at ok
  | ok genesis =>
    by_cases other : genesis.root ≠ anchor.committeeRoot
    · simp [hg, other] at ok
    by_cases short : p.handovers.length ≠ p.certificate.checkpoint.epoch
    · simp [hg, other, short] at ok
    simp only [hg, other, short, if_false] at ok
    push Not at other
    cases hl : (LightClient.new anchor.chainId anchor.genesisHash genesis).followAll
        p.handovers with
    | error why => simp [hl] at ok
    | ok client =>
      simp only [hl] at ok
      cases ha : (client.addSessions p.sessions).acceptCertificate p.certificate with
      | error why => simp [ha] at ok
      | ok last =>
        simp only [ha, Except.ok.injEq] at ok
        subst ok
        have start : (LightClient.new anchor.chainId anchor.genesisHash genesis).Sound
            anchor.committeeRoot :=
          LightClient.sound_new (.start (Committee.fromMembers_ok hg).1 other)
        obtain ⟨walked, -, chain, gen⟩ := start.followAll hl
        have signed := ((walked.addSessions p.sessions).accept ha).1
        have trusted := walked.trusted
        change Checkpoint.SignedBy client.chainId client.genesisHash _ _ at signed
        rw [chain, gen] at signed trusted
        exact ⟨client.committee, trusted, signed⟩

theorem ChainedCheckpointProof.final {p : ChainedCheckpointProof}
    (sound : ReceiptSound program verifyReceipt)
    (ok : p.verify ⟨anchor.chainId, anchor.genesisHash, anchor.committeeRoot, program⟩
      verifyReceipt = .ok cp) : cp.Final anchor := by
  unfold ChainedCheckpointProof.verify at ok
  cases hr : ChainAnchor.reached
      ⟨anchor.chainId, anchor.genesisHash, anchor.committeeRoot, program⟩ p.chain verifyReceipt with
  | error why => simp [hr] at ok
  | ok place =>
    obtain ⟨epoch, root⟩ := place
    simp only [hr] at ok
    cases hc : Committee.fromMembers epoch p.members with
    | error why => simp [hc] at ok
    | ok c =>
      by_cases other : c.root ≠ root
      · simp [hc, other] at ok
      simp only [hc, other, if_false] at ok
      push Not at other
      have trusted := ChainAnchor.reached_trusted (fun _ => sound) hr
        (Committee.fromMembers_ok hc).1 other
      cases hf : followAll ⟨anchor.chainId, anchor.genesisHash, anchor.committeeRoot, program⟩ epoch
          p.members p.handovers with
      | error why => simp [hf] at ok
      | ok reached =>
        obtain ⟨epoch', members'⟩ := reached
        simp only [hf] at ok
        obtain ⟨c', hc', trusted'⟩ := followAll_trusted hc trusted hf
        cases hj : step ⟨anchor.chainId, anchor.genesisHash, anchor.committeeRoot, program⟩ members'
            p.certificate p.sessions with
        | error why => simp [hj] at ok
        | ok j =>
          simp only [hj] at ok
          split_ifs at ok with elsewhere
          push Not at elsewhere
          cases ok
          exact ⟨c', trusted', (step_signed (elsewhere ▸ hc') hj).1⟩

theorem ChainSegment.lightClient_sound {s : ChainSegment} {named : Option Digest}
    {client : LightClient} (sound : ReceiptSound program verifyReceipt)
    (program' : ∀ p, named = some p → p = program)
    (ok : s.lightClient anchor named verifyReceipt = .ok client) :
    client.Sound anchor.committeeRoot ∧ client.chainId = anchor.chainId ∧
      client.genesisHash = anchor.genesisHash := by
  unfold ChainSegment.lightClient at ok
  cases hp : s.programOf named with
  | error why => simp [hp] at ok
  | ok used =>
    have receipts : s.receipt ≠ [] → ReceiptSound used verifyReceipt := by
      intro proven
      unfold ChainSegment.programOf at hp
      cases named with
      | none => simp [proven] at hp
      | some p =>
        cases hp
        rw [program' _ rfl]
        exact sound
    simp only [hp] at ok
    cases hr : ChainAnchor.reached
        ⟨anchor.chainId, anchor.genesisHash, anchor.committeeRoot, used⟩ s.receipt verifyReceipt with
    | error why => simp [hr] at ok
    | ok place =>
      obtain ⟨epoch, root⟩ := place
      by_cases first : epoch ≠ s.firstEpoch
      · simp [hr, first] at ok
      simp only [hr, first, if_false] at ok
      cases hc : Committee.fromMembers epoch s.members with
      | error why => simp [hc] at ok
      | ok c =>
        by_cases other : c.root ≠ root
        · simp [hc, other] at ok
        simp only [hc, other, if_false] at ok
        push Not at other
        have trusted := ChainAnchor.reached_trusted receipts hr (Committee.fromMembers_ok hc).1 other
        obtain ⟨walked, -, chain, gen⟩ := (LightClient.sound_new trusted).followAll ok
        exact ⟨walked, chain, gen⟩

theorem Accepts.final (sound : ReceiptSound program verifyReceipt)
    (h : Accepts anchor program verifyReceipt cp) : cp.Final anchor := by
  cases h with
  | genesis p _ ok => exact CheckpointProof.final ok
  | chained p _ ok => exact ChainedCheckpointProof.final sound ok
  | segment s named client follower last cert program' made follows ok =>
    obtain ⟨start, chain, gen⟩ := ChainSegment.lightClient_sound sound program' made
    obtain ⟨walked, chain', gen'⟩ := start.follows follows
    have signed := (walked.accept ok).1
    have trusted := walked.trusted
    rw [chain', gen', chain, gen] at signed trusted
    exact ⟨follower.committee, trusted, signed⟩

/-- One history under the anchor: its committees, their Byzantine members and its checkpoints.
Every other member signs only what it contains. -/
structure HonestHistory (anchor : GenesisAnchor) where
  committee : ℕ → Committee
  byzantine : ℕ → Finset ValidatorIndex
  contains : Checkpoint → Prop
  epochs : ∀ i, (committee i).epoch = i
  first : (committee 0).root = anchor.committeeRoot
  next : ∀ cp r, contains cp → cp.nextCommitteeRoot = some r →
    r = (committee (cp.epoch + 1)).root
  faulty : ∀ i, weight (committee i).seats (byzantine i) ≤ (committee i).maxFaulty
  honest : ∀ i s m sig cp, (committee i).member s = some m → s ∉ byzantine i → cp.epoch = i →
    VoteSignature.verify sig m.publicKey cp = true → contains cp

namespace HonestHistory

theorem of_signedBy (w : HonestHistory anchor) {i : ℕ}
    (h : cp.SignedBy anchor.chainId anchor.genesisHash (w.committee i)) : w.contains cp := by
  obtain ⟨signers, -, quorum, signed⟩ := h.quorum
  have heavy : weight (w.committee i).seats (w.byzantine i) <
      weight (w.committee i).seats signers := by
    have overlap := (w.committee i).quorum_overlap
    have total : (w.committee i).quorum ≤ (w.committee i).totalSeats := Nat.sub_le _ _
    have := w.faulty i
    omega
  obtain ⟨s, hs, correct⟩ := exists_correct heavy
  obtain ⟨m, sig, member, ok⟩ := signed s hs
  exact w.honest i s m sig cp member correct (h.epoch.trans (w.epochs i)) ok

theorem committee_eq (w : HonestHistory anchor)
    (inj : Injective2 (LightHash.committeeRoot : ℕ → List Member → Digest)) {e : ℕ}
    {C : ℕ → Committee} (chain : TrustChain anchor.chainId anchor.genesisHash anchor.committeeRoot e C)
    {i : ℕ} (hi : i ≤ e) : C i = w.committee i := by
  have same {j : ℕ} (root : (C j).root = (w.committee j).root) : C j = w.committee j :=
    Committee.ext' (inj root).1 (inj root).2
  induction i with
  | zero => exact same (chain.first.trans w.first.symm)
  | succ i ih =>
    obtain ⟨cp, epoch, names, signed⟩ := chain.handovers i hi
    rw [ih (by omega)] at signed
    have root := w.next cp _ (w.of_signedBy signed) names
    rw [epoch] at root
    exact same root

end HonestHistory

/-- An accepted checkpoint is signed by a quorum of the last of a chain of committees from the
anchored one, and is in every history whose honest members sign nothing else. -/
theorem light_client_sound
    (inj : Injective2 (LightHash.committeeRoot : ℕ → List Member → Digest))
    (sound : ReceiptSound program verifyReceipt) (h : Accepts anchor program verifyReceipt cp) :
    (∃ C, TrustChain anchor.chainId anchor.genesisHash anchor.committeeRoot cp.epoch C ∧
      cp.SignedBy anchor.chainId anchor.genesisHash (C cp.epoch)) ∧
    ∀ w : HonestHistory anchor, w.contains cp := by
  obtain ⟨c, ⟨C, chain, last⟩, signed⟩ := h.final sound
  have epoch := signed.epoch
  refine ⟨⟨C, epoch ▸ chain, ?_⟩, ?_⟩
  · rw [epoch, last]
    exact signed
  · intro w
    rw [← last, w.committee_eq inj chain le_rfl] at signed
    exact w.of_signedBy signed

end Tenzro

namespace Tenzro

def Member.fields (m : Member) : ℕ × ℕ × ℕ × ℕ := (m.address, m.publicKey, m.stake, m.seats)

/-- A root that is never zero and never the same for two committees. -/
def rootCode (epoch : ℕ) (members : List Member) : ℕ :=
  Encodable.encode (epoch, members.map Member.fields) + 1

theorem rootCode_injective : Function.Injective2 rootCode := by
  intro e e' l l' h
  have pair := Encodable.encode_injective (Nat.succ.inj h)
  have fields : Function.Injective Member.fields := by
    rintro ⟨⟩ ⟨⟩ same
    simpa [Member.fields] using same
  exact ⟨(Prod.mk.inj pair).1, fields.list_map (Prod.mk.inj pair).2⟩

def soloAt (epoch : ℕ) : Committee := { soloCommittee with epoch := epoch }

def lightCheckpoint (epoch : ℕ) (next : Option Digest) : Checkpoint :=
  { timedCheckpoint 1 5 with epoch := epoch, index := epoch + 1, nextCommitteeRoot := next }

def endingCheckpoint : Checkpoint := lightCheckpoint 0 (some (rootCode 1 soloCommittee.members))

def nextCheckpoint : Checkpoint := lightCheckpoint 1 none

def Checkpoint.code (cp : Checkpoint) : ℕ :=
  Encodable.encode (cp.chainId, cp.genesisHash, cp.epoch, cp.index, cp.prev, cp.firstHeight,
    cp.lastHeight, cp.blocksRoot, cp.stateHeight, cp.stateRoot, cp.statementRoot,
    cp.nextCommitteeRoot, cp.anchorRound, cp.timestampMs, cp.orderingRoot)

/-- Signatures verify over the two checkpoints only. -/
local instance lightHashing : LightHash where
  toFinality := { codedFinality with
    checkpointDigest := nameIn [endingCheckpoint, nextCheckpoint] Checkpoint.code
    signsVote := fun _ digest _ => digest < 2 }
  committeeRoot := rootCode

def lightAnchor : GenesisAnchor := ⟨1, 0, rootCode 0 soloCommittee.members⟩

def lightSession (epoch : ℕ) : SessionCertificate := ⟨1, 0, epoch, 0, 0, 0⟩

def lightCertificate (cp : Checkpoint) : Certificate := ⟨cp, [0], [(lightSession cp.epoch).code], [0]⟩

def lightLink : HandoverLink where
  program := 7
  genesisRoot := rootCode 0 soloCommittee.members
  prev := none
  step := ⟨1, 0, soloCommittee.members, [lightSession 0], lightCertificate endingCheckpoint⟩

def lightJournal : HandoverChainJournal :=
  ⟨7, 1, 0, rootCode 0 soloCommittee.members, 1, rootCode 1 soloCommittee.members⟩

def lightVerifier : ReceiptVerifier := fun program receipt =>
  if program = 7 ∧ receipt = [1] then .ok lightJournal.encode else .error "no receipt"

def lightProof : ChainedCheckpointProof :=
  ⟨[1], soloCommittee.members, [], lightCertificate nextCheckpoint, [lightSession 1]⟩

def lightHistory : HonestHistory lightAnchor where
  committee := soloAt
  byzantine _ := ∅
  contains cp := cp = endingCheckpoint ∨ cp = nextCheckpoint
  epochs _ := rfl
  first := rfl
  next := by
    rintro cp r (rfl | rfl) names
    · cases names
      rfl
    · cases names
  faulty _ := Nat.zero_le _
  honest i s m sig cp _ _ _ ok := by
    have digest : cp.digest < 2 := by
      have signed := (Bool.and_eq_true _ _ ▸ ok : _ ∧ _).2
      exact of_decide_eq_true signed
    by_contra neither
    push Not at neither
    have unknown : cp ∉ [endingCheckpoint, nextCheckpoint] := by simp [neither]
    have named : cp.digest = 2 + cp.code := by
      change nameIn _ _ _ = _
      rw [nameIn, if_neg unknown]
      rfl
    rw [named] at digest
    exact absurd digest (Nat.not_lt.2 (Nat.le_add_right 2 _))

theorem light_client_sound_chained :
    ReceiptSound 7 lightVerifier ∧ Accepts lightAnchor 7 lightVerifier nextCheckpoint ∧
    (∃ C, TrustChain 1 0 lightAnchor.committeeRoot 1 C ∧ nextCheckpoint.SignedBy 1 0 (C 1)) ∧
    lightHistory.contains nextCheckpoint :=
  have sound : ReceiptSound 7 lightVerifier := by
    intro receipt words ok
    unfold lightVerifier at ok
    split_ifs at ok
    cases ok
    exact ⟨lightJournal, rfl, .link lightLink lightJournal (by decide +kernel)
      (fun p hp => nomatch hp)⟩
  have accepted : Accepts lightAnchor 7 lightVerifier nextCheckpoint :=
    .chained lightProof nextCheckpoint (by decide +kernel)
  have both := light_client_sound rootCode_injective sound accepted
  ⟨sound, accepted, both.1, both.2 lightHistory⟩

end Tenzro
