import Tenzro.CertificateSound
import Tenzro.ExactlyOnce

set_option autoImplicit false
set_option linter.dupNamespace false

/-!
# Accountable finality

Verified votes make certificates that verify, one for an index at most, and two
certificates for one index convict a validity quorum of double signers.
-/
namespace Tenzro
open WeightedQuorum List SortedMap
variable [Finality]

namespace CheckpointEquivocation

def isValid (e : CheckpointEquivocation) (chainId : ℕ) : Bool :=
  if e.first.chainId ≠ chainId ∨ e.second.chainId ≠ chainId ∨
      e.first.genesisHash ≠ e.second.genesisHash ∨ e.first.epoch ≠ e.second.epoch ∨
      e.first.index ≠ e.second.index then false
  else
    e.first.digest ≠ e.second.digest && e.firstSignature.verify e.publicKey e.first &&
      e.secondSignature.verify e.publicKey e.second

def fromConflictingCertificates (x y : Certificate) (chainId : ℕ) (genesis : Digest)
    (c : Committee) (b : SessionBook) : List (ValidatorIndex × CheckpointEquivocation) :=
  if x.verify chainId genesis c b = false ∨ y.verify chainId genesis c b = false ∨
      x.checkpoint.index ≠ y.checkpoint.index ∨ x.checkpoint.digest = y.checkpoint.digest then []
  else
    let yAt : SortedMap ValidatorIndex ℕ := .ofList y.signers.zipIdx
    x.signers.zipIdx.filterMap (fun e => (yAt.get? e.1).bind (fun j =>
      (c.member e.1).bind (fun m => (voteSignature x e.2 b).bind (fun sx =>
        (voteSignature y j b).map (fun sy =>
          (e.1, ⟨m.publicKey, x.checkpoint, sx, y.checkpoint, sy⟩))))))

end CheckpointEquivocation

omit [Finality] in
theorem map_fst_filterMap {α β γ : Type} {L : List (α × β)} {f : α × β → Option (α × γ)}
    {p : α → Bool} (picks : ∀ e ∈ L, p e.1 = true → ∃ x, f e = some (e.1, x))
    (drops : ∀ e ∈ L, p e.1 = false → f e = none) :
    (L.filterMap f).map Prod.fst = (L.map Prod.fst).filter p := by
  induction L with
  | nil => rfl
  | cons e L ih =>
    have rest := ih (fun e he => picks e (mem_cons_of_mem _ he))
      (fun e he => drops e (mem_cons_of_mem _ he))
    cases hp : p e.1 with
    | true =>
      obtain ⟨x, hx⟩ := picks e mem_cons_self hp
      simp [hx, hp, rest]
    | false => simp [drops e mem_cons_self hp, hp, rest]

namespace CheckpointEquivocation
variable {c : Committee} {chainId : ℕ} {genesis : Digest} {b : SessionBook} {x y : Certificate}

theorem evidence_at (book : b.Admitted c chainId genesis) (hx : x.Backed chainId genesis c b)
    (hy : y.Backed chainId genesis c b) (same : x.checkpoint.index = y.checkpoint.index)
    (differ : x.checkpoint.digest ≠ y.checkpoint.digest) {s : ValidatorIndex} {i j : ℕ}
    (hi : (s, i) ∈ x.signers.zipIdx) (hj : (s, j) ∈ y.signers.zipIdx) :
    ∃ m sx sy, c.member s = some m ∧ voteSignature x i b = some sx ∧
      voteSignature y j b = some sy ∧
      isValid ⟨m.publicKey, x.checkpoint, sx, y.checkpoint, sy⟩ chainId = true := by
  obtain ⟨m, sx, member, first, firstOk⟩ := hx.voteSignature book hi
  obtain ⟨m', sy, member', second, secondOk⟩ := hy.voteSignature book hj
  rw [member] at member'
  cases member'
  refine ⟨m, sx, sy, member, first, second, ?_⟩
  have epoch : x.checkpoint.epoch = y.checkpoint.epoch := hx.epoch.trans hy.epoch.symm
  have gen : x.checkpoint.genesisHash = y.checkpoint.genesisHash := hx.genesis.trans hy.genesis.symm
  simp [isValid, hx.chain, hy.chain, gen, epoch, same, differ, firstOk, secondOk]

theorem evidence_signers (book : b.Admitted c chainId genesis) (hx : x.Backed chainId genesis c b)
    (hy : y.Backed chainId genesis c b) (same : x.checkpoint.index = y.checkpoint.index)
    (differ : x.checkpoint.digest ≠ y.checkpoint.digest) :
    (fromConflictingCertificates x y chainId genesis c b).map Prod.fst =
        x.signers.filter (· ∈ y.signers) ∧
      ∀ e ∈ fromConflictingCertificates x y chainId genesis c b, e.2.isValid chainId = true ∧
        ∃ m, c.member e.1 = some m ∧ e.2.publicKey = m.publicKey := by
  have found (s : ValidatorIndex) (j : ℕ)
      (hj : (ofList y.signers.zipIdx).get? s = some j) : (s, j) ∈ y.signers.zipIdx :=
    mem_of_get?_ofList hj
  have listed (s : ValidatorIndex) (hs : s ∈ y.signers) :
      ∃ j, (ofList y.signers.zipIdx).get? s = some j := by
    refine contains_eq_true.1 (contains_ofList ?_)
    rwa [zipIdx_map_fst]
  unfold fromConflictingCertificates
  rw [if_neg (by simp [Certificate.verify_iff.2 hx, Certificate.verify_iff.2 hy, same, differ])]
  dsimp only
  constructor
  · rw [map_fst_filterMap (p := (· ∈ y.signers)), zipIdx_map_fst]
    · rintro ⟨s, i⟩ hi hs
      obtain ⟨j, hj⟩ := listed s (of_decide_eq_true hs)
      obtain ⟨m, sx, sy, member, first, second, -⟩ := evidence_at book hx hy same differ hi
        (found s j hj)
      exact ⟨⟨m.publicKey, x.checkpoint, sx, y.checkpoint, sy⟩, by
        simp [hj, member, first, second]⟩
    · rintro ⟨s, i⟩ hi hs
      cases hj : (ofList y.signers.zipIdx).get? s with
      | none => simp
      | some j =>
        have mem : s ∈ y.signers := fst_mem_of_mem_zipIdx (found s j hj)
        simp [mem] at hs
  · intro e he
    obtain ⟨⟨s, i⟩, hi, made⟩ := mem_filterMap.1 he
    cases hj : (ofList y.signers.zipIdx).get? s with
    | none => simp [hj] at made
    | some j =>
      obtain ⟨m, sx, sy, member, first, second, valid⟩ := evidence_at book hx hy same differ hi
        (found s j hj)
      simp only [hj, member, first, second, Option.bind_some, Option.map_some,
        Option.some.injEq] at made
      subst made
      exact ⟨valid, m, member, rfl⟩

theorem evidence_seats (hx : x.Backed chainId genesis c b) (hy : y.Backed chainId genesis c b) :
    c.validity ≤ ((x.signers.filter (· ∈ y.signers)).map c.seats).sum := by
  have nodup : (x.signers.filter (· ∈ y.signers)).Nodup :=
    (hx.ascending.imp ne_of_lt).filter _
  have common : (x.signers.filter (· ∈ y.signers)).toFinset =
      x.signers.toFinset ∩ y.signers.toFinset := by
    ext s
    simp
  have within (z : Certificate) (hz : z.Backed chainId genesis c b) :
      z.signers.toFinset ⊆ c.indices := by
    intro s hs
    exact c.mem_indices.2 (hz.members s (mem_toFinset.1 hs))
  rw [← sum_toFinset c.seats nodup, common]
  have union := weight_mono (w := c.seats) (Finset.union_subset (within x hx) (within y hy))
  have split := weight_union_inter (w := c.seats) x.signers.toFinset y.signers.toFinset
  have overlap := c.quorum_overlap
  have := hx.quorum
  have := hy.quorum
  rw [c.weight_indices] at union
  change c.maxFaulty + 1 ≤ weight c.seats _
  omega

end CheckpointEquivocation

/-- What a collector is called with. -/
inductive VoteOp where
  | add (vote : CheckpointVote)
  | pruneBelow (index : ℕ)

def VoteOp.vote : VoteOp → Option CheckpointVote
  | .add vote => some vote
  | .pruneBelow _ => none

def VoteOutcome.certificate : VoteOutcome → Option Certificate
  | .certified cert => some cert
  | _ => none

namespace VoteCollector

def collectOne (c : Committee) (s : VoteCollector × List Certificate) :
    VoteOp → VoteCollector × List Certificate
  | .add vote => ((s.1.add c vote).1, s.2 ++ (s.1.add c vote).2.certificate.toList)
  | .pruneBelow index => (s.1.pruneBelow index, s.2)

def collect (c : Committee) (ops : List VoteOp) : VoteCollector × List Certificate :=
  ops.foldl (collectOne c) (.new, [])

theorem collect_append (c : Committee) (ops : List VoteOp) (op : VoteOp) :
    collect c (ops ++ [op]) = collectOne c (collect c ops) op := by
  simp only [collect, foldl_append, foldl_cons, foldl_nil]

end VoteCollector

/-- Votes counted for one index, all of them `P`. -/
structure IndexVotes.Sound (c : Committee) (P : CheckpointVote → Prop) (i : ℕ) (e : IndexVotes) :
    Prop where
  bySigner : ∀ s v, e.bySigner.get? s = some v → v.signer = s ∧ v.checkpoint.index = i ∧ P v
  weights : ∀ d seats, e.byDigest.get? d = some seats → seats.weight = weight c.seats seats.members
  byDigest : ∀ d seats, e.byDigest.get? d = some seats → ∀ s ∈ seats.members,
    ∃ v, e.bySigner.get? s = some v ∧ v.checkpoint.digest = d

/-- The votes a certificate is formed of. -/
structure Certificate.Formed (c : Committee) (P : CheckpointVote → Prop) (cert : Certificate)
    (votes : List CheckpointVote) : Prop where
  signers : cert.signers = votes.map CheckpointVote.signer
  sessions : cert.sessions = votes.map (fun v => Finality.sessionDigest v.signature.session)
  signatures : cert.signatures = votes.map (fun v => v.signature.signature)
  ascending : cert.signers.Pairwise (· < ·)
  quorum : c.quorum ≤ weight c.seats cert.signers.toFinset
  votes : ∀ v ∈ votes, P v ∧ v.checkpoint.digest = cert.checkpoint.digest
  checkpoint : ∃ v, P v ∧ v.checkpoint = cert.checkpoint

namespace IndexVotes

def empty : IndexVotes := ⟨.empty, .empty, false⟩

variable {c : Committee} {P : CheckpointVote → Prop} {i : ℕ} {e : IndexVotes}

theorem sound_empty (c : Committee) (P : CheckpointVote → Prop) (i : ℕ) : empty.Sound c P i where
  bySigner _ _ h := nomatch h
  weights _ _ h := nomatch h
  byDigest _ _ h := nomatch h

def note (e : IndexVotes) (vote : CheckpointVote) : IndexVotes :=
  { e with bySigner := e.bySigner.insert vote.signer vote }

def seatsWith (e : IndexVotes) (c : Committee) (vote : CheckpointVote) : SeatSet :=
  ((e.byDigest.getD vote.checkpoint.digest .empty).insert vote.signer (c.seats vote.signer)).1

def count (e : IndexVotes) (c : Committee) (vote : CheckpointVote) : IndexVotes :=
  { e.note vote with
    byDigest := e.byDigest.insert vote.checkpoint.digest (e.seatsWith c vote) }

def votesWith (e : IndexVotes) (c : Committee) (vote : CheckpointVote) : List CheckpointVote :=
  (e.seatsWith c vote).toList.filterMap (e.count c vote).bySigner.get?

def certify (e : IndexVotes) (c : Committee) (vote : CheckpointVote) : Certificate where
  checkpoint := vote.checkpoint
  signers := (e.seatsWith c vote).toList
  sessions := (e.votesWith c vote).map (fun v => Finality.sessionDigest v.signature.session)
  signatures := (e.votesWith c vote).map (fun v => v.signature.signature)

variable {vote : CheckpointVote}

theorem Sound.note (h : e.Sound c P i) (ok : P vote) (here : vote.checkpoint.index = i)
    (fresh : e.bySigner.get? vote.signer = none) : (e.note vote).Sound c P i where
  bySigner s v hv := by
    simp only [IndexVotes.note, get?_insert] at hv
    split_ifs at hv with same
    · cases hv
      exact ⟨same.symm, here, ok⟩
    · exact h.bySigner s v hv
  weights := h.weights
  byDigest d seats hd s hs := by
    obtain ⟨v, hv, digest⟩ := h.byDigest d seats hd s hs
    have other : s ≠ vote.signer := by
      rintro rfl
      rw [fresh] at hv
      cases hv
    exact ⟨v, by simp [IndexVotes.note, get?_insert, other, hv], digest⟩

theorem Sound.count (h : e.Sound c P i) (ok : P vote) (here : vote.checkpoint.index = i)
    (fresh : e.bySigner.get? vote.signer = none) : (e.count c vote).Sound c P i := by
  have noted := h.note ok here fresh
  have kept : (e.note vote).bySigner.get? vote.signer = some vote := by simp [IndexVotes.note]
  have old : (e.byDigest.getD vote.checkpoint.digest .empty).weight =
        weight c.seats (e.byDigest.getD vote.checkpoint.digest .empty).members ∧
      ∀ s ∈ (e.byDigest.getD vote.checkpoint.digest .empty).members,
        ∃ v, (e.note vote).bySigner.get? s = some v ∧
          v.checkpoint.digest = vote.checkpoint.digest := by
    unfold SortedMap.getD
    cases hd : e.byDigest.get? vote.checkpoint.digest with
    | none => exact ⟨rfl, fun s mem => absurd mem (Finset.notMem_empty s)⟩
    | some seats => exact ⟨h.weights _ seats hd, noted.byDigest _ seats hd⟩
  have own : vote.signer ∉ (e.byDigest.getD vote.checkpoint.digest .empty).members := by
    unfold SortedMap.getD
    cases hd : e.byDigest.get? vote.checkpoint.digest with
    | none => exact Finset.notMem_empty _
    | some seats =>
      intro mem
      obtain ⟨v, hv, -⟩ := h.byDigest _ seats hd _ mem
      rw [fresh] at hv
      cases hv
  refine ⟨noted.bySigner, ?_, ?_⟩
  · intro d seats hd
    simp only [IndexVotes.count, get?_insert] at hd
    split_ifs at hd with same
    · cases hd
      rw [seatsWith, SeatSet.members_insert, SeatSet.weight_insert_of_notMem own,
        weight_insert own, old.1, add_comm]
    · exact h.weights d seats hd
  · intro d seats hd s hs
    simp only [IndexVotes.count, get?_insert] at hd
    split_ifs at hd with same
    · cases hd
      rw [seatsWith, SeatSet.members_insert, Finset.mem_insert] at hs
      obtain rfl | hs := hs
      · exact ⟨vote, kept, same.symm⟩
      · obtain ⟨v, hv, digest⟩ := old.2 s hs
        exact ⟨v, hv, digest.trans same.symm⟩
    · exact noted.byDigest d seats hd s hs

theorem Sound.formed (h : (e.count c vote).Sound c P i) (ok : P vote)
    (enough : c.quorum ≤ (e.seatsWith c vote).weight) :
    (e.certify c vote).Formed c P (e.votesWith c vote) := by
  have seats : (e.count c vote).byDigest.get? vote.checkpoint.digest =
      some (e.seatsWith c vote) := by simp [IndexVotes.count]
  have behind : ∀ s ∈ (e.seatsWith c vote).toList, ∃ v,
      (e.count c vote).bySigner.get? s = some v ∧ v.signer = s ∧
        v.checkpoint.digest = vote.checkpoint.digest ∧ P v := by
    intro s hs
    obtain ⟨v, hv, digest⟩ := h.byDigest _ _ seats s (mem_toFinset.2 hs)
    obtain ⟨signer, -, ok⟩ := h.bySigner s v hv
    exact ⟨v, hv, signer, digest, ok⟩
  have all {l : List ValidatorIndex} (sub : ∀ s ∈ l, ∃ v,
      (e.count c vote).bySigner.get? s = some v ∧ v.signer = s) :
      (l.filterMap (e.count c vote).bySigner.get?).map CheckpointVote.signer = l := by
    induction l with
    | nil => rfl
    | cons s l ih =>
      obtain ⟨v, hv, signer⟩ := sub s mem_cons_self
      simp [hv, signer, ih (fun t ht => sub t (mem_cons_of_mem _ ht))]
  refine ⟨?_, rfl, rfl, keys_sorted _, ?_, ?_, vote, ok, rfl⟩
  · refine (all ?_).symm
    intro s hs
    obtain ⟨v, hv, signer, -⟩ := behind s hs
    exact ⟨v, hv, signer⟩
  · rw [h.weights _ _ seats] at enough
    exact enough
  · intro v hv
    obtain ⟨s, hs, got⟩ := mem_filterMap.1 hv
    obtain ⟨w, hw, -, digest, ok⟩ := behind s hs
    rw [hw] at got
    cases got
    exact ⟨ok, digest⟩

end IndexVotes

namespace VoteCollector
variable {c : Committee} {P : CheckpointVote → Prop}

def votesAt (vs : VoteCollector) (i : ℕ) : IndexVotes := vs.indices.getD i .empty

def put (vs : VoteCollector) (i : ℕ) (e : IndexVotes) : VoteCollector :=
  { vs with indices := vs.indices.insert i e }

theorem add_eq (vs : VoteCollector) (c : Committee) (vote : CheckpointVote) :
    vs.add c vote =
      if vote.checkpoint.index < vs.floor then (vs, .duplicate)
      else
        let i := vote.checkpoint.index
        let e := vs.votesAt i
        match e.bySigner.get? vote.signer with
        | some prev =>
          (vs.put i e, if prev.checkpoint.digest = vote.checkpoint.digest then .duplicate
            else .equivocation prev vote)
        | none =>
          if e.certified then (vs.put i (e.note vote), .duplicate)
          else if (e.seatsWith c vote).weight < c.quorum then (vs.put i (e.count c vote), .counted)
          else (vs.put i { e.count c vote with certified := true },
            .certified (e.certify c vote)) := rfl

theorem add_cases (vs : VoteCollector) (c : Committee) (vote : CheckpointVote) :
    let i := vote.checkpoint.index
    let e := vs.votesAt i
    ((vs.add c vote).1 = vs ∧ (vs.add c vote).2.certificate = none) ∨
    vs.floor ≤ i ∧
      (((vs.add c vote).1 = vs.put i e ∧ (vs.add c vote).2.certificate = none) ∨
      e.bySigner.get? vote.signer = none ∧
        (((vs.add c vote).1 = vs.put i (e.note vote) ∧ (vs.add c vote).2.certificate = none) ∨
        ((vs.add c vote).1 = vs.put i (e.count c vote) ∧
          (vs.add c vote).2.certificate = none) ∨
        (e.certified = false ∧ c.quorum ≤ (e.seatsWith c vote).weight ∧
          (vs.add c vote).1 = vs.put i { e.count c vote with certified := true } ∧
          (vs.add c vote).2.certificate = some (e.certify c vote)))) := by
  dsimp only
  rw [add_eq]
  by_cases low : vote.checkpoint.index < vs.floor
  · rw [if_pos low]
    exact .inl ⟨rfl, rfl⟩
  · rw [if_neg low]
    refine .inr ⟨not_lt.1 low, ?_⟩
    cases old : (vs.votesAt vote.checkpoint.index).bySigner.get? vote.signer with
    | some prev =>
      simp only [old]
      exact .inl ⟨trivial, by split_ifs <;> rfl⟩
    | none =>
      simp only [old]
      refine .inr ⟨trivial, ?_⟩
      by_cases done : (vs.votesAt vote.checkpoint.index).certified = true
      · rw [if_pos done]
        exact .inl ⟨rfl, rfl⟩
      · rw [if_neg done]
        by_cases few : ((vs.votesAt vote.checkpoint.index).seatsWith c vote).weight < c.quorum
        · rw [if_pos few]
          exact .inr (.inl ⟨rfl, rfl⟩)
        · rw [if_neg few]
          exact .inr (.inr ⟨by simpa using done, not_lt.1 few, rfl, rfl⟩)

omit [Finality] in
theorem votesAt_put (vs : VoteCollector) (i : ℕ) (e : IndexVotes) (j : ℕ) :
    (vs.put i e).votesAt j = if j = i then e else vs.votesAt j := by
  simp only [votesAt, put, getD_insert]

/-- A collector of votes that are `P`, with the certificates it returned. -/
structure Collected (c : Committee) (P : CheckpointVote → Prop)
    (s : VoteCollector × List Certificate) : Prop where
  sound : ∀ i, (s.1.votesAt i).Sound c P i
  once : (s.2.map (fun cert => cert.checkpoint.index)).Nodup
  past : ∀ cert ∈ s.2, cert.checkpoint.index < s.1.floor ∨
    (s.1.votesAt cert.checkpoint.index).certified = true
  formed : ∀ cert ∈ s.2, ∃ votes, cert.Formed c P votes

theorem collected_new (c : Committee) (P : CheckpointVote → Prop) : Collected c P (.new, []) where
  sound i := IndexVotes.sound_empty c P i
  once := nodup_nil
  past _ h := nomatch h
  formed _ h := nomatch h

variable {vs : VoteCollector} {certs : List Certificate}

theorem Collected.put (h : Collected c P (vs, certs)) {i : ℕ} {e : IndexVotes}
    (sound : e.Sound c P i) (kept : (vs.votesAt i).certified = true → e.certified = true) :
    Collected c P (vs.put i e, certs) where
  sound j := by
    rw [votesAt_put]
    split_ifs with same
    · exact same ▸ sound
    · exact h.sound j
  once := h.once
  past cert hc := by
    refine (h.past cert hc).imp id ?_
    intro done
    rw [votesAt_put]
    split_ifs with same
    · exact kept (same ▸ done)
    · exact done
  formed := h.formed

theorem Collected.certify (h : Collected c P (vs, certs)) {cert : Certificate}
    (new : ∀ old ∈ certs, old.checkpoint.index ≠ cert.checkpoint.index)
    (done : (vs.votesAt cert.checkpoint.index).certified = true)
    {votes : List CheckpointVote} (formed : cert.Formed c P votes) :
    Collected c P (vs, certs ++ [cert]) where
  sound := h.sound
  once := by
    rw [map_append]
    refine h.once.append (nodup_singleton _) ?_
    intro i hi again
    obtain ⟨old, ho, rfl⟩ := mem_map.1 hi
    exact new old ho (mem_singleton.1 again)
  past x hx := by
    cases mem_append.1 hx with
    | inl old => exact h.past x old
    | inr now =>
      rw [mem_singleton.1 now]
      exact .inr done
  formed x hx := by
    cases mem_append.1 hx with
    | inl old => exact h.formed x old
    | inr now =>
      rw [mem_singleton.1 now]
      exact ⟨votes, formed⟩

theorem Collected.add (h : Collected c P (vs, certs)) {vote : CheckpointVote} (ok : P vote) :
    Collected c P (collectOne c (vs, certs) (.add vote)) := by
  have sound := h.sound vote.checkpoint.index
  unfold collectOne
  dsimp only
  obtain ⟨state, none⟩ | ⟨above, cases⟩ := vs.add_cases c vote
  · simpa only [state, none, Option.toList_none, append_nil] using h
  · obtain ⟨state, none⟩ | ⟨fresh, ⟨state, none⟩ | ⟨state, none⟩ | ⟨open', enough, state, made⟩⟩ :=
      cases
    · simp only [state, none, Option.toList_none, append_nil]
      exact h.put sound id
    · simp only [state, none, Option.toList_none, append_nil]
      exact h.put (sound.note ok rfl fresh) id
    · simp only [state, none, Option.toList_none, append_nil]
      exact h.put (sound.count ok rfl fresh) id
    · rw [state, made, Option.toList_some]
      have counted := sound.count (c := c) ok rfl fresh
      have certified : IndexVotes.Sound c P vote.checkpoint.index
          { (vs.votesAt vote.checkpoint.index).count c vote with certified := true } :=
        ⟨counted.bySigner, counted.weights, counted.byDigest⟩
      refine (h.put certified (fun _ => rfl)).certify ?_ ?_ (counted.formed ok enough)
      · intro old ho same
        change old.checkpoint.index = vote.checkpoint.index at same
        cases h.past old ho with
        | inl low =>
          rw [same] at low
          exact absurd low (not_lt.2 above)
        | inr done =>
          rw [same, open'] at done
          cases done
      · change ((vs.put _ _).votesAt vote.checkpoint.index).certified = true
        rw [votesAt_put, if_pos rfl]

theorem Collected.prune (h : Collected c P (vs, certs)) (index : ℕ) :
    Collected c P (collectOne c (vs, certs) (.pruneBelow index)) := by
  unfold collectOne VoteCollector.pruneBelow
  dsimp only
  split_ifs with up
  · have kept (i : ℕ) : VoteCollector.votesAt ⟨vs.indices.filter (fun i _ => index ≤ i), index⟩ i =
        if index ≤ i then vs.votesAt i else .empty := by
      unfold votesAt SortedMap.getD
      rw [get?_filter]
      cases vs.indices.get? i with
      | none => simp
      | some e => by_cases low : index ≤ i <;> simp [low, Option.filter]
    refine ⟨?_, h.once, ?_, h.formed⟩
    · intro i
      rw [kept]
      split_ifs
      · exact h.sound i
      · exact IndexVotes.sound_empty c P i
    · intro cert hc
      by_cases low : cert.checkpoint.index < index
      · exact .inl low
      · refine .inr ?_
        rw [kept, if_pos (not_lt.1 low)]
        refine (h.past cert hc).resolve_left ?_
        dsimp only
        omega
  · exact h

theorem collected (ops : List VoteOp) (ok : ∀ v ∈ ops.filterMap VoteOp.vote, P v) :
    Collected c P (collect c ops) := by
  induction ops using reverseRecOn with
  | nil => exact collected_new c P
  | append_singleton ops op ih =>
    rw [filterMap_append] at ok
    have before := ih (fun v hv => ok v (mem_append_left _ hv))
    rw [collect_append]
    cases op with
    | add vote => exact before.add (ok vote (mem_append_right _ (by simp [VoteOp.vote])))
    | pruneBelow index => exact before.prune index

end VoteCollector

def CheckpointVote.Verified (c : Committee) (v : CheckpointVote) : Prop :=
  ∃ m, c.member v.signer = some m ∧ v.verify m.publicKey = true

/-- A vote that verifies and whose session certificate the book holds. -/
structure CheckpointVote.Held (c : Committee) (b : SessionBook) (v : CheckpointVote) : Prop where
  verified : v.Verified c
  held : b.byDigest.contains (Finality.sessionDigest v.signature.session) = true
  wellFormed : v.checkpoint.wellFormed = true

theorem Certificate.Formed.backed {c : Committee} {chainId : ℕ} {genesis : Digest}
    {b : SessionBook} (book : b.Admitted c chainId genesis)
    (inj : Function.Injective (Finality.sessionDigest : SessionCertificate → Digest))
    {cert : Certificate} {votes : List CheckpointVote}
    (h : cert.Formed c (CheckpointVote.Held c b) votes) :
    cert.Backed chainId genesis c b := by
  -- the session certificate of a vote is in the book under its signer
  have named (v : CheckpointVote) (hv : v.Held c b) : (c.member v.signer).isSome = true ∧
      v.checkpoint.chainId = chainId ∧ v.checkpoint.genesisHash = genesis ∧
      v.checkpoint.epoch = c.epoch ∧
      b.byDigest.get? (Finality.sessionDigest v.signature.session) =
        some (v.signer, v.signature.session) ∧
      Finality.signsVote v.signature.session.sessionKey v.checkpoint.digest
        v.signature.signature = true := by
    obtain ⟨m, member, ok⟩ := hv.verified
    obtain ⟨⟨i, s⟩, held⟩ := contains_eq_true.1 hv.held
    obtain ⟨digest, m', member', certifies⟩ := book.certified held
    cases inj digest
    simp only [CheckpointVote.verify, VoteSignature.verify, SessionCertificate.certifies,
      Bool.and_eq_true, decide_eq_true_eq] at ok certifies
    obtain ⟨⟨⟨⟨⟨chain, gen⟩, epoch⟩, key⟩, -⟩, signed⟩ := ok
    obtain ⟨⟨⟨⟨chain', gen'⟩, epoch'⟩, key'⟩, -⟩ := certifies
    have same : i = v.signer := by
      have keys : (c.members.map Member.publicKey)[i]? =
          (c.members.map Member.publicKey)[v.signer]? := by
        rw [getElem?_map, getElem?_map]
        change (c.member i).map _ = (c.member v.signer).map _
        rw [member', member, Option.map_some, Option.map_some, ← key', ← key]
      refine (getElem?_inj ?_ c.distinctKeys).1 keys
      rw [length_map]
      exact c.member_isSome.1 (by rw [member']; rfl)
    refine ⟨by rw [member]; rfl, chain.symm.trans chain', gen.symm.trans gen',
      epoch.symm.trans epoch', ?_, signed⟩
    rw [held, same]
  obtain ⟨v, hv, checkpoint⟩ := h.checkpoint
  obtain ⟨-, chain, gen, epoch, -, -⟩ := named v hv
  rw [checkpoint] at chain gen epoch
  refine ⟨chain, gen, epoch, epoch.trans book.of.2.2.symm, checkpoint ▸ hv.wellFormed, ?_, ?_,
    h.ascending, ?_, h.quorum, ?_⟩
  · simp [h.signers, h.signatures]
  · simp [h.signers, h.sessions]
  · intro s hs
    rw [h.signers] at hs
    obtain ⟨v, hv, rfl⟩ := mem_map.1 hs
    exact (named v (h.votes v hv).1).1
  · intro s d sig mem
    rw [h.signers, h.sessions, h.signatures, zip_map', zip_map'] at mem
    obtain ⟨v, hv, made⟩ := mem_map.1 mem
    cases made
    obtain ⟨held, digest⟩ := h.votes v hv
    obtain ⟨-, -, -, -, got, signed⟩ := named v held
    exact ⟨_, got, digest ▸ signed⟩

/-- Verified votes for well-formed checkpoints are certified at most once an index, by certificates
that verify; two for one index convict exactly their common signers, who hold a validity quorum. -/
theorem accountable_finality {c : Committee} {chainId : ℕ} {genesis : Digest} {b : SessionBook}
    (book : b.Admitted c chainId genesis)
    (inj : Function.Injective (Finality.sessionDigest : SessionCertificate → Digest)) :
    (∀ ops, ((VoteCollector.collect c ops).2.map (fun cert => cert.checkpoint.index)).Nodup) ∧
    (∀ ops, (∀ v ∈ ops.filterMap VoteOp.vote, v.Held c b) →
      ∀ cert ∈ (VoteCollector.collect c ops).2, cert.verify chainId genesis c b = true) ∧
    ∀ x y : Certificate, x.verify chainId genesis c b = true →
      y.verify chainId genesis c b = true → x.checkpoint.index = y.checkpoint.index →
      x.checkpoint.digest ≠ y.checkpoint.digest →
      let evidence := CheckpointEquivocation.fromConflictingCertificates x y chainId genesis c b
      evidence.map Prod.fst = x.signers.filter (· ∈ y.signers) ∧
        (∀ e ∈ evidence, e.2.isValid chainId = true ∧
          ∃ m, c.member e.1 = some m ∧ e.2.publicKey = m.publicKey) ∧
        c.validity ≤ (evidence.map (fun e => c.seats e.1)).sum := by
  refine ⟨?_, ?_, ?_⟩
  · intro ops
    exact (VoteCollector.collected (P := fun _ => True) ops (fun _ _ => trivial)).once
  · intro ops held cert hc
    obtain ⟨votes, formed⟩ := (VoteCollector.collected ops held).formed cert hc
    exact Certificate.verify_iff.2 (formed.backed book inj)
  · intro x y hx hy same differ
    have bx := Certificate.verify_iff.1 hx
    have by' := Certificate.verify_iff.1 hy
    obtain ⟨signers, valid⟩ := CheckpointEquivocation.evidence_signers book bx by' same differ
    refine ⟨signers, valid, ?_⟩
    have seats := CheckpointEquivocation.evidence_seats bx by'
    rw [← signers, map_map] at seats
    exact seats

end Tenzro

namespace Tenzro

def SessionCertificate.code (s : SessionCertificate) : ℕ :=
  Encodable.encode (s.chainId, s.genesisHash, s.epoch, s.validator, s.sessionKey, s.signature)

theorem SessionCertificate.code_injective : Function.Injective SessionCertificate.code := by
  rintro ⟨⟩ ⟨⟩ h
  have fields := Encodable.encode_injective h
  simp only [Prod.mk.injEq] at fields
  obtain ⟨rfl, rfl, rfl, rfl, rfl, rfl⟩ := fields
  rfl

/-- Session certificates under their own code, checkpoints told apart by their time. -/
local instance codedFinality : Finality where
  checkpointDigest cp := 1000 * cp.index + cp.timestampMs
  sessionDigest := SessionCertificate.code
  orderingDigest s := s.index
  merkleRoot l := l.foldl (fun h d => 31 * h + d) 7
  orderingSeed seed index height d := seed + index + height + d
  signsSession _ _ := true
  signsVote _ _ _ := true
  agreeSession _ _ := true
  agreeVote _ _ _ := true

def plainSession : SessionCertificate := ⟨1, 0, 0, 0, 0, 0⟩

def plainBook : SessionBook := ((SessionBook.new 1 0 0).admitSession soloCommittee plainSession).1

theorem plainBook_admitted : plainBook.Admitted soloCommittee 1 0 := .admitSession _ .new

def timedCheckpoint (first time : ℕ) : Checkpoint where
  chainId := 1
  genesisHash := 0
  epoch := 0
  index := 1
  prev := 0
  firstHeight := first
  lastHeight := 0
  blocksRoot := 0
  stateHeight := 0
  stateRoot := 0
  statementRoot := 0
  nextCommitteeRoot := none
  anchorRound := 0
  timestampMs := time
  orderingRoot := 0

def timedVote (first time : ℕ) : CheckpointVote := ⟨timedCheckpoint first time, 0, ⟨plainSession, 0⟩⟩

def timedCertificate (first time : ℕ) : Certificate :=
  ⟨timedCheckpoint first time, [0], [plainSession.code], [0]⟩

theorem timedVote_verified (first time : ℕ) : (timedVote first time).Verified soloCommittee :=
  ⟨⟨0, 0, 1, 1⟩, rfl, rfl⟩

/-- The one member signs two checkpoints for an index: only the first is certified, and the two
certificates convict it. -/
theorem accountable_finality_solo :
    (∀ v ∈ [timedVote 1 5, timedVote 1 6], v.Held soloCommittee plainBook) ∧
    (VoteCollector.collect soloCommittee [.add (timedVote 1 5), .add (timedVote 1 6)]).2.map
      (fun cert => cert.checkpoint.timestampMs) = [5] ∧
    (∀ cert ∈ (VoteCollector.collect soloCommittee
      [.add (timedVote 1 5), .add (timedVote 1 6)]).2,
      cert.verify 1 0 soloCommittee plainBook = true) ∧
    soloCommittee.validity ≤ ((CheckpointEquivocation.fromConflictingCertificates
      (timedCertificate 1 5) (timedCertificate 1 6) 1 0 soloCommittee plainBook).map
        (fun e => soloCommittee.seats e.1)).sum :=
  have finality := accountable_finality plainBook_admitted SessionCertificate.code_injective
  have held : ∀ v ∈ [timedVote 1 5, timedVote 1 6], v.Held soloCommittee plainBook := by
    intro v hv
    have book : ∀ v ∈ [timedVote 1 5, timedVote 1 6], plainBook.byDigest.contains
        (Finality.sessionDigest v.signature.session) = true ∧
        v.checkpoint.wellFormed = true := by decide +kernel
    refine ⟨?_, (book v hv).1, (book v hv).2⟩
    simp only [List.mem_cons, List.not_mem_nil, or_false] at hv
    obtain rfl | rfl := hv <;> exact timedVote_verified _ _
  ⟨held, by decide, finality.2.1 [.add (timedVote 1 5), .add (timedVote 1 6)] held,
    (finality.2.2 (timedCertificate 1 5) (timedCertificate 1 6) (by decide +kernel) (by decide +kernel) rfl (by decide +kernel)).2.2⟩

/-- Verified votes for a checkpoint whose range is malformed make a certificate that does not
verify. -/
theorem malformed_votes_certified : ¬ ∀ (c : Committee) (b : SessionBook),
    b.Admitted c 1 0 → ∀ ops : List VoteOp, (∀ v ∈ ops.filterMap VoteOp.vote, v.Verified c ∧
      b.byDigest.contains (Finality.sessionDigest v.signature.session) = true) →
    ∀ cert ∈ (VoteCollector.collect c ops).2, cert.verify 1 0 c b = true := by
  intro claim
  have made : (VoteCollector.collect soloCommittee [.add (timedVote 5 0)]).2 =
      [timedCertificate 5 0] := by decide
  have refused : ¬ (timedCertificate 5 0).verify 1 0 soloCommittee plainBook = true := by
    decide +kernel
  refine refused (claim soloCommittee plainBook plainBook_admitted [.add (timedVote 5 0)] ?_ _ ?_)
  · intro v hv
    have one : v = timedVote 5 0 := by simpa [VoteOp.vote] using hv
    subst one
    exact ⟨timedVote_verified 5 0, by decide +kernel⟩
  · rw [made]
    exact List.mem_singleton_self _

end Tenzro
