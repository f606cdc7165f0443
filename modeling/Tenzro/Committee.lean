import Tenzro.SortedMap
import Tenzro.WeightedQuorum

set_option autoImplicit false
set_option linter.dupNamespace false

/-!
# The committee of one epoch and its thresholds

Stake enters every quorum as seats. The thresholds are those of the finality
crate; a committee that `from_members` would refuse cannot be built.
-/
namespace Tenzro
open WeightedQuorum

abbrev ValidatorIndex := ℕ
abbrev Digest := ℕ

structure Member where
  address : ℕ
  publicKey : ℕ
  stake : ℕ
  seats : ℕ
deriving DecidableEq

def maxTotalSeats : ℕ := 4294967295

structure Committee where
  epoch : ℕ
  members : List Member
  nonempty : members ≠ []
  small : members.length ≤ 65535
  distinctKeys : (members.map Member.publicKey).Nodup
  distinctAddresses : (members.map Member.address).Nodup
  seated : ∀ m ∈ members, 0 < m.seats
  bounded : (members.map Member.seats).sum ≤ maxTotalSeats

namespace Committee

def fromMembers (epoch : ℕ) (members : List Member) : Except String Committee :=
  if hsize : members ≠ [] ∧ members.length ≤ 65535 then
    if hdistinct : (members.map Member.publicKey).Nodup ∧ (members.map Member.address).Nodup then
      if hseated : ∀ m ∈ members, 0 < m.seats then
        if hbounded : (members.map Member.seats).sum ≤ maxTotalSeats then
          .ok ⟨epoch, members, hsize.1, hsize.2, hdistinct.1, hdistinct.2, hseated, hbounded⟩
        else .error "a committee holds at most 4294967295 seats in all"
      else .error "every member holds at least one seat"
    else .error "two members share a key or an address"
  else .error s!"a committee holds 1 to 65535 members, got {members.length}"

def size (c : Committee) : ℕ := c.members.length

def member (c : Committee) (i : ValidatorIndex) : Option Member := c.members[i]?

def seats (c : Committee) (i : ValidatorIndex) : ℕ := ((c.member i).map Member.seats).getD 0

def totalSeats (c : Committee) : ℕ := (c.members.map Member.seats).sum

def maxFaulty (c : Committee) : ℕ := (c.totalSeats - 1) / 3

def quorum (c : Committee) : ℕ := c.totalSeats - c.maxFaulty

def validity (c : Committee) : ℕ := c.maxFaulty + 1

def readyDelivery (c : Committee) : ℕ := 2 * c.maxFaulty + 1

def rbcVoteThreshold (c : Committee) : ℕ := (c.totalSeats + 1) / 2

def rbcAckThreshold (c : Committee) : ℕ := (c.totalSeats + c.maxFaulty - 1 + 1) / 2

def rbcFastThreshold (c : Committee) : ℕ := (c.totalSeats + 2 * c.maxFaulty - 2 + 1) / 2

def nonBroadcasterWeight (c : Committee) (sender broadcaster : ValidatorIndex) : ℕ :=
  if sender = broadcaster then c.seats sender - 1 else c.seats sender

variable (c : Committee)

def indices : Finset ValidatorIndex := Finset.range c.size

theorem mem_indices {i : ValidatorIndex} : i ∈ c.indices ↔ (c.member i).isSome := by
  simp [indices, member, size]

theorem member_isSome {i : ValidatorIndex} : (c.member i).isSome ↔ i < c.size := by
  simp [member, size]

theorem seats_pos {i : ValidatorIndex} (h : i ∈ c.indices) : 0 < c.seats i := by
  rw [mem_indices, Option.isSome_iff_exists] at h
  obtain ⟨m, hm⟩ := h
  simpa [seats, hm] using c.seated m (List.mem_of_getElem? hm)

theorem weight_indices : weight c.seats c.indices = c.totalSeats := by
  have h : ∀ l : List Member,
      ∑ i ∈ Finset.range l.length, ((l[i]?).map Member.seats).getD 0 = (l.map Member.seats).sum := by
    intro l
    induction l with
    | nil => rfl
    | cons m l ih =>
      rw [List.length_cons, Finset.sum_range_succ']
      simp [ih, Nat.add_comm]
  exact h c.members

theorem totalSeats_pos : 0 < c.totalSeats := by
  have h0 : (0 : ℕ) ∈ c.indices := by
    simpa [indices, size] using List.length_pos_iff.2 c.nonempty
  have hle : c.seats 0 ≤ weight c.seats c.indices :=
    Finset.single_le_sum (fun _ _ => Nat.zero_le _) h0
  rw [weight_indices] at hle
  exact lt_of_lt_of_le (c.seats_pos h0) hle

theorem nonBroadcasterWeight_le (i a : ValidatorIndex) :
    c.nonBroadcasterWeight i a ≤ c.seats i := by
  unfold nonBroadcasterWeight
  split_ifs <;> omega

theorem weight_nonBroadcaster {A : Finset ValidatorIndex} {a : ValidatorIndex}
    (hA : a ∈ A) (ha : a ∈ c.indices) :
    weight (c.nonBroadcasterWeight · a) A + 1 = weight c.seats A := by
  have hpos := c.seats_pos ha
  have hrest : ∑ i ∈ A.erase a, c.nonBroadcasterWeight i a = ∑ i ∈ A.erase a, c.seats i :=
    Finset.sum_congr rfl (fun i hi => if_neg (Finset.ne_of_mem_erase hi))
  have hw : weight (c.nonBroadcasterWeight · a) A =
      c.nonBroadcasterWeight a a + ∑ i ∈ A.erase a, c.nonBroadcasterWeight i a :=
    (Finset.add_sum_erase A _ hA).symm
  have hs : weight c.seats A = c.seats a + ∑ i ∈ A.erase a, c.seats i :=
    (Finset.add_sum_erase A _ hA).symm
  have hself : c.nonBroadcasterWeight a a = c.seats a - 1 := if_pos rfl
  omega

theorem quorum_overlap : c.totalSeats + c.maxFaulty < 2 * c.quorum := by
  have := c.totalSeats_pos
  unfold quorum maxFaulty
  omega

end Committee

/-- A set of validators counted by seats. -/
structure SeatSet where
  bits : SortedMap ValidatorIndex Unit
  weight : ℕ

namespace SeatSet

def empty : SeatSet := ⟨.empty, 0⟩

instance : Inhabited SeatSet := ⟨empty⟩

def contains (s : SeatSet) (i : ValidatorIndex) : Bool := s.bits.contains i

def insert (s : SeatSet) (i : ValidatorIndex) (seats : ℕ) : SeatSet × Bool :=
  if s.contains i then (s, false) else (⟨s.bits.insert i (), s.weight + seats⟩, true)

def toList (s : SeatSet) : List ValidatorIndex := s.bits.keys

end SeatSet

end Tenzro
