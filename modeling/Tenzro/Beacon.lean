import Tenzro.BinarySearch
import Tenzro.ProofVerifiers
import Tenzro.RateQuotes

set_option autoImplicit false
set_option linter.dupNamespace false

/-!
# The randomness beacon

Bonded validators extend a chain of hashes with outputs of a verifiable random
function, kept with the block time each was taken at.
-/
namespace Tenzro.Beacon
open ByteCodec FixedWidth Outcome Function
open Staking (VmError refuse bump)
open ProofVerifiers (Fixed Word SchemeHash sha utf8)
open Bisection (firstTrue)

def proofLen : ℕ := 80

/-- The verifiable random function: the output a proof gives under a key on an input. -/
class Vrf where
  verify : Word → Bytes → Fixed proofLen → Except String (Fixed 64)

structure BeaconCommitment where
  commitment : String
  index : ℕ
deriving DecidableEq, Repr

structure BeaconEntry where
  round : ℕ
  mix : String
  atMs : ℤ
  contributor : String
deriving DecidableEq, Repr

structure BeaconHead where
  round : ℕ
  mix : String
deriving DecidableEq, Repr

structure BeaconContribution where
  round : ℕ
  proof : String
deriving DecidableEq, Repr

def minContributionIntervalMs : ℤ := 60000

structure BeaconState where
  head : Option BeaconHead
  entries : ℕ → Option BeaconEntry
  last : Bytes → Option ℤ
  commitments : Bytes → Option BeaconCommitment

/-- What a contribution reads besides the records. -/
structure BeaconView where
  validatorStake : ℕ
  bonded : Bytes → ℕ
  vrfKey : Bytes → Option Word
  commitReveal : Bool
  nowMs : ℤ

/-! ### Bytes -/

def toFixed (n : ℕ) (b : Bytes) : Option (Fixed n) := if h : b.length = n then some ⟨b, h⟩ else none

def decodeWord (s : String) : Option Word := (Rates.hexDecode s.toList).bind (toFixed 32)

def alpha (round : ℕ) (mix : Word) : Bytes :=
  utf8 "tenzro/beacon/alpha" ++ beBytes 8 round ++ mix.val

section
variable [SchemeHash]

def commitmentTo (addr : Bytes) (secret : Word) : Word :=
  sha (utf8 "tenzro/beacon/commitment" ++ leBytes 4 addr.length ++ addr ++ secret.val)

def genesisMix : Word := sha (utf8 "tenzro/beacon/genesis")

def nextMix (mix : Word) (output : Fixed 64) (reveal : Option Word) : Word :=
  sha (utf8 "tenzro/beacon/mix" ++ mix.val ++ output.val ++
    reveal.elim [] fun r => utf8 "tenzro/beacon/reveal" ++ r.val)

def mixBytes (head : BeaconHead) : Word := (decodeWord head.mix).getD genesisMix

end

def entryMix (entry : BeaconEntry) : Option Word := decodeWord entry.mix

def contributionProof (vrfProof : Fixed proofLen) (commitment reveal : Option Word) : Bytes :=
  vrfProof.val ++ commitment.elim [] fun c => c.val ++ reveal.elim [] Subtype.val

def secretsIn (commitReveal : Bool) (bytes : Bytes) :
    Except VmError (Option Word × Option Word) :=
  if commitReveal then
    if bytes.length = proofLen + 32 then .ok (toFixed 32 (bytes.drop proofLen), none)
    else if bytes.length = proofLen + 64 then
      .ok (toFixed 32 ((bytes.drop proofLen).take 32), toFixed 32 (bytes.drop (proofLen + 32)))
    else refuse "a contribution commits to its next secret after the VRF proof"
  else if bytes.length = proofLen then .ok (none, none)
  else refuse "the proof is not a VRF proof"

def dueFrom (last : ℤ) : ℤ := min (last + minContributionIntervalMs) (2 ^ 63 - 1)

namespace BeaconState
variable (s : BeaconState)

variable [SchemeHash]

def readHead : BeaconHead := s.head.getD ⟨0, hexEncode genesisMix.val⟩

def firstAtOrAfter (atMs : ℤ) : Option BeaconEntry :=
  let rounds := s.readHead.round
  let lo := firstTrue (fun mid => (s.entries mid).any fun e => atMs ≤ e.atMs) 0 rounds
  if lo < rounds then s.entries lo else none

def requireInterval (nowMs : ℤ) (sender : Bytes) : Except VmError Unit :=
  match s.last sender with
  | none => .ok ()
  | some last =>
    if nowMs < dueFrom last then
      refuse (s!"this validator contributed at {last}; " ++
        s!"the next contribution is due from {dueFrom last}")
    else .ok ()

/-- What a contribution must reveal is what the last one of its validator committed to. -/
def checkReveal (sender : Bytes) (reveal : Option Word) : Except VmError Unit :=
  match s.commitments sender, reveal with
  | some h, some r =>
    if hexEncode (commitmentTo sender r).val = h.commitment then .ok ()
    else refuse "the revealed secret is not the one this validator committed to"
  | some _, none => refuse "this validator must reveal the secret it committed to"
  | none, some _ => refuse "this validator committed to no secret"
  | none, none => .ok ()

def commit (sender : Bytes) :
    Option Word → Except VmError (Bytes → Option BeaconCommitment)
  | none => .ok s.commitments
  | some c => do
    let index ← (s.commitments sender).elim (.ok 0) fun h => bump h.index
    return update s.commitments sender (some ⟨hexEncode c.val, index⟩)

def record (nowMs : ℤ) (sender : Bytes) (commitment : Option Word) (next : Word) :
    Except VmError (BeaconState × BeaconEntry) := do
  let commitments ← s.commit sender commitment
  let entry : BeaconEntry := ⟨s.readHead.round, hexEncode next.val, nowMs, hexEncode sender⟩
  let round ← bump s.readHead.round
  return (⟨some ⟨round, entry.mix⟩, update s.entries s.readHead.round (some entry),
    update s.last sender (some nowMs), commitments⟩, entry)

def contribute [Vrf] (view : BeaconView) (sender : Bytes)
    (payload : Except String BeaconContribution) : Except VmError (BeaconState × BeaconEntry) := do
  let c ← payload.mapError
    (fun e => VmError.invalidTransaction s!"Invalid beacon contribution: {e}")
  ensure (max view.validatorStake 1 ≤ view.bonded sender) (VmError.invalidTransaction
    ("only accounts with at least a validator's stake of " ++
      s!"{view.validatorStake} contribute to the beacon"))
  let head := s.readHead
  ensure (c.round = head.round) (VmError.invalidTransaction
    s!"the beacon is at round {head.round}, not {c.round}")
  s.requireInterval view.nowMs sender
  let key ← (view.vrfKey sender).elim (refuse "no VRF key is registered for this validator") .ok
  let bytes ← (Rates.hexDecode c.proof.toList).elim (refuse "the proof is not hex") .ok
  let (commitment, reveal) ← secretsIn view.commitReveal bytes
  let proof ← (toFixed proofLen (bytes.take (min proofLen bytes.length))).elim
    (refuse "the proof is not a VRF proof") .ok
  s.checkReveal sender reveal
  let mix := mixBytes head
  let output ← (Vrf.verify key (alpha head.round mix) proof).mapError
    (fun e => VmError.invalidTransaction
      s!"the VRF proof does not verify under the registered VRF key: {e}")
  s.record view.nowMs sender commitment (nextMix mix output reveal)

end BeaconState

end Tenzro.Beacon
