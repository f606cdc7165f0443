import Tenzro.Books
import Tenzro.Staking

set_option autoImplicit false

/-!
# The native coin

TNZO moves in the map of balances, which addresses name through the account they resolve to. A
move debits the source before it reads the destination, so one within an account changes nothing.
-/
namespace Tenzro.NativeBalance
open FixedWidth Outcome Function
open Staking (VmError checkedAdd checkedSub)
open Book (SumsTo)

/-- The account an address's balance is kept under. -/
class AccountNames where
  account : Bytes → Bytes

section
variable [AccountNames] (b : Bytes → ℕ)

def balanceOf (addr : Bytes) : ℕ := b (AccountNames.account addr)

def setBalance (addr : Bytes) (v : ℕ) : Bytes → ℕ :=
  update b (AccountNames.account addr) v

def moveTnzo (source dest : Bytes) (amount : ℕ) : Except VmError (Bytes → ℕ) :=
  if amount = 0 then .ok b
  else do
    let left ← checkedSub (balanceOf b source) amount
      (.insufficientBalance amount (balanceOf b source))
    let b := setBalance b source left
    let after ← checkedAdd (balanceOf b dest) amount (.internal "balance overflow")
    return setBalance b dest after

end

def moved (b : Bytes → ℕ) (source dest : Bytes) (n : ℕ) : Bytes → ℕ :=
  let debited := update b source (b source - n)
  update debited dest (debited dest + n)

section
variable {b : Bytes → ℕ} {source dest a : Bytes} {n total : ℕ}

theorem moved_zero : moved b source dest 0 = b := by
  simp [moved]

theorem moved_dest (other : dest ≠ source) : moved b source dest n dest = b dest + n := by
  unfold moved
  rw [update_self, update_of_ne other]

theorem moved_source (other : dest ≠ source) : moved b source dest n source = b source - n := by
  unfold moved
  rw [update_of_ne (Ne.symm other), update_self]

theorem moved_of_ne (source_ne : a ≠ source) (dest_ne : a ≠ dest) :
    moved b source dest n a = b a := by
  unfold moved
  rw [update_of_ne dest_ne, update_of_ne source_ne]

theorem moved_self (enough : n ≤ b source) : moved b source source n = b := by
  unfold moved
  simp only [update_self, update_idem, Nat.sub_add_cancel enough]
  exact update_eq_self source b

theorem le_moved (source_ne : a ≠ source) : b a ≤ moved b source dest n a := by
  unfold moved
  by_cases same : a = dest
  · subst same
    rw [update_self, update_of_ne source_ne]
    exact Nat.le_add_right _ _
  · rw [update_of_ne same, update_of_ne source_ne]

theorem sumsTo_moved (sums : SumsTo b total) (enough : n ≤ b source) :
    SumsTo (moved b source dest n) total := by
  have within := sums.le source
  have debited : SumsTo (update b source (b source - n)) (total - n) :=
    sums.update (by omega)
  exact debited.update (by omega)

variable [AccountNames]

theorem moveTnzo_ok {b' : Bytes → ℕ} (ran : moveTnzo b source dest n = .ok b') :
    n ≤ balanceOf b source ∧
      b' = moved b (AccountNames.account source) (AccountNames.account dest) n := by
  unfold moveTnzo at ran
  split_ifs at ran with nothing
  · rw [nothing, moved_zero]
    exact ⟨Nat.zero_le _, (Except.ok.inj ran).symm⟩
  · obtain ⟨left, paid, ran⟩ := bind_ok.1 ran
    obtain ⟨after, received, ran⟩ := bind_ok.1 ran
    obtain rfl := pure_ok.1 ran
    unfold checkedSub at paid
    unfold checkedAdd at received
    split_ifs at paid with enough
    split_ifs at received
    rw [← Except.ok.inj paid] at received ⊢
    rw [← Except.ok.inj received]
    exact ⟨enough, rfl⟩

/-- While the supply fits its width, a move goes through exactly when the source covers it. -/
theorem moveTnzo_eq (sums : SumsTo b total) (fits : total ≤ maxValue 128)
    (enough : n ≤ balanceOf b source) : moveTnzo b source dest n =
      .ok (moved b (AccountNames.account source) (AccountNames.account dest) n) := by
  unfold moveTnzo
  split_ifs with nothing
  · rw [nothing, moved_zero]
  · have within := sums.le (AccountNames.account source)
    have debited : SumsTo (setBalance b source (balanceOf b source - n)) (total - n) :=
      sums.update (show total - n + b (AccountNames.account source) =
        total + (balanceOf b source - n) by unfold balanceOf at enough ⊢; omega)
    have held := debited.le (AccountNames.account dest)
    have room : balanceOf (setBalance b source (balanceOf b source - n)) dest + n ≤
        maxValue 128 := by
      unfold balanceOf at enough held ⊢
      omega
    rw [checkedSub, if_pos enough]
    change (checkedAdd _ _ _ >>= _) = _
    rw [checkedAdd, if_pos room]
    rfl

end

end Tenzro.NativeBalance
