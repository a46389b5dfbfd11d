import Mathlib.Algebra.Group.Int.Defs
import Mathlib.Algebra.Group.Nat.Defs
import Mathlib.Tactic.Common
/-!
# Two's complement sums

Where the exact sum of two 32-bit integers fits it is their sum, and
where it does not they differ by exactly `2 ^ 32`.
-/

namespace SignedInt

/-- The exact value of a sum fits in 32 bits. -/
def Fits (x : ℤ) : Prop := -2 ^ 31 ≤ x ∧ x < 2 ^ 31

theorem toInt_add_of_fits {a b : Int32} (h : Fits (a.toInt + b.toInt)) :
    (a + b).toInt = a.toInt + b.toInt := by
  unfold Fits at h
  rw [Int32.toInt_add]
  exact Int.bmod_eq_of_le (by omega) (by omega)

/-- A sum past the top comes back in at the bottom. -/
theorem toInt_add_of_overflow {a b : Int32} (h : 2 ^ 31 ≤ a.toInt + b.toInt) :
    (a + b).toInt = a.toInt + b.toInt - 2 ^ 32 := by
  have ha := a.toInt_lt
  have hb := b.toInt_lt
  rw [Int32.toInt_add, ← Int.sub_bmod_right (a.toInt + b.toInt) (2 ^ 32)]
  exact Int.bmod_eq_of_le (by omega) (by omega)

/-- And one past the bottom at the top. -/
theorem toInt_add_of_underflow {a b : Int32} (h : a.toInt + b.toInt < -2 ^ 31) :
    (a + b).toInt = a.toInt + b.toInt + 2 ^ 32 := by
  have ha := a.le_toInt
  have hb := b.le_toInt
  rw [Int32.toInt_add, ← Int.add_bmod_right (a.toInt + b.toInt) (2 ^ 32)]
  exact Int.bmod_eq_of_le (by omega) (by omega)

end SignedInt
