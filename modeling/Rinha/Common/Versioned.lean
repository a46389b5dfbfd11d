import Mathlib.Algebra.Group.Int.Defs
import Mathlib.Algebra.Group.Nat.Defs
import Mathlib.Tactic.Common
/-!
# A value under a version counter

The pattern behind optimistic updates: a cell holds a value and a
counter, a writer reads both, computes a new value, and its write takes
effect only where the counter still has the value it read. The counter is
a 32-bit integer, so it tells two states of the cell apart as long as
fewer than `2 ^ 32` writes lie between them.
-/

/-- A value and the number of the write that put it there. -/
structure Versioned (δ : Type*) where
  data : δ
  version : Int32
  deriving DecidableEq

namespace Versioned

variable {δ ω : Type*} (apply : δ → ω → δ) (cell : Versioned δ)

/-- The cell after a history of operations, each applied to what the one
before left, and each one version on. -/
def after (ops : List ω) : Versioned δ :=
  ⟨ops.foldl apply cell.data, cell.version + Int32.ofNat ops.length⟩

@[simp] theorem after_data (ops : List ω) :
    (after apply cell ops).data = ops.foldl apply cell.data := rfl

@[simp] theorem after_nil : after apply cell ([] : List ω) = cell := by
  simp [after]

/-- One more operation is one more application and one more version. -/
theorem after_concat (ops : List ω) (op : ω) :
    after apply cell (ops ++ [op]) =
      ⟨apply (after apply cell ops).data op, (after apply cell ops).version + 1⟩ := by
  simp only [after, List.foldl_append, List.foldl_cons, List.foldl_nil, List.length_append,
    List.length_singleton, mk.injEq, true_and]
  rw [Int32.ofNat_add, Int32.add_assoc]
  rfl

/-- A write that takes effect is seen. -/
theorem succ_ne (version : Int32) : version + 1 ≠ version := by
  intro h
  have hone : version + 1 = version + 0 := by rw [h, Int32.add_zero]
  exact absurd (Int32.add_right_inj version |>.mp hone) (by decide)

/-- Below the counter's range a version names the length of the history. -/
theorem ofNat_injOn {m n : ℕ} (hm : m < 2 ^ 32) (hn : n < 2 ^ 32)
    (h : Int32.ofNat m = Int32.ofNat n) : m = n := by
  have hnat : m % 2 ^ 32 = n % 2 ^ 32 := congrArg (fun x => x.toBitVec.toNat) h
  rwa [Nat.mod_eq_of_lt hm, Nat.mod_eq_of_lt hn] at hnat

/-- **A version read is a place in the history.** If the cell after a
prefix of the history still carries the version of the cell now, the
prefix is the whole history. -/
theorem eq_length_of_version_eq {ops : List ω} {k : ℕ} (hk : k ≤ ops.length)
    (hfew : ops.length < 2 ^ 32)
    (h : (after apply cell ops).version = (after apply cell (ops.take k)).version) :
    k = ops.length := by
  simp only [after, List.length_take, Nat.min_eq_left hk] at h
  exact (ofNat_injOn hfew (by omega) (Int32.add_right_inj _ |>.mp h)).symm

/-- Where the counter does not overflow, the version is an exact count. -/
theorem toInt_after_version (ops : List ω)
    (h : cell.version.toInt + ops.length < 2 ^ 31) :
    (after apply cell ops).version.toInt = cell.version.toInt + ops.length := by
  have hlo := cell.version.le_toInt
  rw [after, Int32.toInt_add, Int32.toInt_ofNat', Int.add_bmod_bmod]
  have hsize : Int32.size = 2 ^ 32 := rfl
  exact Int.bmod_eq_of_le (by omega) (by omega)

end Versioned
