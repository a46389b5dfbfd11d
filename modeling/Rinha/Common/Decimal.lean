import Mathlib.Algebra.Group.Nat.Defs
import Mathlib.Data.Int.Notation
import Mathlib.Tactic.Ring
import Mathlib.Tactic.IntervalCases
import Rinha.Common.Text
/-!
# Decimal numerals

The numeral of a natural number, most significant digit first and with no
leading zero, and of an integer, with a minus sign in front. Reading a
numeral back gives the number.
-/

namespace Decimal

/-- The digit `d`. -/
def digit (d : ℕ) : UInt8 := UInt8.ofNat (48 + d)

/-- `'0' ≤ b ≤ '9'`. -/
def isDigit (b : UInt8) : Bool := 48 ≤ b && b ≤ 57

/-- The numeral of a natural number. -/
def ofNat (n : ℕ) : Bytes := (Nat.toDigits 10 n).map fun c => UInt8.ofNat c.toNat

/-- The numeral of an integer. -/
def ofInt (x : ℤ) : Bytes := if x < 0 then 45 :: ofNat x.natAbs else ofNat x.natAbs

/-- The number a string of digits denotes. -/
def value (ds : Bytes) : ℕ := ds.foldl (fun v b => v * 10 + (b.toNat - 48)) 0

theorem foldl_value (ds : Bytes) (v : ℕ) :
    ds.foldl (fun v b => v * 10 + (b.toNat - 48)) v = v * 10 ^ ds.length + value ds := by
  unfold value
  induction ds generalizing v with
  | nil => simp
  | cons b ds ih =>
      rw [List.foldl_cons, List.foldl_cons, ih, ih (0 * 10 + _), List.length_cons, pow_succ]
      ring

/-- The first digit has the highest place. -/
theorem value_cons (b : UInt8) (ds : Bytes) :
    value (b :: ds) = (b.toNat - 48) * 10 ^ ds.length + value ds := by
  rw [value, List.foldl_cons, foldl_value, Nat.zero_mul, Nat.zero_add]

theorem le_of_isDigit {b : UInt8} (h : isDigit b = true) : 48 ≤ b.toNat ∧ b.toNat ≤ 57 := by
  simpa [isDigit, UInt8.le_iff_toNat_le] using h

/-- Zero is written in zeros. -/
theorem value_eq_zero {ds : Bytes} (h : ∀ b ∈ ds, isDigit b = true) :
    value ds = 0 ↔ ∀ b ∈ ds, b = 48 := by
  induction ds with
  | nil => simp [value]
  | cons b ds ih =>
      have hb := le_of_isDigit (h b (by simp))
      have hzero : b.toNat - 48 = 0 ↔ b = 48 := by
        rw [← UInt8.toNat_inj, show (48 : UInt8).toNat = 48 from rfl]
        omega
      rw [value_cons, Nat.add_eq_zero_iff, Nat.mul_eq_zero, hzero,
        ih fun b hb => h b (by simp [hb])]
      simp

theorem digit_char {d : ℕ} (h : d < 10) : UInt8.ofNat (Nat.digitChar d).toNat = digit d := by
  interval_cases d <;> rfl

theorem isDigit_digit {d : ℕ} (h : d < 10) : isDigit (digit d) = true := by
  interval_cases d <;> rfl

theorem toNat_digit {d : ℕ} (h : d < 10) : (digit d).toNat - 48 = d := by
  interval_cases d <;> rfl

/-- The last digit comes off the end. -/
theorem ofNat_eq (n : ℕ) :
    ofNat n = (if n < 10 then [] else ofNat (n / 10)) ++ [digit (n % 10)] := by
  unfold ofNat
  rw [Nat.toDigits_eq_if (by omega)]
  split
  · simp [digit_char (show n < 10 by omega), Nat.mod_eq_of_lt (show n < 10 by omega)]
  · simp [digit_char (Nat.mod_lt n (show 0 < 10 by omega))]

theorem ofNat_ne_nil (n : ℕ) : ofNat n ≠ [] := by
  rw [ofNat_eq]
  simp

theorem ofInt_natCast (n : ℕ) : ofInt n = ofNat n := by
  rw [ofInt, if_neg (by omega), Int.natAbs_natCast]

/-- A numeral is all digits. -/
theorem isDigit_of_mem_ofNat {n : ℕ} : ∀ b ∈ ofNat n, isDigit b = true := by
  induction n using Nat.strong_induction_on with
  | _ n ih =>
      intro b hb
      rw [ofNat_eq, List.mem_append] at hb
      rcases hb with hb | hb
      · split at hb
        · cases hb
        · exact ih (n / 10) (by omega) b hb
      · rw [List.mem_singleton.mp hb]
        exact isDigit_digit (Nat.mod_lt n (by omega))

/-- **Reading a numeral back gives the number.** -/
theorem value_ofNat (n : ℕ) : value (ofNat n) = n := by
  induction n using Nat.strong_induction_on with
  | _ n ih =>
      rw [ofNat_eq, value, List.foldl_append]
      simp only [List.foldl_cons, List.foldl_nil, toNat_digit (Nat.mod_lt n (show 0 < 10 by omega))]
      split
      · simp only [List.foldl_nil]
        omega
      · have hdiv := ih (n / 10) (by omega)
        rw [value] at hdiv
        rw [hdiv]
        omega

/-- A number below `10 ^ k` has `k` digits at most. -/
theorem length_ofNat_le {n k : ℕ} (hk : 0 < k) (h : n < 10 ^ k) : (ofNat n).length ≤ k := by
  induction k generalizing n with
  | zero => omega
  | succ k ih =>
      rw [ofNat_eq]
      split
      · simp
      · rename_i hlarge
        have hpos : 0 < k := by
          by_contra hzero
          obtain rfl : k = 0 := by omega
          omega
        have hrest := ih hpos (n := n / 10) (by rw [pow_succ] at h; omega)
        simpa using hrest

/-- A numeral that begins with a zero is the numeral of zero. -/
theorem ofNat_of_head {n : ℕ} (h : (ofNat n).head? = some 48) : ofNat n = [48] := by
  induction n using Nat.strong_induction_on with
  | _ n ih =>
      rw [ofNat_eq] at h ⊢
      split at h
      · rename_i hlt
        rw [List.nil_append, List.head?_cons] at h
        rw [if_pos hlt, Option.some.inj h, List.nil_append]
      · rename_i hlt
        have hhead : (ofNat (n / 10)).head? = some 48 := by
          obtain ⟨b, ds, hcons⟩ := List.exists_cons_of_ne_nil (ofNat_ne_nil (n / 10))
          rw [hcons] at h ⊢
          exact h
        have hzero := congrArg value (ih (n / 10) (by omega) hhead)
        rw [value_ofNat] at hzero
        have hpos : n / 10 ≠ 0 := by omega
        exact absurd hzero hpos

end Decimal
