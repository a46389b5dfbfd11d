import Rinha.Common.Json
import Rinha.Server.Model.RequestProcessor
/-!
# What the prebuilt response says

`BuildTransactionResponse` blanks two windows of its buffer and writes a
number into each from the right. The windows are blank at the start, so
blanking them brings the initial buffer back (`setBlank_windows`), and a
response is the initial buffer with the numerals of one customer at the
ends of its windows, whatever was in them before.
-/

namespace Rinha

open Json

variable {str : Vector UInt8 kResultSize} {number : Int32} {customer : Customer}
variable {a w c : Bytes} {x : UInt8} {i : ℕ}

/-! ## A number -/

theorem toList_setIfInBounds (h : str.toList = a ++ x :: c) (b : UInt8) :
    (str.setIfInBounds a.length b).toList = a ++ b :: c := by
  rw [Vector.toList_setIfInBounds, h, List.set_append_right _ _ (le_refl _), Nat.sub_self,
    List.set_cons_zero]

/-- The digits that are written of a number: none unless it is positive. -/
def digitsOf (number : Int32) : Bytes :=
  if number > 0 then Decimal.ofNat number.toInt.toNat else []

/-- The byte of the last digit. -/
theorem toUInt8_lastDigit (h : 0 < number.toInt) :
    (number % 10 + 48).toInt8.toUInt8 = Decimal.digit (number.toInt.toNat % 10) := by
  have hmod : (number % 10).toInt = number.toInt % 10 := by
    rw [Int32.toInt_mod, show (10 : Int32).toInt = 10 from rfl,
      Int.tmod_eq_emod_of_nonneg (by omega)]
  have hlt : number.toInt.toNat % 10 < 10 := Nat.mod_lt _ (by decide)
  have hrem : number % 10 = Int32.ofNat (number.toInt.toNat % 10) := by
    refine Int32.toInt_inj.mp ?_
    rw [hmod, Int32.toInt_ofNat_of_lt (by omega)]
    omega
  rw [hrem]
  generalize number.toInt.toNat % 10 = d at hlt
  interval_cases d <;> rfl

theorem digitsOf_eq (h : number > 0) :
    digitsOf number = digitsOf (number / 10) ++ [Decimal.digit (number.toInt.toNat % 10)] := by
  have h0 : (0 : Int32).toInt = 0 := rfl
  have hpos := h
  rw [gt_iff_lt, Int32.lt_iff_toInt_lt, h0] at hpos
  have hdiv := toInt_div_ten hpos
  rw [digitsOf, if_pos h, Decimal.ofNat_eq, digitsOf]
  congr 1
  by_cases hsmall : number.toInt.toNat < 10
  · rw [if_pos hsmall, if_neg]
    rw [gt_iff_lt, Int32.lt_iff_toInt_lt, h0]
    omega
  · rw [if_neg hsmall, if_pos, hdiv]
    · congr 1
      omega
    · rw [gt_iff_lt, Int32.lt_iff_toInt_lt, h0]
      omega

/-- **The digits of a number** stand at the end of the room there is. -/
theorem toList_writeDigits (h : str.toList = a ++ w ++ c) (hi : a.length + w.length = i)
    (hfits : (digitsOf number).length ≤ w.length) :
    (writeDigits i number str).1.toList =
        a ++ (w.take (w.length - (digitsOf number).length) ++ digitsOf number) ++ c ∧
      (writeDigits i number str).2 = i - (digitsOf number).length := by
  induction i generalizing number str w c with
  | zero =>
      obtain rfl : w = [] := List.eq_nil_of_length_eq_zero (by omega)
      have hnil : digitsOf number = [] := List.eq_nil_of_length_eq_zero (by simpa using hfits)
      rw [writeDigits, hnil]
      exact ⟨by simpa using h, rfl⟩
  | succ i ih =>
      rw [writeDigits]
      split
      · rename_i hpos
        have hdigits := digitsOf_eq hpos
        have hpos' := hpos
        rw [gt_iff_lt, Int32.lt_iff_toInt_lt, show (0 : Int32).toInt = 0 from rfl] at hpos'
        rw [hdigits, List.length_append, List.length_singleton] at hfits ⊢
        -- the digit goes into the last place of the room
        rcases List.eq_nil_or_concat w with rfl | ⟨w, x, rfl⟩
        · simp at hfits
        rw [List.concat_eq_append] at *
        have hlen : (a ++ w).length = i := by
          simp only [List.length_append, List.length_singleton] at hi ⊢
          omega
        have hset : (str.setIfInBounds i (number % 10 + 48).toInt8.toUInt8).toList =
            a ++ w ++ Decimal.digit (number.toInt.toNat % 10) :: c := by
          rw [← toUInt8_lastDigit hpos', ← hlen]
          exact toList_setIfInBounds (x := x) (by simpa using h) _
        have hfits' : (digitsOf (number / 10)).length ≤ w.length := by simpa using hfits
        obtain ⟨hlist, hend⟩ := ih hset (by simpa using hlen) hfits'
        refine ⟨?_, by rw [hend]; omega⟩
        rw [hlist, List.length_append, List.length_singleton,
          show w.length + 1 - ((digitsOf (number / 10)).length + 1) =
            w.length - (digitsOf (number / 10)).length by omega,
          List.take_append_of_le_length (Nat.sub_le _ _)]
        simp
      · rename_i hstop
        rw [digitsOf, if_neg hstop]
        exact ⟨by simpa using h, rfl⟩

theorem toNat_neg_toInt (h : number < 0) (hmin : number ≠ Int32.minValue) :
    0 < (-number).toInt ∧ (-number).toInt.toNat = number.toInt.natAbs := by
  have hneg := h
  rw [Int32.lt_iff_toInt_lt, show (0 : Int32).toInt = 0 from rfl] at hneg
  have hle := number.le_toInt
  have hne : number.toInt ≠ -2 ^ 31 := fun heq => hmin (Int32.toInt_inj.mp heq)
  rw [Int32.toInt_neg, Int.bmod_eq_of_le (by omega) (by omega)]
  omega

theorem take_blanks (k n : ℕ) :
    (List.replicate k (32 : UInt8)).take (k - n) = List.replicate (k - n) 32 := by
  rw [List.take_replicate, Nat.min_eq_left (Nat.sub_le _ _)]

/-- The numeral of 0 is the last blank turned into a zero. -/
theorem toList_writeNumberToString_zero {k : ℕ} (hk : 1 ≤ k)
    (h : str.toList = a ++ List.replicate k 32 ++ c) (hi : a.length + k = i + 1) :
    (writeNumberToString 0 str i).toList = a ++ (List.replicate (k - 1) 32 ++ [48]) ++ c := by
  -- a positive number has a digit
  obtain ⟨k, rfl⟩ : ∃ k', k = k' + 1 := ⟨k - 1, by omega⟩
  have hlen : (a ++ List.replicate k (32 : UInt8)).length = i := by
    simp only [List.length_append, List.length_replicate]
    omega
  rw [List.replicate_succ'] at h
  rw [writeNumberToString, if_pos rfl, Nat.add_sub_cancel, ← hlen,
    toList_setIfInBounds (x := 32) (c := c) (by simpa using h)]
  simp

/-- That of a negative number is its digits, and the sign in the last blank
before them. -/
theorem toList_writeNumberToString_neg {k : ℕ} (hneg : number < 0)
    (h : str.toList = a ++ List.replicate k 32 ++ c) (hi : a.length + k = i + 1)
    (hfits : (digitsOf (-number)).length < k) :
    (writeNumberToString number str i).toList =
      a ++ (List.replicate (k - ((digitsOf (-number)).length + 1)) 32 ++
        45 :: digitsOf (-number)) ++ c := by
  have hzero : number ≠ 0 := by
    rintro rfl
    exact absurd hneg (by decide)
  have hk : (List.replicate k (32 : UInt8)).length = k := List.length_replicate
  obtain ⟨hlist, hend⟩ := toList_writeDigits h
    (show a.length + (List.replicate k (32 : UInt8)).length = i + 1 by rw [hk, hi])
    (show (digitsOf (-number)).length ≤ _ by rw [hk]; exact Nat.le_of_lt hfits)
  rw [hk, take_blanks] at hlist
  obtain ⟨n, hn⟩ : ∃ n, k - (digitsOf (-number)).length = n + 1 :=
    ⟨k - (digitsOf (-number)).length - 1, by omega⟩
  rw [hn, List.replicate_succ'] at hlist
  have hlen : (a ++ List.replicate n (32 : UInt8)).length =
      (writeDigits (i + 1) (-number) str).2 - 1 := by
    rw [hend, List.length_append, List.length_replicate]
    omega
  rw [writeNumberToString, if_neg hzero, if_pos hneg]
  change (Vector.setIfInBounds _ ((writeDigits (i + 1) (-number) str).2 - 1) 45).toList = _
  rw [← hlen, toList_setIfInBounds (x := 32) (c := digitsOf (-number) ++ c)
    (by simpa using hlist), show k - ((digitsOf (-number)).length + 1) = n by omega]
  simp

/-- And that of a positive one its digits. -/
theorem toList_writeNumberToString_pos {k : ℕ} (hpos : 0 < number.toInt)
    (h : str.toList = a ++ List.replicate k 32 ++ c) (hi : a.length + k = i + 1)
    (hfits : (digitsOf number).length ≤ k) :
    (writeNumberToString number str i).toList =
      a ++ (List.replicate (k - (digitsOf number).length) 32 ++ digitsOf number) ++ c := by
  have h0 : (0 : Int32).toInt = 0 := rfl
  have hzero : number ≠ 0 := by
    rintro rfl
    omega
  have hneg : ¬number < 0 := by
    rw [Int32.lt_iff_toInt_lt, h0]
    omega
  have hk : (List.replicate k (32 : UInt8)).length = k := List.length_replicate
  obtain ⟨hlist, -⟩ := toList_writeDigits h
    (show a.length + (List.replicate k (32 : UInt8)).length = i + 1 by rw [hk, hi])
    (show (digitsOf number).length ≤ _ by rwa [hk])
  rw [hk, take_blanks] at hlist
  rw [writeNumberToString, if_neg hzero, if_neg hneg]
  exact hlist

/-- **`WriteNumberToString`** puts the numeral at the end of the blanks. -/
theorem toList_writeNumberToString {k : ℕ} (hmin : number ≠ Int32.minValue)
    (h : str.toList = a ++ List.replicate k 32 ++ c) (hi : a.length + k = i + 1)
    (hfits : (Decimal.ofInt number.toInt).length ≤ k) :
    (writeNumberToString number str i).toList =
      a ++ (List.replicate (k - (Decimal.ofInt number.toInt).length) 32 ++
        Decimal.ofInt number.toInt) ++ c := by
  have h0 : (0 : Int32).toInt = 0 := rfl
  -- the branches of the function, by the sign
  rcases Int.lt_trichotomy number.toInt 0 with hint | hint | hint
  · have hneg : number < 0 := by rwa [Int32.lt_iff_toInt_lt, h0]
    obtain ⟨hpos, habs⟩ := toNat_neg_toInt hneg hmin
    have hdigits : digitsOf (-number) = Decimal.ofNat number.toInt.natAbs := by
      rw [digitsOf, if_pos (by rwa [gt_iff_lt, Int32.lt_iff_toInt_lt, h0]), habs]
    have hnumeral : Decimal.ofInt number.toInt = 45 :: digitsOf (-number) := by
      rw [Decimal.ofInt, if_pos hint, hdigits]
    rw [hnumeral, List.length_cons] at hfits ⊢
    exact toList_writeNumberToString_neg hneg h hi hfits
  · obtain rfl : number = 0 := Int32.toInt_inj.mp (hint.trans h0.symm)
    have hone : Decimal.ofInt (0 : Int32).toInt = [48] := rfl
    rw [hone] at hfits ⊢
    exact toList_writeNumberToString_zero hfits h hi
  · have hnumeral : Decimal.ofInt number.toInt = digitsOf number := by
      rw [digitsOf, if_pos (by rwa [gt_iff_lt, Int32.lt_iff_toInt_lt, h0]), ← Decimal.ofInt_natCast,
        Int.toNat_of_nonneg (Int.le_of_lt hint)]
    rw [hnumeral] at hfits ⊢
    exact toList_writeNumberToString_pos hint h hi hfits

/-! ## The response -/

/-- A numeral of an `int` has eleven bytes at most. -/
theorem length_ofInt_le (number : Int32) : (Decimal.ofInt number.toInt).length ≤ 11 := by
  have hle := number.le_toInt
  have hlt := number.toInt_lt
  have hdigits : (Decimal.ofNat number.toInt.natAbs).length ≤ 10 :=
    Decimal.length_ofNat_le (by decide) (by omega)
  unfold Decimal.ofInt
  split
  · rw [List.length_cons]
    omega
  · omega

/-- The windows are blank at the start. -/
theorem get_prebuilt (i : Fin kResultSize) (hi : InWindow i) : prebuilt.get i = 32 := by
  have hget : ∀ i : Fin kResultSize, InWindow i → kPrebuilt.getD i 0 = 32 := by
    unfold InWindow
    decide +kernel
  change prebuilt[i.val] = 32
  rw [prebuilt, Vector.getElem_ofFn]
  exact hget i hi

/-- **Blanking the windows brings the initial buffer back.** -/
theorem setBlank_windows (h : AgreesOutside InWindow prebuilt str) :
    setBlank (setBlank str kLimiteBeginIdx (kLimiteEndIdx - kLimiteBeginIdx + 1))
      kSaldoBeginIdx (kSaldoEndIdx - kSaldoBeginIdx + 1) = prebuilt := by
  refine Vector.ext fun i hi => ?_
  simp only [getElem_setBlank hi, kLimiteBeginIdx, kLimiteEndIdx, kSaldoBeginIdx, kSaldoEndIdx]
  split
  · rename_i hsaldo
    refine (get_prebuilt ⟨i, hi⟩ (.inr ?_)).symm
    simp only [kSaldoBeginIdx, kSaldoEndIdx]
    omega
  · rename_i hsaldo
    split
    · rename_i hlimite
      refine (get_prebuilt ⟨i, hi⟩ (.inl ?_)).symm
      simp only [kLimiteBeginIdx, kLimiteEndIdx]
      omega
    · rename_i hlimite
      refine h i hi ?_
      simp only [InWindow, kLimiteBeginIdx, kLimiteEndIdx, kSaldoBeginIdx, kSaldoEndIdx]
      omega

/-- A numeral at the end of its window. -/
def window (k : ℕ) (number : Int32) : Bytes :=
  List.replicate (k - (Decimal.ofInt number.toInt).length) 32 ++ Decimal.ofInt number.toInt

theorem length_window {k : ℕ} (hk : 11 ≤ k) (number : Int32) : (window k number).length = k := by
  have := length_ofInt_le number
  rw [window, List.length_append, List.length_replicate]
  omega

/-- The body of a response. -/
def resultBody (customer : Customer) : Bytes :=
  Text.bytes "\x7b\"limite\":" ++ window 20 customer.limit ++ Text.bytes ", \"saldo\":" ++
    window 21 customer.balance ++ Text.bytes "\x7d"

theorem length_resultBody (customer : Customer) : (resultBody customer).length = 62 := by
  simp only [resultBody, List.length_append, length_window (show 11 ≤ 20 by decide),
    length_window (show 11 ≤ 21 by decide)]
  rfl

/-- **What `BuildTransactionResponse` leaves in its buffer**, whatever earlier
calls wrote. -/
theorem toList_buildTransactionResponse (h : AgreesOutside InWindow prebuilt str)
    (hlimit : customer.limit ≠ Int32.minValue) (hbalance : customer.balance ≠ Int32.minValue) :
    (buildTransactionResponse str customer).toList =
      kOkHeader ++ Decimal.ofNat 62 ++ Text.crlf2 ++ resultBody customer ++
        List.replicate 7 0 := by
  have hstart : prebuilt.toList = (kOkHeader ++ Decimal.ofNat 62 ++ Text.crlf2 ++
      Text.bytes "\x7b\"limite\":") ++ List.replicate 20 32 ++ (Text.bytes ", \"saldo\":" ++
        List.replicate 21 32 ++ Text.bytes "\x7d" ++ List.replicate 7 0) := by decide +kernel
  have hlimite := toList_writeNumberToString (i := kLimiteEndIdx) hlimit hstart (by decide)
    (Nat.le_trans (length_ofInt_le _) (by decide))
  rw [← window] at hlimite
  have hlen : ((kOkHeader ++ Decimal.ofNat 62 ++ Text.crlf2 ++ Text.bytes "\x7b\"limite\":") ++
      window 20 customer.limit ++ Text.bytes ", \"saldo\":").length + 21 = kSaldoEndIdx + 1 := by
    rw [List.length_append, List.length_append, length_window (by decide)]
    decide
  -- the limit stayed in its window, so the other one is blank still
  have hsaldo := toList_writeNumberToString (c := Text.bytes "\x7d" ++ List.replicate 7 0) hbalance
    (hlimite.trans (by simp only [List.append_assoc])) hlen
    (Nat.le_trans (length_ofInt_le _) (by decide))
  simp only [buildTransactionResponse, setBlank_windows h]
  rw [hsaldo, ← window, resultBody]
  simp only [List.append_assoc]

theorem all_isPlain_limite : (Text.bytes "limite").all isPlain = true := by decide

theorem all_isPlain_saldo : (Text.bytes "saldo").all isPlain = true := by decide

/-- What the body of a response is meant to be. -/
def resultTokens (limite saldo : Integer) : List Token :=
  [.punct 123, key (Text.bytes "limite") all_isPlain_limite, .punct 58, .integer limite,
    .punct 44, key (Text.bytes "saldo") all_isPlain_saldo, .punct 58, .integer saldo, .punct 125]

/-- **The body is JSON**, of the two numbers and no others. -/
theorem spells_resultBody {limite saldo : Integer} :
    Spells (resultTokens limite saldo) (resultBody customer) ↔
      limite.text = Decimal.ofInt customer.limit.toInt ∧
        saldo.text = Decimal.ofInt customer.balance.toInt := by
  have hbody : resultBody customer =
      123 :: 34 :: (Text.bytes "limite" ++ 34 :: 58 ::
        (List.replicate (20 - (Decimal.ofInt customer.limit.toInt).length) 32 ++
          (Decimal.ofInt customer.limit.toInt ++ 44 :: ([32] ++
            34 :: (Text.bytes "saldo" ++ 34 :: 58 ::
              (List.replicate (21 - (Decimal.ofInt customer.balance.toInt).length) 32 ++
                (Decimal.ofInt customer.balance.toInt ++ 125 :: []))))))) := by
    simp [resultBody, window, Text.bytes]
  have hblank : ∀ n, Spaces (List.replicate n (32 : UInt8)) := fun n b hb => by
    rw [List.eq_of_mem_replicate hb]
    rfl
  have hone : Spaces [32] := hblank 1
  rw [hbody, resultTokens, spells_punct_self (by decide), spells_key,
    spells_punct_self (by decide), spells_integer_spaces (hblank _),
    spells_integer (isNumeric_of_mem_ofInt _) (ofInt_ne_nil _) (by decide) (by decide),
    spells_punct_self (by decide), spells_spaces hone rfl (by decide), spells_key,
    spells_punct_self (by decide), spells_integer_spaces (hblank _),
    spells_integer (isNumeric_of_mem_ofInt _) (ofInt_ne_nil _) (by decide) (by decide),
    spells_punct_self (by decide), and_iff_left spells_nil]

/-! ## The bytes written -/

/-- The writes of `memset`. -/
def setBlankWrites (start count : ℕ) : List (ℕ × UInt8) :=
  (List.range' start count).map fun i => (i, 32)

/-- The writes of `while (number > 0)`, and the index they ended at. -/
def writeDigitsWrites : ℕ → Int32 → List (ℕ × UInt8) × ℕ
  | 0, _ => ([], 0)
  | i + 1, number =>
      if number > 0 then
        ((i, (number % 10 + 48).toInt8.toUInt8) :: (writeDigitsWrites i (number / 10)).1,
          (writeDigitsWrites i (number / 10)).2)
      else ([], i + 1)

/-- The writes of `WriteNumberToString`. -/
def writeNumberToStringWrites (number : Int32) (endIdx : ℕ) : List (ℕ × UInt8) :=
  if number = 0 then [(endIdx, 48)]
  else if number < 0 then
    (writeDigitsWrites (endIdx + 1) (-number)).1 ++
      [((writeDigitsWrites (endIdx + 1) (-number)).2 - 1, 45)]
  else (writeDigitsWrites (endIdx + 1) number).1

/-- The writes of `BuildTransactionResponse`, in order. -/
def buildTransactionResponseWrites (customer : Customer) : List (ℕ × UInt8) :=
  setBlankWrites kLimiteBeginIdx (kLimiteEndIdx - kLimiteBeginIdx + 1) ++
    setBlankWrites kSaldoBeginIdx (kSaldoEndIdx - kSaldoBeginIdx + 1) ++
    writeNumberToStringWrites customer.limit kLimiteEndIdx ++
    writeNumberToStringWrites customer.balance kSaldoEndIdx

/-- The array after the writes. -/
def writeAll (str : Vector UInt8 kResultSize) (writes : List (ℕ × UInt8)) :
    Vector UInt8 kResultSize :=
  writes.foldl (fun str write => str.setIfInBounds write.1 write.2) str

theorem writeAll_append (writes writes' : List (ℕ × UInt8)) :
    writeAll str (writes ++ writes') = writeAll (writeAll str writes) writes' :=
  List.foldl_append

theorem writeAll_setBlank (start count : ℕ) :
    writeAll str (setBlankWrites start count) = setBlank str start count := by
  induction count with
  | zero =>
      refine Vector.ext fun i hi => ?_
      rw [getElem_setBlank hi, if_neg (by omega)]
      rfl
  | succ count ih =>
      rw [setBlankWrites, List.range'_1_concat, List.map_append, writeAll_append,
        ← setBlankWrites, ih]
      refine Vector.ext fun i hi => ?_
      rw [getElem_setBlank hi]
      change ((setBlank str start count).setIfInBounds (start + count) 32)[i] = _
      rw [Vector.getElem_setIfInBounds hi, getElem_setBlank hi]
      by_cases hlast : start + count = i
      · rw [if_pos hlast, if_pos (by omega)]
      · rw [if_neg hlast]
        by_cases hin : start ≤ i ∧ i < start + count
        · rw [if_pos hin, if_pos (by omega)]
        · rw [if_neg hin, if_neg (by omega)]

theorem writeAll_writeDigits :
    writeAll str (writeDigitsWrites i number).1 = (writeDigits i number str).1 ∧
      (writeDigitsWrites i number).2 = (writeDigits i number str).2 := by
  induction i generalizing str number with
  | zero => exact ⟨rfl, rfl⟩
  | succ i ih =>
      rw [writeDigitsWrites, writeDigits]
      split
      · exact ih
      · exact ⟨rfl, rfl⟩

theorem writeAll_writeNumberToString :
    writeAll str (writeNumberToStringWrites number i) = writeNumberToString number str i := by
  unfold writeNumberToStringWrites writeNumberToString
  split
  · rfl
  split
  · obtain ⟨hdigits, hend⟩ := @writeAll_writeDigits str (-number) (i + 1)
    rw [writeAll_append, hdigits, hend]
    rfl
  · exact writeAll_writeDigits.1

/-- **The writes make the response.** -/
theorem writeAll_buildTransactionResponse :
    writeAll str (buildTransactionResponseWrites customer) =
      buildTransactionResponse str customer := by
  rw [buildTransactionResponseWrites, writeAll_append, writeAll_append, writeAll_append,
    writeAll_setBlank, writeAll_setBlank, writeAll_writeNumberToString,
    writeAll_writeNumberToString]
  rfl

/-- A number of `k` digits is written at `k` indices. -/
theorem mem_writeDigitsWrites {k : ℕ} (hsize : number.toInt < 10 ^ k) (hk : k ≤ i) :
    (∀ write ∈ (writeDigitsWrites i number).1, i - k ≤ write.1 ∧ write.1 < i) ∧
      i - k ≤ (writeDigitsWrites i number).2 ∧ (writeDigitsWrites i number).2 ≤ i := by
  induction i generalizing k number with
  | zero => exact ⟨nofun, by simp [writeDigitsWrites], le_refl 0⟩
  | succ i ih =>
      rw [writeDigitsWrites]
      split
      · rename_i hpos
        rw [gt_iff_lt, Int32.lt_iff_toInt_lt, show (0 : Int32).toInt = 0 from rfl] at hpos
        obtain ⟨k, rfl⟩ : ∃ k', k = k' + 1 := ⟨k - 1, by
          by_contra hzero
          obtain rfl : k = 0 := by omega
          omega⟩
        have hrest : (number / 10).toInt < 10 ^ k := by
          rw [toInt_div_ten hpos]
          rw [Int.pow_succ] at hsize
          omega
        obtain ⟨hmem, hlo, hhi⟩ := ih hrest (by omega)
        refine ⟨fun write hwrite => ?_, by omega, by omega⟩
        rcases List.mem_cons.mp hwrite with rfl | hwrite
        · exact ⟨by omega, Nat.lt_succ_self i⟩
        · have := hmem write hwrite
          omega
      · exact ⟨nofun, Nat.sub_le _ _, le_refl _⟩

/-- A number is written within eleven indices, its sign included. -/
theorem mem_writeNumberToStringWrites (hroom : 10 ≤ i) :
    ∀ write ∈ writeNumberToStringWrites number i, i - 10 ≤ write.1 ∧ write.1 ≤ i := by
  have hdigits : ∀ n : Int32, n.toInt < 10 ^ 10 := fun n => by
    have := n.toInt_lt
    omega
  intro write hwrite
  unfold writeNumberToStringWrites at hwrite
  split at hwrite
  · rw [List.mem_singleton.mp hwrite]
    exact ⟨Nat.sub_le _ _, le_refl i⟩
  split at hwrite
  · obtain ⟨hmem, hlo, hhi⟩ := mem_writeDigitsWrites (hdigits (-number))
      (show 10 ≤ i + 1 by omega)
    rcases List.mem_append.mp hwrite with hwrite | hwrite
    · have := hmem write hwrite
      omega
    · rw [List.mem_singleton.mp hwrite]
      simp only
      omega
  · have := (mem_writeDigitsWrites (hdigits number) (show 10 ≤ i + 1 by omega)).1 write hwrite
    omega

/-- **Every byte is written inside a window.** -/
theorem inWindow_of_mem {write : ℕ × UInt8}
    (h : write ∈ buildTransactionResponseWrites customer) : InWindow write.1 := by
  have hblank : ∀ start count, write ∈ setBlankWrites start count →
      start ≤ write.1 ∧ write.1 < start + count := fun start count hwrite => by
    obtain ⟨i, hi, rfl⟩ := List.mem_map.mp hwrite
    exact List.mem_range'_1.mp hi
  simp only [buildTransactionResponseWrites, List.mem_append] at h
  simp only [InWindow]
  rcases h with ((h | h) | h) | h
  · have := hblank _ _ h
    simp only [kLimiteBeginIdx, kLimiteEndIdx] at *
    omega
  · have := hblank _ _ h
    simp only [kSaldoBeginIdx, kSaldoEndIdx] at *
    omega
  · have := mem_writeNumberToStringWrites (by decide) write h
    simp only [kLimiteBeginIdx, kLimiteEndIdx] at *
    omega
  · have := mem_writeNumberToStringWrites (by decide) write h
    simp only [kSaldoBeginIdx, kSaldoEndIdx] at *
    omega

/-! ## Every call -/

/-- The first 133 bytes of the buffer are the header of a body of 62 bytes,
and this is JSON of the customer's two numbers. -/
def Announces (buffer : Vector UInt8 kResultSize) (customer : Customer) : Prop :=
  ∃ body : Bytes, body.length = 62 ∧
    buffer.toList.take 133 = kOkHeader ++ Decimal.ofNat 62 ++ Text.crlf2 ++ body ∧
    (∃ limite saldo, Spells (resultTokens limite saldo) body) ∧
    ∀ limite saldo, Spells (resultTokens limite saldo) body →
      limite.toInt = customer.limit.toInt ∧ saldo.toInt = customer.balance.toInt

theorem agreesOutside_foldl (customers : List Customer)
    (h : AgreesOutside InWindow prebuilt str) :
    AgreesOutside InWindow prebuilt (customers.foldl buildTransactionResponse str) := by
  induction customers generalizing str with
  | nil => exact h
  | cons customer customers ih => exact ih (h.trans agreesOutside_buildTransactionResponse)

/-- **After every call** of `BuildTransactionResponse` the buffer announces
the last customer's numbers. The call writes inside the windows, and
outside them the buffer is as it was initialized. -/
theorem buildTransactionResponse_announces (earlier : List Customer) (customer : Customer)
    (hlimit : customer.limit ≠ Int32.minValue) (hbalance : customer.balance ≠ Int32.minValue) :
    let buffer := earlier.foldl buildTransactionResponse prebuilt
    Announces (buildTransactionResponse buffer customer) customer ∧
      (∀ write ∈ buildTransactionResponseWrites customer, InWindow write.1) ∧
      writeAll buffer (buildTransactionResponseWrites customer) =
        buildTransactionResponse buffer customer ∧
      AgreesOutside InWindow prebuilt (buildTransactionResponse buffer customer) := by
  intro buffer
  have hagrees : AgreesOutside InWindow prebuilt buffer := agreesOutside_foldl earlier .refl
  have hlist := toList_buildTransactionResponse hagrees hlimit hbalance
  refine ⟨⟨resultBody customer, length_resultBody customer, ?_, ?_, ?_⟩,
    fun write => inWindow_of_mem, writeAll_buildTransactionResponse,
    hagrees.trans agreesOutside_buildTransactionResponse⟩
  · have hlen : (kOkHeader ++ Decimal.ofNat 62 ++ Text.crlf2 ++ resultBody customer).length =
        133 := by
      rw [List.length_append, length_resultBody]
      decide
    rw [hlist, ← hlen, List.take_left]
  · exact ⟨.ofInt customer.limit.toInt, .ofInt customer.balance.toInt,
      spells_resultBody.mpr ⟨Integer.text_ofInt _, Integer.text_ofInt _⟩⟩
  · intro limite saldo hspells
    obtain ⟨hlimite, hsaldo⟩ := spells_resultBody.mp hspells
    exact ⟨Integer.toInt_of_text hlimite, Integer.toInt_of_text hsaldo⟩

/-- A customer of the two numbers. -/
def customerOf (limit balance : Int32) : Customer :=
  { initialCustomer limit with balance := balance }

/-- A long number and then a short one. -/
theorem buildTransactionResponse_announces_short :
    Announces (buildTransactionResponse
      ([customerOf 100000 (-99999)].foldl buildTransactionResponse prebuilt)
        (customerOf 7 (-1))) (customerOf 7 (-1)) :=
  (buildTransactionResponse_announces [customerOf 100000 (-99999)] (customerOf 7 (-1))
    (by decide) (by decide)).1

end Rinha
