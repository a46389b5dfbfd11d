import Rinha.Server.View
/-!
# The layout of a body

`ParseJsonBody` reads by index, and what it reads is a layout: ten bytes,
digits, a comma, ten bytes, the letter of the type, seventeen bytes, and
the description with `"}` behind it. It accepts the texts that have one
(`accepted_iff_layout`), and what it makes of a text stands in the layout.
-/

namespace Rinha

variable {body : StringView} {a b digits : Bytes} {x : Int32}

/-! ## The digits -/

/-- The loop of `SubstringToInt`, over a piece of the text. -/
theorem substringToIntLoop_eq (h : body.text = a ++ digits ++ b) :
    (substringToIntLoop body (List.range' a.length digits.length) x).1 = digits.all isDigit ∧
      (digits.all isDigit = true →
        (substringToIntLoop body (List.range' a.length digits.length) x).2 =
          digits.foldl (fun x d => x * 10 + digitValue d) x) := by
  induction digits generalizing a x with
  | nil => exact ⟨rfl, fun _ => rfl⟩
  | cons d digits ih =>
      have hget : body.get a.length = d :=
        StringView.get_of_text (b := digits ++ b) (by simpa using h)
      have hrest := @ih (a ++ [d]) (x * 10 + digitValue d) (by simpa using h)
      rw [List.length_append, List.length_singleton] at hrest
      rw [List.length_cons, List.range'_succ, substringToIntLoop, hget]
      by_cases hd : isDigit d = true
      · simpa [hd] using hrest
      · simp [hd]

/-- Multiplying out in 32 bits, and in the numbers. -/
theorem foldl_digitValue (n : ℕ) :
    digits.foldl (fun x d => x * 10 + digitValue d) (Int32.ofNat n) =
      Int32.ofNat (digits.foldl (fun v b => v * 10 + (b.toNat - 48)) n) := by
  induction digits generalizing n with
  | nil => rfl
  | cons d digits ih =>
      rw [List.foldl_cons, List.foldl_cons, ← ih, digitValue, Int32.ofNat_add, Int32.ofNat_mul]
      rfl

/-- **`SubstringToInt`** on a piece of the text. -/
theorem substringToInt_eq (h : body.text = a ++ digits ++ b) :
    (substringToInt body a.length (a.length + digits.length)).1 = digits.all isDigit ∧
      (digits.all isDigit = true →
        (substringToInt body a.length (a.length + digits.length)).2 =
          Int32.ofNat (Decimal.value digits)) := by
  rw [substringToInt, Nat.add_sub_cancel_left, Decimal.value, ← foldl_digitValue]
  exact substringToIntLoop_eq h

/-- `*= -1`. -/
theorem toInt_mul_neg_one (n : ℕ) : (Int32.ofNat n * -1).toInt = (-(n : ℤ)).bmod (2 ^ 32) := by
  rw [Int32.toInt_mul, Int32.toInt_ofNat', show (-1 : Int32).toInt = -1 from rfl,
    show Int32.size = 2 ^ 32 from rfl, Int.bmod_mul_bmod, mul_neg_one]

/-! ## Layouts -/

/-- A body as the parser reads it. -/
structure Layout where
  before : Bytes
  digits : Bytes
  key : Bytes
  tipo : UInt8
  gap : Bytes
  description : Bytes
  before_length : before.length = 10
  digits_ok : ∀ b ∈ digits, isDigit b = true
  key_length : key.length = 10
  tipo_ok : tipo = 99 ∨ tipo = 100
  gap_length : gap.length = 17
  no_quote : 34 ∉ description
  description_length : 1 ≤ description.length ∧ description.length ≤ 10

namespace Layout

variable (l : Layout)

/-- What stands behind the letter of the type. -/
def encode : Bytes :=
  l.before ++ l.digits ++ 44 :: (l.key ++ l.tipo :: (l.gap ++ l.description ++ [34, 125]))

/-- What stands before the description. -/
def head : Bytes := l.before ++ l.digits ++ 44 :: (l.key ++ l.tipo :: l.gap)

theorem length_head : l.head.length = 10 + l.digits.length + 29 := by
  simp [head, l.before_length, l.key_length, l.gap_length]
  omega

theorem encode_eq : l.encode = l.head ++ l.description ++ 34 :: [125] := by simp [encode, head]

/-- The signed amount. -/
def amount : Int32 :=
  if l.tipo = 100 then Int32.ofNat (Decimal.value l.digits) * -1
  else Int32.ofNat (Decimal.value l.digits)

variable {l}

theorem numEndIdx_eq (h : body.text = l.encode) : numEndIdx body = 10 + l.digits.length := by
  have hno : 44 ∉ (l.before ++ l.digits).drop numBeginIdx := by
    rw [show numBeginIdx = l.before.length from l.before_length.symm, List.drop_left]
    exact fun hmem => absurd (l.digits_ok 44 hmem) (by decide)
  have hfind := StringView.find_eq h (by simp [numBeginIdx, l.before_length]) hno
  rw [numEndIdx, hfind, List.length_append, l.before_length]

theorem startDescIdx_eq (h : body.text = l.encode) : startDescIdx body = l.head.length := by
  rw [startDescIdx, numEndIdx_eq h, length_head]

theorem endDescIdx_eq (h : body.text = l.encode) :
    endDescIdx body = l.head.length + l.description.length := by
  have htext := h.trans l.encode_eq
  have hno : 34 ∉ (l.head ++ l.description).drop l.head.length := by
    rw [List.drop_left]
    exact l.no_quote
  rw [endDescIdx, startDescIdx_eq h, StringView.find_eq htext (by simp) hno, List.length_append]

theorem get_tipo (h : body.text = l.encode) : body.get (numEndIdx body + 11) = l.tipo := by
  have htext : body.text = (l.before ++ l.digits ++ 44 :: l.key) ++
      l.tipo :: (l.gap ++ l.description ++ [34, 125]) := by
    rw [h, encode]
    simp
  have hlen : (l.before ++ l.digits ++ 44 :: l.key).length = numEndIdx body + 11 := by
    simp [numEndIdx_eq h, l.before_length, l.key_length, Nat.add_assoc]
  rw [← hlen]
  exact StringView.get_of_text htext

theorem substringToInt_digits (h : body.text = l.encode) :
    (substringToInt body numBeginIdx (numEndIdx body)).1 = true ∧
      (substringToInt body numBeginIdx (numEndIdx body)).2 =
        Int32.ofNat (Decimal.value l.digits) := by
  have hall : l.digits.all isDigit = true := List.all_eq_true.mpr l.digits_ok
  have heq := substringToInt_eq h
  rw [l.before_length, ← numEndIdx_eq h] at heq
  exact ⟨heq.1.trans hall, heq.2 hall⟩

/-- **A text with a layout is accepted.** -/
theorem accepted (h : body.text = l.encode) (hsize : body.size ≤ npos) : Accepted body := by
  have hlen : body.size = l.head.length + l.description.length + 2 := by
    rw [← StringView.length_text, h, encode_eq]
    simp [Nat.add_assoc]
  have hdesc := l.description_length
  have hhead := l.length_head
  have hbrace : body.get (l.head ++ l.description ++ [34]).length = 125 := by
    refine StringView.get_of_text (b := []) ?_
    rw [h, encode_eq]
    simp
  exact {
    dot := by
      have hno : 46 ∉ (l.before ++ l.digits).drop numBeginIdx := by
        rw [show numBeginIdx = l.before.length from l.before_length.symm, List.drop_left]
        exact fun hmem => absurd (l.digits_ok 46 hmem) (by decide)
      have hle := StringView.le_find h hno (by simp [l.before_length]; omega)
      rw [List.length_append, l.before_length, ← numEndIdx_eq h] at hle
      exact Nat.not_lt_of_le hle
    comma := by
      rw [numEndIdx_eq h]
      omega
    digits := (substringToInt_digits h).1
    tipo := by
      rw [get_tipo h]
      exact l.tipo_ok
    quote := by
      rw [endDescIdx_eq h]
      omega
    last := by
      rw [endDescIdx_eq h, hlen]
    brace := by
      rw [endDescIdx_eq h, ← hbrace]
      simp [Nat.add_assoc]
    nonempty := by
      rw [endDescIdx_eq h, startDescIdx_eq h]
      omega
    fits := by
      rw [endDescIdx_eq h, startDescIdx_eq h]
      omega }

theorem amount_eq (h : body.text = l.encode) : Rinha.amount body = l.amount := by
  simp only [Rinha.amount, get_tipo h, (substringToInt_digits h).2, amount]

/-- The description, as the renderer reads it back. -/
theorem cstr_description (h : body.text = l.encode) (array : Vector UInt8 11) :
    Text.cstr (copyDescription body (startDescIdx body) (endDescIdx body) array).toList =
      Text.cstr l.description := by
  obtain ⟨-, hfits⟩ := l.description_length
  have hsize : body.size = l.head.length + (l.description.length + 2) := by
    rw [← StringView.length_text, h, encode_eq]
    simp
  rw [← Text.cstr_append_nul l.description, startDescIdx_eq h, endDescIdx_eq h]
  refine (Text.cstr_congr (n := l.description.length) (by simp) fun i hi => ?_).symm
  have hi' : i < 11 := by omega
  rcases Nat.lt_or_eq_of_le hi with hlt | rfl
  · have hget : l.description[i]? = some (body.get (l.head.length + i)) := by
      rw [← StringView.getElem?_text (by omega), h, encode_eq, List.append_assoc,
        List.getElem?_append_right (by omega), Nat.add_sub_cancel_left,
        List.getElem?_append_left hlt]
    rw [List.getElem?_append_left hlt, hget]
    simp [copyDescription, hi', hlt]
  · simp [copyDescription, hi']

end Layout

/-! ## What is accepted -/

/-- The last two bytes of what is found in. -/
theorem eq_of_size {c : UInt8} (h : body.text = a ++ c :: b) (hsize : a.length + 2 = body.size) :
    b = [body.get (a.length + 1)] := by
  have hlen : b.length = 1 := by
    rw [← StringView.length_text, h] at hsize
    simp at hsize
    omega
  obtain ⟨d, rfl⟩ := List.length_eq_one_iff.mp hlen
  have hget := @StringView.get_of_text body (a ++ [c]) [] d (by simpa using h)
  rw [List.length_append, List.length_singleton] at hget
  rw [hget]

/-- Ten bytes, one, seventeen, and the rest. -/
theorem exists_split {b : Bytes} (h : 28 ≤ b.length) :
    ∃ key tipo gap description, b = key ++ tipo :: (gap ++ description) ∧ key.length = 10 ∧
      gap.length = 17 := by
  refine ⟨b.take 10, b[10], (b.drop 11).take 17, b.drop 28, ?_, by simp; omega, by simp; omega⟩
  have hgap : (b.drop 11).take 17 ++ b.drop 28 = b.drop 11 := by
    rw [show b.drop 28 = (b.drop 11).drop 17 by simp, List.take_append_drop]
  rw [hgap, ← List.drop_eq_getElem_cons (by omega), List.take_append_drop]

/-- **What `ParseJsonBody` accepts.** -/
theorem accepted_iff_layout (hsize : body.size ≤ npos) :
    Accepted body ↔ ∃ l : Layout, body.text = l.encode := by
  refine ⟨fun h => ?_, fun ⟨l, hl⟩ => l.accepted hl hsize⟩
  obtain ⟨a, b, htext, hnum, hten, -⟩ := StringView.find_split h.comma
  obtain ⟨c, d, htext', hend, hstart, hquote⟩ := StringView.find_split h.quote
  have hstart' : a.length + 29 ≤ c.length := by
    rw [← hnum]
    exact hstart
  have hlast := h.last
  rw [endDescIdx, hend] at hlast
  have hbrace := h.brace
  rw [endDescIdx, hend] at hbrace
  obtain rfl : d = [125] := (eq_of_size htext' hlast).trans (by rw [hbrace])
  -- the search for the quote starts behind the comma
  obtain ⟨rest, rfl, hrest⟩ : ∃ rest, c = a ++ 44 :: rest ∧ b = rest ++ 34 :: [125] := by
    rcases List.append_eq_append_iff.mp (htext.symm.trans htext') with
      ⟨rest, rfl, hrest⟩ | ⟨rest, rfl, -⟩
    · cases rest with
      | nil =>
          rw [List.append_nil] at hstart'
          omega
      | cons e rest =>
          obtain ⟨rfl, htail⟩ := List.cons.inj hrest
          exact ⟨rest, rfl, htail⟩
    · rw [List.length_append] at hstart'
      omega
  rw [List.length_append, List.length_cons] at hstart'
  obtain ⟨key, tipo, gap, description, rfl, hkey, hgap⟩ := exists_split (b := rest) (by omega)
  have htake : (a.take 10).length = 10 := List.length_take_of_le hten
  have hdrop : 10 + (a.drop 10).length = a.length := by
    rw [List.length_drop]
    exact Nat.add_sub_cancel' hten
  have hdigits : (a.drop 10).all isDigit = true := by
    have heq := @substringToInt_eq body (a.take 10) (44 :: b) (a.drop 10) (by simpa using htext)
    rw [htake, hdrop, ← hnum] at heq
    exact heq.1.symm.trans h.digits
  have htipo : body.get (numEndIdx body + 11) = tipo := by
    have hlen : (a ++ 44 :: key).length = numEndIdx body + 11 := by
      simp [numEndIdx, hnum, hkey]
    rw [← hlen]
    refine StringView.get_of_text (b := gap ++ description ++ [34, 125]) ?_
    rw [htext']
    simp
  have hbefore : (a ++ 44 :: (key ++ tipo :: gap)).length = startDescIdx body := by
    simp [startDescIdx, numEndIdx, hnum, hkey, hgap]
  have hsplit : a ++ 44 :: (key ++ tipo :: (gap ++ description)) =
      (a ++ 44 :: (key ++ tipo :: gap)) ++ description := by simp
  rw [hsplit, ← hbefore, List.drop_left] at hquote
  have hlen : endDescIdx body = startDescIdx body + description.length := by
    rw [endDescIdx, hend, hsplit, List.length_append, hbefore]
  have hnonempty := h.nonempty
  have hfits := h.fits
  refine ⟨⟨a.take 10, a.drop 10, key, tipo, gap, description, htake,
    List.all_eq_true.mp hdigits, hkey, htipo ▸ h.tipo, hgap, hquote, by omega, by omega⟩, ?_⟩
  rw [htext', Layout.encode]
  simp

end Rinha
