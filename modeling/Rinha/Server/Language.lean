import Rinha.Server.Layout
/-!
# The language of `ParseJsonBody`

A text has one layout at most (`Layout.encode_inj`), so the layout is what
the parser reads, and what it stores is a matter of the layout. Of the
digits it asks only that they are digits: none at all are the number zero,
and too many are a number modulo `2 ^ 32`.
-/

namespace Rinha

variable {body : StringView} {t : Transaction} {l l' : Layout}

/-! ## One layout -/

/-- **A text has one layout.** -/
theorem Layout.encode_inj (h : l.encode = l'.encode) : l = l' := by
  obtain ⟨before, digits, key, tipo, gap, description, hbefore, hdigits, hkey, _, hgap, _, _⟩ := l
  obtain ⟨before', digits', key', tipo', gap', description', hbefore', hdigits', hkey', _, hgap',
    _, _⟩ := l'
  simp only [encode, List.append_assoc] at h
  obtain ⟨rfl, hrest⟩ := List.append_inj h (hbefore.trans hbefore'.symm)
  -- the digits of either end at a comma, which is none
  obtain ⟨rfl, hcomma⟩ := Text.append_span_inj (p := fun b => isDigit b = true) hdigits hdigits'
    (by decide) (by decide) hrest
  obtain ⟨rfl, htail⟩ := List.append_inj (List.cons.inj hcomma).2 (hkey.trans hkey'.symm)
  obtain ⟨rfl, hbehind⟩ := List.cons.inj htail
  obtain ⟨rfl, hend⟩ := List.append_inj hbehind (hgap.trans hgap'.symm)
  obtain rfl := List.append_cancel_right hend
  rfl

/-! ## What is stored -/

/-- What an accepted body leaves in the transaction: the number modulo
`2 ^ 32`, and the description with a NUL behind it, in its array. -/
structure Layout.Stored (l : Layout) (t t' : Transaction) : Prop where
  value : t'.value.toInt =
    (if l.tipo = 100 then -(Decimal.value l.digits : ℤ) else Decimal.value l.digits).bmod (2 ^ 32)
  fits : l.description.length + 1 ≤ 11
  description : t'.description.toList =
    l.description ++ 0 :: t.description.toList.drop (l.description.length + 1)
  timestamp : t'.timestamp = t.timestamp

theorem Layout.toInt_amount :
    l.amount.toInt = (if l.tipo = 100 then -(Decimal.value l.digits : ℤ)
      else Decimal.value l.digits).bmod (2 ^ 32) := by
  unfold amount
  split
  · exact toInt_mul_neg_one _
  · exact Int32.toInt_ofNat'

/-- The array is written up to the NUL and no further. -/
theorem Layout.toList_copyDescription (h : body.text = l.encode) (array : Vector UInt8 11) :
    (copyDescription body (startDescIdx body) (endDescIdx body) array).toList =
      l.description ++ 0 :: array.toList.drop (l.description.length + 1) := by
  obtain ⟨-, hfits⟩ := l.description_length
  have hsize : body.size = l.head.length + (l.description.length + 2) := by
    rw [← StringView.length_text, h, encode_eq]
    simp
  have hget : ∀ i, i < l.description.length →
      body.get (l.head.length + i) = l.description.getD i 0 := fun i hi => by
    have hbyte := @StringView.getElem?_text body (l.head.length + i) (by omega)
    rw [h, encode_eq, List.append_assoc, List.getElem?_append_right (by omega),
      Nat.add_sub_cancel_left, List.getElem?_append_left hi] at hbyte
    rw [List.getD_eq_getElem?_getD, hbyte, Option.getD_some]
  refine List.ext_getElem? fun i => ?_
  rcases Nat.lt_or_ge i 11 with hi | hi
  · have hleft : (copyDescription body (startDescIdx body) (endDescIdx body) array).toList[i]? =
        some (if i < l.description.length then body.get (l.head.length + i)
          else if i = l.description.length then 0 else array.get ⟨i, hi⟩) := by
      simp [copyDescription, hi, startDescIdx_eq h, endDescIdx_eq h]
    rw [hleft]
    -- a byte of the description, the NUL behind it, or what the array held
    rcases Nat.lt_trichotomy i l.description.length with hlt | rfl | hgt
    · rw [if_pos hlt, hget i hlt, List.getElem?_append_left hlt, List.getD_eq_getElem?_getD,
        List.getElem?_eq_getElem hlt, Option.getD_some]
    · simp
    · obtain ⟨k, rfl⟩ : ∃ k, i = l.description.length + (k + 1) :=
        ⟨i - (l.description.length + 1), by omega⟩
      rw [if_neg (by omega), if_neg (by omega), List.getElem?_append_right (by omega),
        Nat.add_sub_cancel_left, List.getElem?_cons_succ, List.getElem?_drop, Nat.add_assoc,
        Nat.add_comm 1 k]
      simp [hi, Vector.get]
  · rw [List.getElem?_eq_none (by simpa using hi), List.getElem?_eq_none (by simp; omega)]

/-- **What `ParseJsonBody` stores** of a text with a layout. -/
theorem Layout.stored (h : body.text = l.encode) (hsize : body.size ≤ npos) :
    l.Stored t (parseJsonBody body t).2 := by
  obtain ⟨-, hfits⟩ := l.description_length
  rw [parseJsonBody_of_accepted (l.accepted h hsize)]
  exact {
    value := by
      rw [readTransaction, amount_eq h, toInt_amount]
    fits := by omega
    description := toList_copyDescription h t.description
    timestamp := rfl }

/-- **The language of `ParseJsonBody`.** A body is accepted if and only if
it has a layout, which is then its only one, and what is stored is in the
layout. What lies behind the body is not looked at: a body of the same
text is decided alike. -/
theorem parseJsonBody_language (body : StringView) (t : Transaction) (hsize : body.size ≤ npos) :
    ((parseJsonBody body t).1 = true ↔ ∃ l : Layout, body.text = l.encode) ∧
      (∀ l l' : Layout, body.text = l.encode → body.text = l'.encode → l = l') ∧
      (∀ l : Layout, body.text = l.encode → l.Stored t (parseJsonBody body t).2) ∧
      ∀ (body' : StringView) (t' : Transaction), body'.text = body.text →
        (parseJsonBody body' t').1 = (parseJsonBody body t).1 := by
  refine ⟨parseJsonBody_fst.trans (accepted_iff_layout hsize),
    fun l l' h h' => Layout.encode_inj (h.symm.trans h'), fun l h => l.stored h hsize,
    fun body' t' h => ?_⟩
  have hsame : body'.Same body := StringView.same_iff_text.mpr h
  rw [Bool.eq_iff_iff, parseJsonBody_fst, parseJsonBody_fst]
  exact accepted_congr hsame

/-- A debit of twelve. -/
def debitBody : StringView :=
  .ofBytes (Text.bytes "\x7b\"valor\": 12, \"tipo\": \"d\", \"descricao\": \"a\"\x7d")

theorem parseJsonBody_language_debit :
    (parseJsonBody debitBody Transaction.zero).2.value = -12 ∧
      ∃ l : Layout, debitBody.text = l.encode ∧
        l.Stored Transaction.zero (parseJsonBody debitBody Transaction.zero).2 := by
  obtain ⟨haccepted, -, hstored, -⟩ :=
    parseJsonBody_language debitBody Transaction.zero (by decide)
  obtain ⟨l, hl⟩ := haccepted.mp (by decide +kernel)
  exact ⟨by decide +kernel, l, hl, hstored l hl⟩

/-! ## The number -/

/-- The bytes between the tenth and the first comma behind it. -/
def valorOf (body : StringView) : Bytes := (body.text.drop numBeginIdx).takeWhile (· ≠ 44)

/-- No step of the loop of `SubstringToInt` leaves the range of `int`. -/
def NoOverflow (body : StringView) : List ℕ → Int32 → Prop
  | [], _ => True
  | i :: indices, x =>
      (x * 10).toInt = x.toInt * 10 ∧
        (x * 10 + digitValue (body.get i)).toInt =
          x.toInt * 10 + (digitValue (body.get i)).toInt ∧
        NoOverflow body indices (x * 10 + digitValue (body.get i))

/-- The number of a body was read: it has a digit, the sums on the way to
it fit, and the transaction has its magnitude. -/
structure ReadsValor (body : StringView) (t : Transaction) : Prop where
  nonempty : valorOf body ≠ []
  fits : NoOverflow body (List.range' numBeginIdx (numEndIdx body - numBeginIdx)) 0
  magnitude : (parseJsonBody body t).2.value.toInt.natAbs = Decimal.value (valorOf body)

theorem Layout.valorOf_eq (h : body.text = l.encode) : valorOf body = l.digits := by
  have hcomma : ∀ b ∈ l.digits, decide (b ≠ 44) = true := fun b hb => by
    rw [decide_eq_true_eq]
    rintro rfl
    exact absurd (l.digits_ok 44 hb) (by decide)
  rw [valorOf, h, encode, List.append_assoc, show numBeginIdx = l.before.length from
    l.before_length.symm, List.drop_left, List.takeWhile_append_of_pos hcomma]
  simp

/-- A number of more digits is no smaller. -/
theorem le_foldl_value (digits : Bytes) (n : ℕ) :
    n ≤ digits.foldl (fun v b => v * 10 + (b.toNat - 48)) n := by
  rw [Decimal.foldl_value]
  have := Nat.le_mul_of_pos_right n (Nat.pow_pos (n := digits.length) (show 0 < 10 by decide))
  omega

/-- **The loop overflows** just where the number is too large for an
`int`. -/
theorem noOverflow_iff {a b digits : Bytes} (h : body.text = a ++ digits ++ b)
    (hdigits : ∀ d ∈ digits, isDigit d = true) {n : ℕ} (hn : n < 2 ^ 31) :
    NoOverflow body (List.range' a.length digits.length) (Int32.ofNat n) ↔
      digits.foldl (fun v b => v * 10 + (b.toNat - 48)) n < 2 ^ 31 := by
  induction digits generalizing a n with
  | nil => simpa [NoOverflow] using hn
  | cons d digits ih =>
      have hget : body.get a.length = d :=
        StringView.get_of_text (b := digits ++ b) (by simpa using h)
      have hd := Decimal.le_of_isDigit (hdigits d (by simp))
      have hrest := @ih (a ++ [d]) (by simpa using h) (fun e he => hdigits e (by simp [he]))
      rw [List.length_append, List.length_singleton] at hrest
      have hnext : Int32.ofNat n * 10 + digitValue d = Int32.ofNat (n * 10 + (d.toNat - 48)) := by
        rw [digitValue, Int32.ofNat_add, Int32.ofNat_mul]
        rfl
      have hten : (Int32.ofNat n * 10).toInt = ((n * 10 : ℕ) : ℤ).bmod (2 ^ 32) := by
        rw [show Int32.ofNat n * 10 = Int32.ofNat (n * 10) from (Int32.ofNat_mul ..).symm]
        exact Int32.toInt_ofNat'
      have hdigit : (digitValue d).toInt = (d.toNat - 48 : ℕ) :=
        Int32.toInt_ofNat_of_lt (by omega)
      have hle := le_foldl_value digits (n * 10 + (d.toNat - 48))
      rw [List.length_cons, List.range'_succ, NoOverflow, hget, hnext, hten, hdigit,
        Int32.toInt_ofNat_of_lt hn, Int32.toInt_ofNat', show Int32.size = 2 ^ 32 from rfl]
      change _ ↔ digits.foldl _ (n * 10 + (d.toNat - 48)) < 2 ^ 31
      -- a step that fits leaves the rest to the induction
      by_cases hfits : n * 10 + (d.toNat - 48) < 2 ^ 31
      · rw [hrest hfits, Int.bmod_eq_of_le (by omega) (by omega),
          Int.bmod_eq_of_le (by omega) (by omega)]
        refine (and_iff_right ?_).trans (and_iff_right ?_) <;> omega
      · -- the sum is at least `2 ^ 31`, and no `int` is
        refine iff_of_false (fun hall => ?_) (by omega)
        have hsum := hall.2.1
        have hlt := @Int.bmod_lt ((n * 10 + (d.toNat - 48) : ℕ) : ℤ) (2 ^ 32) (by decide)
        omega

/-- **An accepted body's number is read** if and only if it has a digit and
is no larger than an `int`. -/
theorem readsValor_iff (body : StringView) (t : Transaction) (hsize : body.size ≤ npos)
    (haccepted : (parseJsonBody body t).1 = true) :
    ReadsValor body t ↔ valorOf body ≠ [] ∧ Decimal.value (valorOf body) ≤ 2147483647 := by
  have hparse := parseJsonBody_of_accepted (t := t) (parseJsonBody_fst.mp haccepted)
  obtain ⟨l, hl⟩ := (accepted_iff_layout hsize).mp (parseJsonBody_fst.mp haccepted)
  have hfits : NoOverflow body (List.range' numBeginIdx (numEndIdx body - numBeginIdx)) 0 ↔
      Decimal.value l.digits < 2 ^ 31 := by
    have hloop := noOverflow_iff hl l.digits_ok (n := 0) (by decide)
    rwa [l.before_length, show l.digits.length = numEndIdx body - numBeginIdx by
      rw [l.numEndIdx_eq hl, numBeginIdx, Nat.add_sub_cancel_left]] at hloop
  rw [l.valorOf_eq hl]
  constructor
  · intro h
    have hvalue := hfits.mp h.fits
    exact ⟨l.valorOf_eq hl ▸ h.nonempty, by omega⟩
  · rintro ⟨hne, hvalue⟩
    exact {
      nonempty := l.valorOf_eq hl ▸ hne
      fits := hfits.mpr (by omega)
      magnitude := by
        rw [hparse, l.valorOf_eq hl, readTransaction, l.amount_eq hl, l.toInt_amount]
        split
        · rw [Int.bmod_eq_of_le (by omega) (by omega), Int.natAbs_neg, Int.natAbs_natCast]
        · rw [Int.bmod_eq_of_le (by omega) (by omega), Int.natAbs_natCast] }

theorem readsValor_debit : ReadsValor debitBody Transaction.zero :=
  (readsValor_iff debitBody Transaction.zero (by decide) (by decide +kernel)).mpr
    ⟨by decide +kernel, by decide +kernel⟩

/-- A credit of the number that is written so. -/
def creditBody (digits : Bytes) : StringView :=
  .ofBytes (Text.bytes "\x7b\"valor\": " ++ digits ++
    Text.bytes ", \"tipo\": \"c\", \"descricao\": \"a\"\x7d")

/-- **A number too large wraps**: `2 ^ 32 + 1` is accepted and read as one,
as no number at all is read as zero. -/
theorem not_readsValor_wrapped :
    ((parseJsonBody (creditBody (Text.bytes "4294967297")) Transaction.zero).1 = true ∧
        (parseJsonBody (creditBody (Text.bytes "4294967297")) Transaction.zero).2.value = 1 ∧
        ¬ReadsValor (creditBody (Text.bytes "4294967297")) Transaction.zero) ∧
      (parseJsonBody (creditBody []) Transaction.zero).1 = true ∧
        ¬ReadsValor (creditBody []) Transaction.zero := by
  refine ⟨⟨by decide +kernel, by decide +kernel, fun h => ?_⟩, by decide +kernel, fun h => ?_⟩
  · exact absurd h.magnitude (by decide +kernel)
  · exact absurd h.nonempty (by decide +kernel)

end Rinha
