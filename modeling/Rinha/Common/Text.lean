import Mathlib.Tactic.Common
/-!
# Byte strings

Text is a list of bytes. A C string is what an array holds before its
first NUL.
-/

/-- Bytes in order. -/
abbrev Bytes := List UInt8

namespace Text

/-- The bytes of an ASCII literal. -/
def bytes (s : String) : Bytes := s.toList.map fun c => UInt8.ofNat c.toNat

/-- The C string at the start of an array. -/
def cstr (array : Bytes) : Bytes := array.takeWhile (· ≠ 0)

/-- `\r\n\r\n`. -/
def crlf2 : Bytes := bytes "\r\n\r\n"

/-- The string ends with its array, or at a NUL. -/
theorem cstr_cases (array : Bytes) :
    cstr array = array ∨ array[(cstr array).length]? = some 0 := by
  induction array with
  | nil => exact .inl rfl
  | cons b array ih =>
      by_cases hb : b = 0
      · exact .inr (by simp [cstr, hb])
      · have hcons : cstr (b :: array) = b :: cstr array := by simp [cstr, hb]
        rw [hcons]
        exact ih.imp (congrArg (b :: ·)) fun h => by simpa using h

/-- What stands behind the NUL is no part of the string. -/
theorem cstr_congr {a a' : Bytes} {n : ℕ} (hnul : a[n]? = some 0)
    (h : ∀ i, i ≤ n → a[i]? = a'[i]?) : cstr a = cstr a' := by
  induction n generalizing a a' with
  | zero =>
      have hnul' : a'[0]? = some 0 := (h 0 (Nat.le_refl 0)).symm.trans hnul
      cases a with
      | nil => cases hnul
      | cons b a =>
          cases a' with
          | nil => cases hnul'
          | cons b' a' => simp_all [cstr]
  | succ n ih =>
      cases a with
      | nil => cases hnul
      | cons b a =>
          cases a' with
          | nil => cases h 0 (Nat.zero_le _)
          | cons b' a' =>
              have hb : b = b' := Option.some.inj (h 0 (Nat.zero_le _))
              have htail : cstr a = cstr a' := ih (by simpa using hnul) fun i hi => by
                simpa using h (i + 1) (by omega)
              unfold cstr at htail ⊢
              rw [hb, List.takeWhile_cons, List.takeWhile_cons, htail]

theorem cstr_append {before after : Bytes} (h : 0 ∉ before) :
    cstr (before ++ after) = before ++ cstr after :=
  List.takeWhile_append_of_pos fun b hb => by
    have hne : b ≠ 0 := fun hzero => h (hzero ▸ hb)
    simpa using hne

/-- Without a NUL it is all of the array. -/
theorem cstr_of_notMem {array : Bytes} (h : 0 ∉ array) : cstr array = array := by
  have happend := @cstr_append array [] h
  rwa [List.append_nil, show cstr [] = [] from rfl, List.append_nil] at happend

/-- A NUL ends the string where it stands. -/
theorem cstr_append_nul (array : Bytes) : cstr (array ++ [0]) = cstr array := by
  induction array with
  | nil => rfl
  | cons b array ih =>
      unfold cstr at ih ⊢
      rw [List.cons_append, List.takeWhile_cons, List.takeWhile_cons, ih]

/-- What all of a run satisfies and the byte behind it does not splits a
string in one way. -/
theorem append_span_inj {p : UInt8 → Prop} {a a' rest rest' : Bytes} {b b' : UInt8}
    (ha : ∀ x ∈ a, p x) (ha' : ∀ x ∈ a', p x) (hb : ¬p b) (hb' : ¬p b')
    (h : a ++ b :: rest = a' ++ b' :: rest') : a = a' ∧ b :: rest = b' :: rest' := by
  induction a generalizing a' with
  | nil =>
      cases a' with
      | nil => exact ⟨rfl, h⟩
      | cons x a' => exact absurd ((List.cons.inj h).1 ▸ ha' x (by simp)) hb
  | cons x a ih =>
      cases a' with
      | nil => exact absurd ((List.cons.inj h).1 ▸ ha x (by simp)) hb'
      | cons x' a' =>
          obtain ⟨rfl, htail⟩ := List.cons.inj h
          obtain ⟨rfl, hrest⟩ := ih (fun y hy => ha y (by simp [hy]))
            (fun y hy => ha' y (by simp [hy])) htail
          exact ⟨rfl, hrest⟩

/-- What stands before the first `q` stays before it. -/
theorem append_of_notMem {q : UInt8} {a d x rest : Bytes} (ha : q ∉ a)
    (h : a ++ x = d ++ q :: rest) : ∃ d', d = a ++ d' ∧ x = d' ++ q :: rest := by
  induction a generalizing d with
  | nil => exact ⟨d, rfl, h⟩
  | cons b a ih =>
      cases d with
      | nil => exact absurd (List.cons.inj h).1 fun hb => ha (by simp [hb])
      | cons b' d =>
          obtain ⟨rfl, htail⟩ := List.cons.inj h
          obtain ⟨d', rfl, hx⟩ := ih (fun hmem => ha (by simp [hmem])) htail
          exact ⟨d', rfl, hx⟩

/-- Joining with a separator, as a loop writes it: after an element comes
the separator if there is another. -/
theorem intercalate_cons {sep x : Bytes} {xs : List Bytes} :
    sep.intercalate (x :: xs) =
      x ++ (if xs.length ≠ 0 then sep else []) ++ sep.intercalate xs := by
  cases xs <;> simp

end Text
