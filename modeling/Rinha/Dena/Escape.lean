import Rinha.Common.Delimited
import Rinha.Dena.Model.Escape
import Rinha.Dena.StringBuffer
/-!
# Escaping, and reading it back in place

An escaped value holds no control character but the prefix, so neither a
tab nor a newline nor the null value's NUL; and unescaping it where it
lies gives the value, with nothing else in memory touched
(`unescapeString_escape`). The reader writes no further than it has read,
which is why it may write over what it reads.
-/

namespace Rinha
namespace Dena

variable {mem mem' : ℕ → UInt8} {wp start finish n : ℕ} {bytes bytes' rest : Bytes} {c : UInt8}

/-! ## The code on byte strings -/

/-- A byte, escaped. -/
def escapeByte (c : UInt8) : Bytes :=
  if c ≥ specialCharNoescapeMin then [c]
  else [specialCharEscapePrefix, c + specialCharEscapeShift]

/-- A value, escaped. -/
def escape (bytes : Bytes) : Bytes := bytes.flatMap escapeByte

/-- A value read back: up to the first escape that is none, and whether there
was one. -/
def unescape : Bytes → Bytes × Bool
  | [] => ([], true)
  | c :: rest =>
      if c ≠ specialCharEscapePrefix then (c :: (unescape rest).1, (unescape rest).2)
      else
        match rest with
        | [] => ([], false)
        | cn :: rest =>
            if cn < specialCharEscapeShift then ([], false)
            else ((cn - specialCharEscapeShift) :: (unescape rest).1, (unescape rest).2)

theorem unescape_of_ne (h : c ≠ specialCharEscapePrefix) :
    unescape (c :: rest) = (c :: (unescape rest).1, (unescape rest).2) := by
  conv_lhs => unfold unescape
  exact if_pos h

theorem unescape_prefix : unescape (specialCharEscapePrefix :: c :: rest) =
    if c < specialCharEscapeShift then ([], false)
    else ((c - specialCharEscapeShift) :: (unescape rest).1, (unescape rest).2) := by
  conv_lhs => unfold unescape
  exact if_neg fun h => h rfl

theorem unescape_prefix_last : unescape [specialCharEscapePrefix] = ([], false) := rfl

@[simp] theorem escape_nil : escape [] = [] := rfl

theorem escape_cons : escape (c :: bytes) = escapeByte c ++ escape bytes := rfl

theorem escape_append : escape (bytes ++ bytes') = escape bytes ++ escape bytes' :=
  List.flatMap_append

/-- Escaping at most doubles. -/
theorem length_escape_le : (escape bytes).length ≤ bytes.length * 2 := by
  induction bytes with
  | nil => exact Nat.le_refl _
  | cons c bytes ih =>
      have hbyte : (escapeByte c).length ≤ 2 := by
        unfold escapeByte
        split <;> simp
      rw [escape_cons, List.length_append, List.length_cons]
      omega

/-- **What an escaped value is made of**: the prefix, and nothing else that
would need escaping. -/
theorem mem_escape (h : c ∈ escape bytes) :
    c = specialCharEscapePrefix ∨ c ≥ specialCharNoescapeMin := by
  obtain ⟨b, -, hc⟩ := List.mem_flatMap.mp h
  unfold escapeByte at hc
  split at hc
  · rename_i hb
    rw [List.mem_singleton.mp hc]
    exact .inr hb
  · rename_i hb
    rcases List.mem_cons.mp hc with rfl | hc
    · exact .inl rfl
    · rw [List.mem_singleton.mp hc]
      refine .inr ?_
      simp only [specialCharNoescapeMin, specialCharEscapeShift, ge_iff_le,
        UInt8.le_iff_toNat_le, UInt8.toNat_add, UInt8.reduceToNat] at hb ⊢
      omega

theorem tab_notMem_escape : tab ∉ escape bytes := fun h => absurd (mem_escape h) (by decide)

theorem newline_notMem_escape : newline ∉ escape bytes := fun h =>
  absurd (mem_escape h) (by decide)

theorem nul_notMem_escape : (0 : UInt8) ∉ escape bytes := fun h =>
  absurd (mem_escape h) (by decide)

theorem unescape_escapeByte :
    unescape (escapeByte c ++ rest) = (c :: (unescape rest).1, (unescape rest).2) := by
  unfold escapeByte
  split
  · rename_i hc
    have hne : c ≠ specialCharEscapePrefix := by
      rintro rfl
      exact absurd hc (by decide)
    rw [List.singleton_append, unescape_of_ne hne]
  · rename_i hc
    have hshift : ¬c + specialCharEscapeShift < specialCharEscapeShift := by
      simp only [specialCharNoescapeMin, specialCharEscapeShift, ge_iff_le, UInt8.lt_iff_toNat_lt,
        UInt8.le_iff_toNat_le, UInt8.toNat_add, UInt8.reduceToNat] at hc ⊢
      omega
    rw [List.cons_append, List.singleton_append, unescape_prefix, if_neg hshift,
      UInt8.add_sub_cancel]

/-- **Unescaping undoes escaping.** -/
theorem unescape_escape (bytes : Bytes) : unescape (escape bytes) = (bytes, true) := by
  induction bytes with
  | nil => rfl
  | cons c bytes ih => rw [escape_cons, unescape_escapeByte, ih]

/-- What is read back is no longer than what was read. -/
theorem length_unescape_le (bytes : Bytes) : (unescape bytes).1.length ≤ bytes.length := by
  fun_induction unescape bytes with
  | case1 => exact Nat.le_refl _
  | case2 c rest hc ih => simpa using ih
  | case3 => exact Nat.zero_le _
  | case4 => exact Nat.zero_le _
  | case5 c _ cn rest _ ih =>
      simp only [List.length_cons]
      omega

/-! ## The code on memory -/

/-- Writing one byte. -/
theorem update_eq_put : Function.update mem wp c = Memory.put mem wp [c] := by
  funext i
  rcases lt_trichotomy i wp with h | rfl | h
  · rw [Memory.put_of_lt h, Function.update_of_ne (by omega)]
  · have hput := @Memory.put_add _ mem i 0 [c] (by simp)
    rw [Nat.add_zero] at hput
    rw [hput, Function.update_self, List.getElem_cons_zero]
  · rw [Memory.put_of_ge (by simp; omega), Function.update_of_ne (by omega)]

/-- `escape_string` writes the escaped value. -/
theorem escapeString_eq :
    escapeString mem wp bytes = (Memory.put mem wp (escape bytes), wp + (escape bytes).length) := by
  induction bytes generalizing mem wp with
  | nil => simp [escapeString]
  | cons c bytes ih =>
      rw [escapeString, escape_cons, escapeByte]
      split
      · rw [ih, update_eq_put, List.singleton_append, ← Memory.put_cons, List.length_cons,
          Nat.add_assoc, Nat.add_comm 1]
      · rw [ih, update_eq_put, update_eq_put, List.cons_append, List.singleton_append,
          ← Memory.put_cons, ← Memory.put_cons, List.length_cons, List.length_cons, Nat.add_assoc,
          Nat.add_assoc]
        congr 2
        omega

/-- And puts it behind what a buffer holds. -/
theorem StringBuffer.contents_escapeString {b : StringBuffer} :
    (b.escapeString bytes).contents = b.contents ++ escape bytes := by
  have hroom := @StringBuffer.makeSpace_room b (bytes.length * 2)
  have hlen := @length_escape_le bytes
  simp only [StringBuffer.escapeString, escapeString_eq, Nat.add_sub_cancel_left]
  exact StringBuffer.contents_spaceWrote rfl rfl (by simp only; omega) rfl

theorem StringBuffer.contents_appendUint32 {b : StringBuffer} {v : UInt32} :
    (b.appendUint32 v).contents = b.contents ++ Decimal.ofNat v.toNat := by
  have hdigits : (Decimal.ofNat v.toNat).length ≤ 10 :=
    Decimal.length_ofNat_le (by decide) (Nat.lt_trans v.toNat_lt (by decide))
  exact StringBuffer.contents_fill (by omega)

/-- **`unescape_string` in place.** With the write pointer at or before the
read pointer it leaves what the code on byte strings says, and nothing else
changes. -/
theorem unescapeString_eq (h : wp ≤ start) :
    unescapeString n mem wp start =
      (Memory.put mem wp (unescape (Memory.slice mem start n)).1,
        wp + (unescape (Memory.slice mem start n)).1.length,
        (unescape (Memory.slice mem start n)).2) := by
  -- a byte written behind the read pointer is not read any more
  have hafter : ∀ {mem : ℕ → UInt8} {wp start k n : ℕ} {c : UInt8}, wp ≤ start → 0 < k →
      Memory.slice (Function.update mem wp c) (start + k) n = Memory.slice mem (start + k) n := by
    intro mem wp start k n c hwp hk
    refine Memory.slice_congr fun i hi _ => ?_
    exact Function.update_of_ne (by omega) _ _
  induction n using Nat.strong_induction_on generalizing mem wp start with
  | _ n ih =>
    cases n with
    | zero => simp [unescapeString, unescape]
    | succ n =>
        rw [unescapeString.eq_def, Memory.slice_succ]
        dsimp only
        by_cases hc : mem start = specialCharEscapePrefix
        · rw [if_neg (not_not_intro hc), hc]
          cases n with
          | zero => simp [unescape_prefix_last]
          | succ n =>
              rw [Memory.slice_succ, unescape_prefix]
              dsimp only
              split
              · simp
              · rw [ih n (by omega) (by omega), hafter h Nat.two_pos, update_eq_put,
                  ← Memory.put_cons, List.length_cons, Nat.add_assoc, Nat.add_comm 1]
        · rw [if_pos hc, unescape_of_ne hc, ih n (by omega) (by omega), hafter h Nat.one_pos,
            update_eq_put, ← Memory.put_cons, List.length_cons, Nat.add_assoc, Nat.add_comm 1]

/-- **Escape, and unescape where it lies.** Wherever an escaped value is in
memory, `unescape_string` over itself returns true and leaves the value
there, shorter or as long; the rest of memory stays. -/
theorem unescapeString_escape (mem : ℕ → UInt8) (start : ℕ) (bytes : Bytes)
    (h : Memory.slice mem start (escape bytes).length = escape bytes) :
    ∃ mem', unescapeString (escape bytes).length mem start start =
        (mem', start + bytes.length, true) ∧
      Memory.slice mem' start bytes.length = bytes ∧ bytes.length ≤ (escape bytes).length ∧
      ∀ i, (i < start ∨ start + bytes.length ≤ i) → mem' i = mem i := by
  refine ⟨Memory.put mem start bytes, ?_, Memory.slice_put_self, ?_, fun i hi => ?_⟩
  · rw [unescapeString_eq (Nat.le_refl _), h, unescape_escape]
  · have hle := length_unescape_le (escape bytes)
    rwa [unescape_escape] at hle
  · rcases hi with hi | hi
    · exact Memory.put_of_lt hi
    · exact Memory.put_of_ge hi

/-- A tab and a letter, three bytes into memory: the tab was sent as two
bytes, and the letter moves up by one. -/
theorem unescapeString_escape_tab :
    let mem := Memory.put (fun _ => 7) 3 (escape [9, 65])
    ∃ mem', unescapeString (escape [9, 65]).length mem 3 3 = (mem', 5, true) ∧
      Memory.slice mem' 3 2 = [9, 65] ∧ 2 ≤ (escape [9, 65]).length ∧
      ∀ i, (i < 3 ∨ 5 ≤ i) → mem' i = Memory.put (fun _ => 7) 3 (escape [9, 65]) i :=
  unescapeString_escape (Memory.put (fun _ => 7) 3 (escape [9, 65])) 3 [9, 65]
    Memory.slice_put_self

end Dena
end Rinha
