import Rinha.Server.Model.RequestProcessor
import Rinha.Server.Parse
/-!
# Views as text

A view is read by index, and a request is written as a text. `text` is
what a view shows, and each operation on views is the one on byte strings
there: a suffix drops, a prefix is a prefix, and a search stops where the
text comes apart at what it looks for.
-/

namespace Rinha

/-- The indices before `k`, `k`, and those after. -/
theorem range'_split {s k n : ℕ} (hs : s ≤ k) (hk : k < n) :
    List.range' s (n - s) = List.range' s (k - s) ++ k :: List.range' (k + 1) (n - (k + 1)) := by
  rw [← List.range'_succ, show n - s = (k - s) + (n - (k + 1) + 1) by omega,
    ← List.range'_append_1, show s + (k - s) = k by omega]

namespace StringView

/-- What a view shows. -/
def text (view : StringView) : Bytes := (List.range view.size).map view.get

variable {v v' : StringView} {a b : Bytes} {c : UInt8} {i k pos : ℕ}

@[simp] theorem length_text : v.text.length = v.size := by simp [text]

theorem getElem?_text (h : i < v.size) : v.text[i]? = some (v.get i) := by simp [text, h]

/-- A text on its own. -/
def ofBytes (bytes : Bytes) : StringView := ⟨fun i => bytes.getD i 0, 0, bytes.length⟩

@[simp] theorem text_ofBytes (bytes : Bytes) : (ofBytes bytes).text = bytes := by
  refine List.ext_getElem (by simp [text, ofBytes]) fun i hi hi' => ?_
  simp [text, get, ofBytes, hi']

theorem same_iff_text : v.Same v' ↔ v.text = v'.text := by
  constructor
  · intro h
    rw [text, text, ← h.size]
    exact List.map_congr_left fun i hi => h.get i (List.mem_range.mp hi)
  · intro h
    have hsize : v.size = v'.size := by rw [← length_text, h, length_text]
    refine ⟨hsize, fun i hi => Option.some.inj ?_⟩
    rw [← getElem?_text hi, h, getElem?_text (hsize ▸ hi)]

theorem text_suffix : (v.suffix k).text = v.text.drop k := by
  refine List.ext_getElem? fun i => ?_
  rw [List.getElem?_drop]
  rcases Nat.lt_or_ge (k + i) v.size with hi | hi
  · rw [getElem?_text hi, getElem?_text (by simp only [suffix]; omega)]
    simp [get, suffix, Nat.add_assoc]
  · rw [List.getElem?_eq_none (by simp only [length_text, suffix]; omega),
      List.getElem?_eq_none (by simpa using hi)]

/-- The byte after `a`. -/
theorem get_of_text (h : v.text = a ++ c :: b) : v.get a.length = c := by
  have hlt : a.length < v.size := by
    rw [← length_text, h]
    simp
  have hget := getElem?_text hlt
  rw [h, List.getElem?_append_right (le_refl _)] at hget
  simpa using hget.symm

/-! ## Searches -/

/-- The first `c` at `pos` or later. -/
theorem find_eq (h : v.text = a ++ c :: b) (hpos : pos ≤ a.length) (hc : c ∉ a.drop pos) :
    v.find c pos = a.length := by
  have hsize : v.size = a.length + (b.length + 1) := by
    rw [← length_text, h]
    simp
  have hbefore : (List.range' pos (a.length - pos)).find? (fun i => v.get i == c) = none := by
    rw [List.find?_eq_none]
    intro i hi hic
    obtain ⟨hlo, hhi⟩ := List.mem_range'_1.mp hi
    have hlt : i < a.length := by omega
    have hget := getElem?_text (v := v) (i := i) (by omega)
    rw [h, List.getElem?_append_left hlt, beq_iff_eq.mp hic] at hget
    exact hc (List.mem_iff_getElem?.mpr ⟨i - pos, by
      rw [List.getElem?_drop, show pos + (i - pos) = i by omega, hget]⟩)
  rw [find, range'_split hpos (by omega), List.find?_append, hbefore, List.find?_cons,
    get_of_text h]
  simp

theorem find_eq_npos (hc : c ∉ v.text.drop pos) : v.find c pos = npos := by
  have hnone : (List.range' pos (v.size - pos)).find? (fun i => v.get i == c) = none := by
    rw [List.find?_eq_none]
    intro i hi hic
    obtain ⟨hlo, hhi⟩ := List.mem_range'_1.mp hi
    refine hc (List.mem_iff_getElem?.mpr ⟨i - pos, ?_⟩)
    rw [List.getElem?_drop, show pos + (i - pos) = i by omega, getElem?_text (by omega),
      beq_iff_eq.mp hic]
  rw [find, hnone, Option.getD_none]

/-- **A search that finds** takes the text apart there. -/
theorem find_split (h : v.find c pos ≠ npos) :
    ∃ a b, v.text = a ++ c :: b ∧ v.find c pos = a.length ∧ pos ≤ a.length ∧ c ∉ a.drop pos := by
  have hmem : c ∈ v.text.drop pos := by
    by_contra hnot
    exact h (find_eq_npos hnot)
  obtain ⟨a, b, hdrop, ha⟩ := List.eq_append_cons_of_mem hmem
  have hpos : pos ≤ v.text.length := by
    by_contra hlt
    rw [List.drop_eq_nil_of_le (by omega)] at hmem
    cases hmem
  have htake : (v.text.take pos).length = pos := List.length_take_of_le hpos
  have htext : v.text = (v.text.take pos ++ a) ++ c :: b := by
    rw [List.append_assoc, ← hdrop, List.take_append_drop]
  have hlast : c ∉ (v.text.take pos ++ a).drop pos := by
    rw [List.drop_append_of_le_length (by omega), List.drop_eq_nil_of_le (by omega)]
    exact ha
  have hle : pos ≤ (v.text.take pos ++ a).length := by
    rw [List.length_append]
    omega
  exact ⟨_, b, htext, find_eq htext hle hlast, hle, hlast⟩

/-- A search passes what does not have the byte. -/
theorem le_find (h : v.text = a ++ b) (hc : c ∉ a.drop pos) (hlen : a.length ≤ npos) :
    a.length ≤ v.find c pos := by
  by_cases hnone : v.find c pos = npos
  · rwa [hnone]
  · obtain ⟨a', b', htext, hfind, hpos, -⟩ := find_split hnone
    rw [hfind]
    by_contra hlt
    have hget : a[a'.length]? = some c := by
      rw [← List.getElem?_append_left (by omega), ← h, htext,
        List.getElem?_append_right (le_refl _)]
      simp
    refine hc (List.mem_iff_getElem?.mpr ⟨a'.length - pos, ?_⟩)
    rw [List.getElem?_drop, show pos + (a'.length - pos) = a'.length by omega, hget]

/-- The text `s` stands where a suffix begins with it. -/
theorem hasAt_iff {s : Bytes} : v.hasAt s i = true ↔ i ≤ v.size ∧ s <+: v.text.drop i := by
  rw [hasAt, Bool.and_eq_true, decide_eq_true_iff, List.all_eq_true]
  constructor
  · rintro ⟨hfit, hall⟩
    refine ⟨by omega, List.prefix_iff_getElem?.mpr fun k hk => ?_⟩
    have hbyte := hall k (List.mem_range.mpr hk)
    rw [beq_iff_eq, ← List.getElem_eq_getD (h := hk)] at hbyte
    rw [List.getElem?_drop, getElem?_text (by omega), hbyte]
  · rintro ⟨hi, hprefix⟩
    have hle := hprefix.length_le
    rw [List.length_drop, length_text] at hle
    refine ⟨by omega, fun k hk => ?_⟩
    have hlt := List.mem_range.mp hk
    have hbyte := List.prefix_iff_getElem?.mp hprefix k hlt
    rw [List.getElem?_drop, getElem?_text (by omega)] at hbyte
    rw [beq_iff_eq, ← List.getElem_eq_getD (h := hlt)]
    exact Option.some.inj hbyte

/-- The first place `s` stands at. -/
theorem findText_eq {s : Bytes} (h : v.text = a ++ s ++ b) (hs : s ≠ [])
    (hfirst : ∀ i, i < a.length → ¬s <+: v.text.drop i) : v.findText s = a.length := by
  have hpos : 0 < s.length := List.length_pos_iff.mpr hs
  have hsize : v.size = a.length + s.length + b.length := by
    rw [← length_text, h, List.length_append, List.length_append]
  have hhere : v.hasAt s a.length = true := by
    refine hasAt_iff.mpr ⟨by omega, ?_⟩
    rw [h, List.append_assoc, List.drop_left]
    exact List.prefix_append s b
  have hfind : (List.range v.size).find? (fun i => v.hasAt s i) = some a.length := by
    refine List.find?_range_eq_some.mpr ⟨hhere, List.mem_range.mpr (by omega), fun i hi => ?_⟩
    rw [Bool.not_eq_true', ← Bool.not_eq_true]
    exact fun hat => hfirst i hi (hasAt_iff.mp hat).2
  rw [findText, hfind, Option.getD_some]

/-- A text that is found takes the view's apart there. -/
theorem findText_split {s : Bytes} (h : v.findText s ≠ npos) :
    ∃ a b, v.text = a ++ s ++ b ∧ v.findText s = a.length ∧
      ∀ i, i < a.length → ¬s <+: v.text.drop i := by
  unfold findText at h ⊢
  cases hfind : (List.range v.size).find? fun i => v.hasAt s i with
  | none => simp [hfind] at h
  | some k =>
      obtain ⟨hat, hk, hbefore⟩ := List.find?_range_eq_some.mp hfind
      obtain ⟨b, hb⟩ := (hasAt_iff.mp hat).2
      have hlen : (v.text.take k).length = k :=
        List.length_take_of_le (by simpa using Nat.le_of_lt (List.mem_range.mp hk))
      refine ⟨v.text.take k, b, ?_, by rw [Option.getD_some, hlen], fun i hi hprefix => ?_⟩
      · rw [List.append_assoc, hb, List.take_append_drop]
      · rw [hlen] at hi
        have hnot := hbefore i hi
        rw [Bool.not_eq_true', ← Bool.not_eq_true, hasAt_iff] at hnot
        exact hnot ⟨by have := List.mem_range.mp hk; omega, hprefix⟩

theorem startsWith_iff {s : Bytes} : v.startsWith s = true ↔ s <+: v.text := by
  rw [startsWith, hasAt_iff, List.drop_zero, and_iff_right (Nat.zero_le _)]

end StringView

/-! ## Buffers -/

/-- **A buffer shows the C string** of what was read into it. -/
theorem text_viewOf (buffer : ℕ → UInt8) (n : ℕ) :
    (viewOf buffer n).text = Text.cstr ((List.range n).map buffer) := by
  cases hfind : (List.range n).find? fun i => buffer i == 0 with
  | none =>
      have hsize : (viewOf buffer n).size = n := by rw [viewOf, hfind, Option.getD_none]
      have hnul : 0 ∉ (List.range n).map buffer := fun hmem => by
        obtain ⟨i, hi, hzero⟩ := List.mem_map.mp hmem
        simpa [hzero] using List.find?_eq_none.mp hfind i hi
      rw [Text.cstr_of_notMem hnul, StringView.text, hsize]
      refine List.map_congr_left fun i hi => ?_
      have hne : i ≠ n := Nat.ne_of_lt (List.mem_range.mp hi)
      simp [StringView.get, viewOf, terminate, hne]
  | some j =>
      have hsize : (viewOf buffer n).size = j := by rw [viewOf, hfind, Option.getD_some]
      obtain ⟨hzero, hj, hbefore⟩ := List.find?_range_eq_some.mp hfind
      have hlt : j < n := List.mem_range.mp hj
      have hrange : List.range n = List.range j ++ j :: List.range' (j + 1) (n - (j + 1)) := by
        have hsplit := range'_split (Nat.zero_le j) hlt
        rwa [Nat.sub_zero, Nat.sub_zero, ← List.range_eq_range', ← List.range_eq_range'] at hsplit
      have hnul : 0 ∉ (List.range j).map buffer := fun hmem => by
        obtain ⟨i, hi, hbyte⟩ := List.mem_map.mp hmem
        simpa [hbyte] using hbefore i (List.mem_range.mp hi)
      rw [hrange, List.map_append, Text.cstr_append hnul, List.map_cons, beq_iff_eq.mp hzero,
        show Text.cstr (0 :: _) = [] from rfl, List.append_nil, StringView.text, hsize]
      refine List.map_congr_left fun i hi => ?_
      have hne : i ≠ n := by
        have := List.mem_range.mp hi
        omega
      simp [StringView.get, viewOf, terminate, hne]

theorem size_viewOf_le (buffer : ℕ → UInt8) (n : ℕ) : (viewOf buffer n).size ≤ n := by
  rw [← StringView.length_text, text_viewOf, Text.cstr]
  refine Nat.le_trans (List.takeWhile_sublist _).length_le ?_
  simp

end Rinha
