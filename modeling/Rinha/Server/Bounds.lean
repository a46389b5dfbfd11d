import Rinha.Server.Rendering
import Rinha.Server.Model.IoThreadPool
import Rinha.Server.Model.Reads
/-!
# Where the parser reads

What the parser makes of a buffer is made of the bytes it reads
(`fromHttp_of_reads`), and all of them are in the text but the id and the
type: the one stands at a fixed index near the front, the other eleven
bytes behind a comma that may be the last byte of the buffer.
-/

namespace Rinha

variable {v v' body body' http http' : StringView} {p q : ℕ → Bool} {indices : List ℕ} {i : ℕ}

/-! ## What is read decides -/

/-- The two views are of one size, and the same at the indices. -/
structure StringView.SameAt (v v' : StringView) (reads : List ℕ) : Prop where
  size : v.size = v'.size
  get : ∀ i ∈ reads, v.get i = v'.get i

theorem StringView.SameAt.mono {reads reads' : List ℕ} (h : v.SameAt v' reads)
    (hsub : reads' ⊆ reads) : v.SameAt v' reads' :=
  ⟨h.size, fun i hi => h.get i (hsub hi)⟩

/-- A search has looked at all that decides it. -/
theorem find?_lookedAt (h : ∀ i ∈ lookedAt p indices, p i = q i) :
    indices.find? p = indices.find? q := by
  induction indices with
  | nil => rfl
  | cons i indices ih =>
      have hi : p i = q i := h i (by simp [lookedAt])
      rw [List.find?_cons, List.find?_cons, ← hi]
      cases hp : p i with
      | true => rfl
      | false => exact ih fun j hj => h j (by simp [lookedAt, hp, hj])

theorem all_lookedAt (h : ∀ i ∈ lookedAt (fun i => !p i) indices, p i = q i) :
    indices.all p = indices.all q := by
  induction indices with
  | nil => rfl
  | cons i indices ih =>
      have hi : p i = q i := h i (by simp [lookedAt])
      rw [List.all_cons, List.all_cons, ← hi]
      cases hp : p i with
      | false => rfl
      | true => rw [ih fun j hj => h j (by simp [lookedAt, hp, hj])]

theorem lookedAt_subset : lookedAt p indices ⊆ indices := by
  induction indices with
  | nil => exact List.Subset.refl []
  | cons i indices ih =>
      rw [lookedAt]
      refine List.cons_subset_cons i ?_
      split
      · exact List.nil_subset _
      · exact ih

namespace StringView

theorem SameAt.find {c : UInt8} {pos : ℕ} (h : v.SameAt v' (v.findReads c pos)) :
    v.find c pos = v'.find c pos := by
  rw [StringView.find, StringView.find, ← h.size,
    find?_lookedAt fun i hi => by rw [h.get i hi]]

theorem SameAt.hasAt {s : Bytes} (h : v.SameAt v' (v.hasAtReads s i)) :
    v.hasAt s i = v'.hasAt s i := by
  rw [StringView.hasAt, StringView.hasAt, ← h.size]
  by_cases hfits : i + s.length ≤ v.size
  · rw [all_lookedAt fun k hk => ?_]
    rw [h.get (i + k)]
    rw [hasAtReads, if_pos hfits]
    exact List.mem_map_of_mem hk
  · rw [decide_eq_false hfits, Bool.false_and, Bool.false_and]

theorem SameAt.findText {s : Bytes} (h : v.SameAt v' (v.findTextReads s)) :
    v.findText s = v'.findText s := by
  rw [StringView.findText, StringView.findText, ← h.size, find?_lookedAt fun i hi => ?_]
  exact (h.mono fun j hj => List.mem_flatMap.mpr ⟨i, hi, hj⟩).hasAt

end StringView

theorem substringToIntLoop_of_reads (h : body.SameAt body' (substringToIntReads body indices))
    (x : Int32) :
    substringToIntLoop body indices x = substringToIntLoop body' indices x := by
  induction indices generalizing x with
  | nil => rfl
  | cons i indices ih =>
      have hi := h.get i (by simp [substringToIntReads])
      rw [substringToIntLoop, substringToIntLoop, ← hi]
      by_cases hd : isDigit (body.get i) = true
      · rw [ih (h.mono fun j hj => by simp [substringToIntReads, hd, hj])]
      · simp [hd]

theorem copyDescription_of_reads {start stop : ℕ}
    (h : body.SameAt body' (List.range' start (stop - start))) (array : Vector UInt8 11) :
    copyDescription body start stop array = copyDescription body' start stop array := by
  unfold copyDescription
  congr 1
  funext k
  split
  · exact h.get _ (List.mem_range'_1.mpr (by omega))
  · rfl

/-- **`ParseJsonBody` is decided by what it reads.** -/
theorem parseJsonBody_of_reads (h : body.SameAt body' (parseJsonBodyReads body))
    (t : Transaction) : parseJsonBody body t = parseJsonBody body' t := by
  have hcomma : body.find 44 numBeginIdx = body'.find 44 numBeginIdx :=
    (h.mono fun i hi => by simp [parseJsonBodyReads, hi]).find
  have hdot : body.find 46 numBeginIdx = body'.find 46 numBeginIdx :=
    (h.mono fun i hi => by simp [parseJsonBodyReads, hi]).find
  -- return by return: the reads up to each decide whether it is taken
  unfold parseJsonBody
  simp only [← hcomma, ← hdot, ← h.size]
  by_cases hnum : body.find 46 numBeginIdx < body.find 44 numBeginIdx ∨
      body.find 44 numBeginIdx = npos
  · rw [if_pos hnum, if_pos hnum]
  have hint : substringToInt body numBeginIdx (body.find 44 numBeginIdx) =
      substringToInt body' numBeginIdx (body.find 44 numBeginIdx) :=
    substringToIntLoop_of_reads (h.mono fun i hi => by simp [parseJsonBodyReads, hnum, hi]) 0
  rw [if_neg hnum, if_neg hnum, ← hint]
  cases hdigits : (substringToInt body numBeginIdx (body.find 44 numBeginIdx)).1 with
  | false => rfl
  | true =>
      have hget := h.get (body.find 44 numBeginIdx + 11)
        (by simp [parseJsonBodyReads, hnum, hdigits])
      simp only [← hget]
      by_cases htipo : body.get (body.find 44 numBeginIdx + 11) ≠ 99 ∧
          body.get (body.find 44 numBeginIdx + 11) ≠ 100
      · simp only [if_pos htipo]
      have hquote : body.find 34 (body.find 44 numBeginIdx + 11 + 18) =
          body'.find 34 (body.find 44 numBeginIdx + 11 + 18) :=
        (h.mono fun i hi => by simp [parseJsonBodyReads, hnum, hdigits, htipo, hi]).find
      simp only [if_neg htipo, ← hquote]
      generalize hend : body.find 34 (body.find 44 numBeginIdx + 11 + 18) = endDescIdx
      by_cases hnone : endDescIdx = npos
      · simp only [if_pos hnone]
      by_cases hlast : endDescIdx + 2 ≠ body.size
      · simp only [if_neg hnone, if_pos (Or.inl hlast)]
      have hbrace := h.get (endDescIdx + 1)
        (by simp [parseJsonBodyReads, hnum, hdigits, htipo, hend, hnone, hlast])
      simp only [if_neg hnone, ← hbrace]
      by_cases hbad : endDescIdx + 2 ≠ body.size ∨ body.get (endDescIdx + 1) ≠ 125
      · simp only [if_pos hbad]
      simp only [if_neg hbad]
      by_cases hlen : endDescIdx - (body.find 44 numBeginIdx + 11 + 18) > 10 ∨
          endDescIdx - (body.find 44 numBeginIdx + 11 + 18) < 1
      · simp only [if_pos hlen]
      have hdesc : body.SameAt body' (List.range' (body.find 44 numBeginIdx + 11 + 18)
          (endDescIdx - (body.find 44 numBeginIdx + 11 + 18))) := h.mono fun i hi => by
        rw [not_or, not_not] at hbad
        simp [parseJsonBodyReads, hnum, hdigits, htipo, hend, hnone, hbad, hi]
        omega
      simp only [if_neg hlen, copyDescription_of_reads hdesc]

/-- **`FromHttp` is decided by what it reads.** -/
theorem fromHttp_of_reads (h : http.SameAt http' (fromHttpReads http)) (r : Request) :
    fromHttp http r = fromHttp http' r := by
  have hverb : http.startsWith kGetVerb = http'.startsWith kGetVerb :=
    (h.mono fun i hi => by simp [fromHttpReads, hi]).hasAt
  unfold fromHttp
  rw [← hverb]
  cases hget : http.startsWith kGetVerb with
  | true =>
      have hid := h.get 14 (by simp [fromHttpReads, hget])
      rw [if_pos rfl, if_pos rfl, hid]
  | false =>
      have hid := h.get 15 (by simp [fromHttpReads, hget])
      rw [if_neg Bool.false_ne_true, if_neg Bool.false_ne_true, ← hid]
      cases hatoi : simpleAtoi (http.get 15) with
      | none => rfl
      | some id =>
          have hfind : http.findText kPostBeginBody = http'.findText kPostBeginBody :=
            (h.mono fun i hi => by simp [fromHttpReads, hget, hatoi, hi]).findText
          simp only [← hfind]
          by_cases hbegin : http.findText kPostBeginBody = npos
          · rw [if_pos hbegin, if_pos hbegin]
          have hbody : (http.suffix (http.findText kPostBeginBody + 4)).SameAt
              (http'.suffix (http.findText kPostBeginBody + 4))
              (parseJsonBodyReads (http.suffix (http.findText kPostBeginBody + 4))) := {
            size := by rw [StringView.suffix, StringView.suffix, h.size]
            get := fun i hi => by
              have hbyte := h.get (http.findText kPostBeginBody + 4 + i)
                (by simp [fromHttpReads, hget, hatoi, hbegin, hi])
              simpa [StringView.get, StringView.suffix, Nat.add_assoc] using hbyte }
          rw [if_neg hbegin, if_neg hbegin, parseJsonBody_of_reads hbody]

/-! ## What is read is in the text -/

theorem lt_of_mem_lookedAt {n pos : ℕ} (h : i ∈ lookedAt p (List.range' pos (n - pos))) :
    i < n := by
  have := List.mem_range'_1.mp (lookedAt_subset h)
  omega

theorem lt_of_mem_hasAtReads {s : Bytes} {k : ℕ} (h : i ∈ v.hasAtReads s k) : i < v.size := by
  unfold StringView.hasAtReads at h
  split at h
  · obtain ⟨j, hj, rfl⟩ := List.mem_map.mp h
    have := List.mem_range.mp (lookedAt_subset hj)
    omega
  · cases h

theorem lt_of_mem_findTextReads {s : Bytes} (h : i ∈ v.findTextReads s) : i < v.size := by
  obtain ⟨k, -, hi⟩ := List.mem_flatMap.mp h
  exact lt_of_mem_hasAtReads hi

theorem mem_of_mem_substringToIntReads (h : i ∈ substringToIntReads body indices) :
    i ∈ indices := by
  induction indices with
  | nil => exact h
  | cons j indices ih =>
      rw [substringToIntReads, List.mem_cons] at h
      rcases h with rfl | h
      · exact List.mem_cons_self
      · split at h
        · cases h
        · exact List.mem_cons_of_mem _ (ih h)

/-- The parser comes to look for the type. -/
structure SeeksTipo (body : StringView) : Prop where
  dot : ¬body.find 46 numBeginIdx < numEndIdx body
  comma : numEndIdx body ≠ npos
  digits : (substringToInt body numBeginIdx (numEndIdx body)).1 = true

/-- **The reads of `ParseJsonBody`** are in the text, but for the type. -/
theorem lt_size_of_mem_parseJsonBodyReads (h : i ∈ parseJsonBodyReads body) :
    i < body.size ∨ SeeksTipo body ∧ i = numEndIdx body + 11 := by
  unfold parseJsonBodyReads at h
  -- return by return: what the earlier tests found bounds the reads behind them
  simp only [List.mem_append] at h
  rcases h with (h | h) | h
  · exact .inl (lt_of_mem_lookedAt h)
  · exact .inl (lt_of_mem_lookedAt h)
  split at h
  · cases h
  rename_i hnum
  rw [not_or] at hnum
  rcases List.mem_append.mp h with h | h
  · have := List.mem_range'_1.mp (mem_of_mem_substringToIntReads h)
    have := StringView.find_lt hnum.2
    exact .inl (by omega)
  split at h
  · cases h
  rename_i hdigits
  rcases List.mem_append.mp h with h | h
  · exact .inr ⟨⟨hnum.1, hnum.2, by simpa [numEndIdx] using hdigits⟩, List.mem_singleton.mp h⟩
  split at h
  · cases h
  rcases List.mem_append.mp h with h | h
  · exact .inl (lt_of_mem_lookedAt h)
  split at h
  · cases h
  rename_i hquote
  split at h
  · cases h
  rename_i hlast
  have := StringView.find_lt hquote
  rcases List.mem_append.mp h with h | h
  · have := List.mem_singleton.mp h
    exact .inl (by omega)
  split at h
  · cases h
  split at h
  · cases h
  have := List.mem_range'_1.mp h
  exact .inl (by omega)

theorem mem_parseJsonBodyReads (h : SeeksTipo body) :
    numEndIdx body + 11 ∈ parseJsonBodyReads body := by
  have hnum : ¬(body.find 46 numBeginIdx < body.find 44 numBeginIdx ∨
      body.find 44 numBeginIdx = npos) := not_or.mpr ⟨h.dot, h.comma⟩
  have hdigits : (substringToInt body numBeginIdx (body.find 44 numBeginIdx)).1 = true := h.digits
  simp [parseJsonBodyReads, hnum, hdigits, numEndIdx]

/-- It does where digits and a comma stand behind the tenth byte. -/
theorem seeksTipo_iff (hsize : body.size ≤ npos) :
    SeeksTipo body ↔ ∃ before digits rest, body.text = before ++ digits ++ 44 :: rest ∧
      before.length = 10 ∧ (∀ b ∈ digits, isDigit b = true) ∧
      numEndIdx body = (before ++ digits).length := by
  constructor
  · intro h
    obtain ⟨a, b, htext, hnum, hten, -⟩ := StringView.find_split h.comma
    have htake : (a.take 10).length = 10 := List.length_take_of_le hten
    have hdrop : 10 + (a.drop 10).length = a.length := by
      rw [List.length_drop]
      exact Nat.add_sub_cancel' hten
    have hint := @substringToInt_eq body (a.take 10) (44 :: b) (a.drop 10) (by simpa using htext)
    rw [htake, hdrop, ← hnum] at hint
    refine ⟨a.take 10, a.drop 10, b, by simpa using htext, htake, ?_, ?_⟩
    · exact List.all_eq_true.mp (hint.1.symm.trans h.digits)
    · rw [List.take_append_drop]
      exact hnum
  · rintro ⟨before, digits, rest, htext, hbefore, hdigits, hnum⟩
    have hdrop : (before ++ digits).drop numBeginIdx = digits := by
      rw [show numBeginIdx = before.length from hbefore.symm, List.drop_left]
    have hlen : (before ++ digits).length < body.size := by
      rw [← StringView.length_text, htext]
      simp
    have hint := substringToInt_eq htext
    rw [hbefore, show 10 + digits.length = numEndIdx body by rw [hnum]; simp [hbefore]] at hint
    exact {
      dot := by
        have hno : 46 ∉ (before ++ digits).drop numBeginIdx := by
          rw [hdrop]
          exact fun hmem => absurd (hdigits 46 hmem) (by decide)
        rw [hnum]
        exact Nat.not_lt_of_le (StringView.le_find htext hno (by omega))
      comma := by omega
      digits := hint.1.trans (List.all_eq_true.mpr hdigits) }

/-- The parser comes to the body of a transaction. -/
structure SeeksBody (http : StringView) : Prop where
  verb : http.startsWith kGetVerb = false
  id : isDigit (http.get 15) = true
  begins : http.findText kPostBeginBody ≠ npos

/-- Where the type of a transaction is read. -/
def tipoIdx (http : StringView) : ℕ :=
  http.findText kPostBeginBody + 4 + (numEndIdx (jsonBody http) + 11)

/-- **The reads of `FromHttp`** are in the text, but for the id and the
type. -/
theorem lt_size_of_mem_fromHttpReads (h : i ∈ fromHttpReads http) :
    i < http.size ∨ i ≤ 15 ∨ SeeksBody http ∧ SeeksTipo (jsonBody http) ∧ i = tipoIdx http := by
  unfold fromHttpReads at h
  rcases List.mem_append.mp h with h | h
  · exact .inl (lt_of_mem_hasAtReads h)
  split at h
  · rw [List.mem_singleton.mp h]
    exact .inr (.inl (by decide))
  rename_i hverb
  rcases List.mem_append.mp h with h | h
  · rw [List.mem_singleton.mp h]
    exact .inr (.inl (le_refl 15))
  split at h
  · cases h
  rename_i id hid
  rcases List.mem_append.mp h with h | h
  · exact .inl (lt_of_mem_findTextReads h)
  split at h
  · cases h
  rename_i hbegin
  obtain ⟨k, hk, rfl⟩ := List.mem_map.mp h
  rcases lt_size_of_mem_parseJsonBodyReads hk with hlt | ⟨hseeks, rfl⟩
  · simp only [StringView.suffix] at hlt
    exact .inl (by omega)
  · refine .inr (.inr ⟨⟨by simpa using hverb, ?_, hbegin⟩, hseeks, rfl⟩)
    by_contra hdigit
    rw [simpleAtoi, if_neg hdigit] at hid
    cases hid

theorem mem_fromHttpReads (h : SeeksBody http) (hseeks : SeeksTipo (jsonBody http)) :
    tipoIdx http ∈ fromHttpReads http := by
  have hmem := mem_parseJsonBodyReads hseeks
  rw [jsonBody] at hmem
  simp [fromHttpReads, h.verb, simpleAtoi, h.id, h.begins, tipoIdx, jsonBody, hmem]

/-! ## The end of the buffer -/

/-- The comma of a transaction is too near to the end of the buffer for the
type to be in it. -/
def CommaAtEnd (text : Bytes) : Prop :=
  ∃ header before digits rest,
    text = header ++ Text.crlf2 ++ (before ++ digits ++ 44 :: rest) ∧
    (∀ i, i < header.length → ¬Text.crlf2 <+: text.drop i) ∧ ¬kGetVerb <+: text ∧
    isDigit (text.getD 15 0) = true ∧ before.length = 10 ∧ (∀ b ∈ digits, isDigit b = true) ∧
    kBufferTotalSize ≤ (header ++ Text.crlf2 ++ before ++ digits).length + 11

theorem StringView.get_eq_getD (h : i < v.size) : v.get i = v.text.getD i 0 := by
  rw [List.getD_eq_getElem?_getD, getElem?_text h, Option.getD_some]

/-- **What puts the type past the end.** -/
theorem commaAtEnd_iff (hsize : http.size ≤ kBufferWrittableSize) :
    CommaAtEnd http.text ↔
      SeeksBody http ∧ SeeksTipo (jsonBody http) ∧ kBufferTotalSize ≤ tipoIdx http := by
  have hbody : (jsonBody http).size ≤ npos :=
    Nat.le_trans (Nat.sub_le _ _) (Nat.le_trans hsize (by decide))
  have htotal : kBufferTotalSize = 1025 := rfl
  have hcrlf : Text.crlf2.length = 4 := rfl
  have hdrop : ∀ header rest : Bytes,
      (header ++ Text.crlf2 ++ rest).drop (header.length + 4) = rest := fun header rest => by
    rw [← hcrlf, ← List.length_append, List.drop_left]
  constructor
  · rintro ⟨header, before, digits, rest, htext, hfirst, hverb, hid, hbefore, hdigits, hlen⟩
    have hfind : http.findText kPostBeginBody = header.length :=
      StringView.findText_eq htext (by decide) hfirst
    have hsuffix : (jsonBody http).text = before ++ digits ++ 44 :: rest := by
      rw [jsonBody, StringView.text_suffix, hfind, htext, hdrop]
    -- so this comma is the one that the search finds
    have hcomma : 44 ∉ (before ++ digits).drop numBeginIdx := by
      rw [show numBeginIdx = before.length from hbefore.symm, List.drop_left]
      exact fun hmem => absurd (hdigits 44 hmem) (by decide)
    have hnum : numEndIdx (jsonBody http) = (before ++ digits).length :=
      StringView.find_eq hsuffix (by simp [numBeginIdx, hbefore]) hcomma
    have hlong := congrArg List.length htext
    simp only [List.length_append, List.length_cons, StringView.length_text] at hlong hlen
    refine ⟨⟨?_, ?_, ?_⟩, ?_, ?_⟩
    · rwa [← Bool.not_eq_true, StringView.startsWith_iff]
    · rwa [StringView.get_eq_getD (by omega)]
    · rw [hfind, npos]
      rw [kBufferWrittableSize] at hsize
      omega
    · exact (seeksTipo_iff hbody).mpr ⟨before, digits, rest, hsuffix, hbefore, hdigits, hnum⟩
    · rw [tipoIdx, hfind, hnum, List.length_append]
      omega
  · rintro ⟨hbegin, hseeks, hlen⟩
    obtain ⟨header, rest, htext, hfind, hfirst⟩ := StringView.findText_split hbegin.begins
    obtain ⟨before, digits, rest', hsplit, hbefore, hdigits, hnum⟩ :=
      (seeksTipo_iff hbody).mp hseeks
    have hrest : rest = before ++ digits ++ 44 :: rest' := by
      rw [← hsplit, jsonBody, StringView.text_suffix, hfind, htext]
      exact (hdrop header rest).symm
    have hlate : kBufferTotalSize ≤ (header ++ Text.crlf2 ++ before ++ digits).length + 11 := by
      rw [tipoIdx, hfind, hnum] at hlen
      simp only [List.length_append] at hlen ⊢
      omega
    have hlong := congrArg List.length htext
    rw [hrest] at hlong
    simp only [List.length_append, List.length_cons, StringView.length_text] at hlong hlate
    refine ⟨header, before, digits, rest', by rw [htext, hrest]; rfl, hfirst, ?_, ?_, hbefore,
      hdigits, by simpa only [List.length_append] using hlate⟩
    · rw [← StringView.startsWith_iff, hbegin.verb]
      exact Bool.false_ne_true
    · rw [← StringView.get_eq_getD (by rw [hlong]; omega)]
      exact hbegin.id

/-- **The parser reads inside the buffer** if and only if no comma of a
transaction is too near to its end. -/
theorem reads_inside_iff (buffer : ℕ → UInt8) (n : ℕ) (hn : n ≤ kBufferWrittableSize) :
    (∀ i ∈ fromHttpReads (viewOf buffer n), i < kBufferTotalSize) ↔
      ¬CommaAtEnd (viewOf buffer n).text := by
  have hsize := Nat.le_trans (size_viewOf_le buffer n) hn
  rw [commaAtEnd_iff hsize]
  constructor
  · rintro hinside ⟨hbegin, hseeks, hlen⟩
    exact Nat.not_lt_of_le hlen (hinside _ (mem_fromHttpReads hbegin hseeks))
  · intro hnot i hi
    rw [kBufferTotalSize, kBufferWrittableSize] at *
    rcases lt_size_of_mem_fromHttpReads hi with hlt | hle | ⟨hbegin, hseeks, rfl⟩
    · omega
    · omega
    · exact Nat.lt_of_not_le fun hlen => hnot ⟨hbegin, hseeks, hlen⟩

/-- A request line, a blank line at index 1000, and a comma at index
`10 + 1004`. -/
def lateComma : ℕ → UInt8 := fun i =>
  if i < 16 then (transacoesPath 49).getD i 0
  else if i < 1000 then 97
  else if i < 1004 then Text.crlf2.getD (i - 1000) 0
  else if i < 1014 then 32 else 44

/-- As much of it as is too short to have a comma. -/
theorem reads_inside_short :
    (fromHttpReads (viewOf lateComma 1013)).all (fun i => decide (i < kBufferTotalSize)) =
      true := by
  have hinside := (reads_inside_iff lateComma 1013 (by decide)).mpr ?_
  · exact List.all_eq_true.mpr fun i hi => decide_eq_true (hinside i hi)
  rintro ⟨header, before, digits, rest, htext, -, -, -, -, -, hlen⟩
  have hshort := size_viewOf_le lateComma 1013
  rw [← StringView.length_text, htext] at hshort
  simp only [List.length_append, List.length_cons] at hshort hlen
  have htotal : kBufferTotalSize = 1025 := rfl
  omega

/-- **The type is looked for past the buffer.** -/
theorem not_reads_inside_comma :
    1025 ∈ fromHttpReads (viewOf lateComma 1015) ∧ ¬1025 < kBufferTotalSize :=
  ⟨by decide +kernel, by decide⟩

end Rinha
