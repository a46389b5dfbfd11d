import Rinha.Server.Model.FromHttp
/-!
# What the parser accepts

`ParseJsonBody` runs through its tests with the transaction half written.
`Accepted` is what they ask of the body, all together, and
`parseJsonBody_snd` what an accepted body leaves. Each test that passes
has looked inside the text, so acceptance depends on the text alone,
though the parser indexes past it.
-/

namespace Rinha

variable {body body' : StringView} {t t' : Transaction}

/-! ## Acceptance -/

/-- Where the amount ends. -/
def numEndIdx (body : StringView) : ℕ := body.find 44 numBeginIdx

/-- Where the description starts, and where it ends. -/
def startDescIdx (body : StringView) : ℕ := numEndIdx body + 11 + 18
def endDescIdx (body : StringView) : ℕ := body.find 34 (startDescIdx body)

/-- What `ParseJsonBody` asks of a body. -/
structure Accepted (body : StringView) : Prop where
  dot : ¬ body.find 46 numBeginIdx < numEndIdx body
  comma : numEndIdx body ≠ npos
  digits : (substringToInt body numBeginIdx (numEndIdx body)).1 = true
  tipo : body.get (numEndIdx body + 11) = 99 ∨ body.get (numEndIdx body + 11) = 100
  quote : endDescIdx body ≠ npos
  last : endDescIdx body + 2 = body.size
  brace : body.get (endDescIdx body + 1) = 125
  nonempty : 1 ≤ endDescIdx body - startDescIdx body
  fits : endDescIdx body - startDescIdx body ≤ 10

/-- The signed amount a body names. -/
def amount (body : StringView) : Int32 :=
  let value := (substringToInt body numBeginIdx (numEndIdx body)).2
  if body.get (numEndIdx body + 11) = 100 then value * -1 else value

/-- The transaction an accepted body leaves. -/
def readTransaction (body : StringView) (t : Transaction) : Transaction where
  value := amount body
  description := copyDescription body (startDescIdx body) (endDescIdx body) t.description
  timestamp := t.timestamp

/-- **`ParseJsonBody`**, by what it asks. The tests come one after the
other, and each that fails returns. -/
theorem parseJsonBody_cases (body : StringView) (t : Transaction) :
    (¬ Accepted body ∧ (parseJsonBody body t).1 = false) ∨
      (Accepted body ∧ parseJsonBody body t = (true, readTransaction body t)) := by
  unfold parseJsonBody
  simp only
  split
  · rename_i hcomma
    exact .inl ⟨fun h => hcomma.elim h.dot h.comma, rfl⟩
  rename_i hcomma
  split
  · rename_i hdigits
    refine .inl ⟨fun h => ?_, rfl⟩
    have := h.digits
    rw [numEndIdx] at this
    simp [this] at hdigits
  rename_i hdigits
  split
  · rename_i htipo
    exact .inl ⟨fun h => h.tipo.elim htipo.1 htipo.2, rfl⟩
  rename_i htipo
  split
  · rename_i hquote
    exact .inl ⟨fun h => h.quote hquote, rfl⟩
  rename_i hquote
  split
  · rename_i hlast
    exact .inl ⟨fun h => hlast.elim (fun hne => hne h.last) (fun hne => hne h.brace), rfl⟩
  rename_i hlast
  split
  · rename_i hlen
    refine .inl ⟨fun h => ?_, rfl⟩
    have hfits := h.fits
    have hnonempty := h.nonempty
    simp only [endDescIdx, startDescIdx, numEndIdx] at hfits hnonempty
    omega
  rename_i hlen
  -- what is left has passed every test
  rw [not_or] at hcomma hlast hlen
  refine .inr ⟨?_, ?_⟩
  · exact {
      dot := hcomma.1
      comma := hcomma.2
      digits := by simpa [numEndIdx] using hdigits
      tipo := by
        by_contra h
        exact htipo (not_or.mp h)
      quote := hquote
      last := not_not.mp hlast.1
      brace := not_not.mp hlast.2
      nonempty := Nat.not_lt.mp hlen.2
      fits := Nat.not_lt.mp hlen.1 }
  · simp only [readTransaction, amount, numEndIdx, startDescIdx, endDescIdx]
    by_cases hdebit : body.get (body.find 44 numBeginIdx + 11) = 100
    · simp only [hdebit, if_pos]
    · simp only [hdebit, if_neg, not_false_eq_true]

theorem parseJsonBody_fst : (parseJsonBody body t).1 = true ↔ Accepted body := by
  rcases parseJsonBody_cases body t with ⟨hnot, hfalse⟩ | ⟨haccepted, htrue⟩
  · simp [hnot, hfalse]
  · simp [haccepted, htrue]

theorem parseJsonBody_of_accepted (h : Accepted body) :
    parseJsonBody body t = (true, readTransaction body t) :=
  (parseJsonBody_cases body t).elim (fun hnot => absurd h hnot.1) And.right

/-! ## The text alone -/

/-- The two views show the same text. -/
structure StringView.Same (v v' : StringView) : Prop where
  size : v.size = v'.size
  get : ∀ i, i < v.size → v.get i = v'.get i

namespace StringView

variable {v v' : StringView}

theorem Same.symm (h : v.Same v') : v'.Same v :=
  ⟨h.size.symm, fun i hi => (h.get i (h.size.symm ▸ hi)).symm⟩

theorem find?_congr {p q : ℕ → Bool} {indices : List ℕ} (h : ∀ i ∈ indices, p i = q i) :
    indices.find? p = indices.find? q := by
  induction indices with
  | nil => rfl
  | cons i indices ih =>
      rw [List.find?_cons, List.find?_cons, h i (by simp), ih fun j hj => h j (by simp [hj])]

theorem Same.find (h : v.Same v') (c : UInt8) (pos : ℕ) : v.find c pos = v'.find c pos := by
  unfold StringView.find
  rw [← h.size]
  congr 1
  refine find?_congr fun i hi => ?_
  have := List.mem_range'_1.mp hi
  rw [h.get i (by omega)]

theorem Same.hasAt (h : v.Same v') (s : Bytes) (i : ℕ) : v.hasAt s i = v'.hasAt s i := by
  unfold StringView.hasAt
  rw [← h.size]
  by_cases hfit : i + s.length ≤ v.size
  · rw [decide_eq_true hfit, Bool.true_and, Bool.true_and, Bool.eq_iff_iff, List.all_eq_true,
      List.all_eq_true]
    refine forall₂_congr fun k hk => ?_
    have := List.mem_range.mp hk
    rw [h.get (i + k) (by omega)]
  · simp [hfit]

theorem Same.findText (h : v.Same v') (s : Bytes) : v.findText s = v'.findText s := by
  unfold StringView.findText
  rw [← h.size]
  congr 1
  exact find?_congr fun i _ => h.hasAt s i

/-- What is found is in the text. -/
theorem find_lt {c : UInt8} {pos : ℕ} (h : v.find c pos ≠ npos) :
    pos ≤ v.find c pos ∧ v.find c pos < v.size := by
  unfold StringView.find at h ⊢
  cases hfind : (List.range' pos (v.size - pos)).find? fun i => v.get i == c with
  | none => simp [hfind] at h
  | some i =>
      have := List.mem_range'_1.mp (List.mem_of_find?_eq_some hfind)
      simp only [Option.getD_some]
      omega

end StringView

theorem substringToIntLoop_same (h : body.Same body') {indices : List ℕ}
    (hin : ∀ i ∈ indices, i < body.size) (x : Int32) :
    substringToIntLoop body indices x = substringToIntLoop body' indices x := by
  induction indices generalizing x with
  | nil => rfl
  | cons i indices ih =>
      rw [substringToIntLoop, substringToIntLoop, h.get i (hin i (by simp)),
        ih fun j hj => hin j (by simp [hj])]

theorem substringToInt_same (h : body.Same body') {start stop : ℕ} (hstop : stop ≤ body.size) :
    substringToInt body start stop = substringToInt body' start stop := by
  refine substringToIntLoop_same h (fun i hi => ?_) 0
  have := List.mem_range'_1.mp hi
  omega

theorem Accepted.lt_size (h : Accepted body) :
    numEndIdx body < body.size ∧ startDescIdx body ≤ endDescIdx body ∧
      endDescIdx body < body.size :=
  ⟨(StringView.find_lt h.comma).2, StringView.find_lt h.quote⟩

/-- What an accepted body says is in its text. -/
theorem Accepted.same (h : Accepted body) (hsame : body.Same body') :
    Accepted body' ∧ amount body' = amount body ∧ startDescIdx body' = startDescIdx body ∧
      endDescIdx body' = endDescIdx body := by
  obtain ⟨hnum, hdesc, hend⟩ := h.lt_size
  have hnum' : numEndIdx body' = numEndIdx body := (hsame.find 44 numBeginIdx).symm
  have hstart' : startDescIdx body' = startDescIdx body := by rw [startDescIdx, hnum', startDescIdx]
  have hend' : endDescIdx body' = endDescIdx body := by
    rw [endDescIdx, hstart', endDescIdx, hsame.find]
  have hint : substringToInt body' numBeginIdx (numEndIdx body) =
      substringToInt body numBeginIdx (numEndIdx body) :=
    (substringToInt_same hsame (by omega)).symm
  have htipo : body'.get (numEndIdx body + 11) = body.get (numEndIdx body + 11) := by
    rw [startDescIdx] at hdesc
    exact (hsame.get _ (by omega)).symm
  have hbrace : body'.get (endDescIdx body + 1) = body.get (endDescIdx body + 1) := by
    have := h.last
    exact (hsame.get _ (by omega)).symm
  refine ⟨?_, ?_, hstart', hend'⟩
  · exact {
      dot := by
        rw [hnum', ← hsame.find]
        exact h.dot
      comma := hnum' ▸ h.comma
      digits := by
        rw [hnum', hint]
        exact h.digits
      tipo := by
        rw [hnum', htipo]
        exact h.tipo
      quote := hend' ▸ h.quote
      last := by
        rw [hend', h.last, hsame.size]
      brace := by
        rw [hend', hbrace]
        exact h.brace
      nonempty := by
        rw [hend', hstart']
        exact h.nonempty
      fits := by
        rw [hend', hstart']
        exact h.fits }
  · simp only [amount, hnum', hint, htipo]

/-- The description of an accepted body is in its text, and ends at the NUL
written behind it. -/
theorem Accepted.cstr_description (h : Accepted body) (hsame : body.Same body')
    (array array' : Vector UInt8 11) :
    Text.cstr (copyDescription body (startDescIdx body) (endDescIdx body) array).toList =
      Text.cstr (copyDescription body' (startDescIdx body) (endDescIdx body) array').toList := by
  obtain ⟨-, hdesc, hend⟩ := h.lt_size
  have hfits := h.fits
  refine Text.cstr_congr (n := endDescIdx body - startDescIdx body) ?_ fun i hi => ?_
  · simp [copyDescription, show endDescIdx body - startDescIdx body < 11 by omega]
  · have hi' : i < 11 := by omega
    rcases Nat.lt_or_eq_of_le hi with hlt | heq
    · have hbyte := hsame.get (startDescIdx body + i) (by omega)
      simp [copyDescription, hi', hlt, hbyte]
    · simp [copyDescription, heq ▸ hi', heq]

/-- And it is copied over the same bytes. -/
theorem Accepted.copyDescription_same (h : Accepted body) (hsame : body.Same body')
    (array : Vector UInt8 11) :
    copyDescription body (startDescIdx body) (endDescIdx body) array =
      copyDescription body' (startDescIdx body) (endDescIdx body) array := by
  obtain ⟨-, hdesc, hend⟩ := h.lt_size
  unfold copyDescription
  congr 1
  funext k
  split
  · exact hsame.get _ (by omega)
  · rfl

/-- **Acceptance depends on the text alone.** -/
theorem accepted_congr (hsame : body.Same body') : Accepted body ↔ Accepted body' :=
  ⟨fun h => (h.same hsame).1, fun h => (h.same hsame.symm).1⟩

/-- The two requests say the same. -/
structure Request.Same (r r' : Request) : Prop where
  type : r.type = r'.type
  id : r.id = r'.id
  value : r.type = .transaction → r.transaction.value = r'.transaction.value
  description : r.type = .transaction →
    Text.cstr r.transaction.description.toList = Text.cstr r'.transaction.description.toList

theorem StringView.Same.suffix {v v' : StringView} (h : v.Same v') (k : ℕ) :
    (v.suffix k).Same (v'.suffix k) where
  size := by rw [StringView.suffix, StringView.suffix, h.size]
  get i hi := by
    have hlt : k + i < v.size := by
      simp only [StringView.suffix] at hi
      omega
    have := h.get (k + i) hlt
    simpa [StringView.get, StringView.suffix, Nat.add_assoc] using this

/-! ## The request -/

/-- The body of a request, as `FromHttp` finds it. -/
def jsonBody (http : StringView) : StringView := http.suffix (http.findText kPostBeginBody + 4)

/-- What `FromHttp` makes of a request it accepts. -/
inductive Reads (http : StringView) (r : Request) : Request → Prop
  | balance (id : Int32) (hverb : http.startsWith kGetVerb = true)
      (hid : simpleAtoi (http.get 14) = some id) :
      Reads http r { r with id := id, type := .balance }
  | transaction (id : Int32) (hverb : http.startsWith kGetVerb = false)
      (hid : simpleAtoi (http.get 15) = some id)
      (hbegin : http.findText kPostBeginBody ≠ npos) (hbody : Accepted (jsonBody http)) :
      Reads http r { r with
        id := id, type := .transaction
        transaction := readTransaction (jsonBody http) r.transaction }

variable {http http' : StringView} {r r' s : Request}

/-- **`FromHttp`**, by what it accepts. -/
theorem fromHttp_eq_true : fromHttp http r = (true, s) ↔ Reads http r s := by
  constructor
  · intro h
    unfold fromHttp at h
    cases hverb : http.startsWith kGetVerb with
    | true =>
        rw [hverb, if_pos rfl] at h
        cases hid : simpleAtoi (http.get 14) with
        | none =>
            rw [hid] at h
            cases h
        | some id =>
            rw [hid] at h
            cases h
            exact .balance id hverb hid
    | false =>
        rw [hverb, if_neg Bool.false_ne_true] at h
        cases hid : simpleAtoi (http.get 15) with
        | none =>
            rw [hid] at h
            cases h
        | some id =>
            simp only [hid] at h
            split at h
            · cases h
            rename_i hbegin
            rcases parseJsonBody_cases (jsonBody http) r.transaction with
              ⟨-, hfalse⟩ | ⟨hbody, htrue⟩
            · rw [jsonBody] at hfalse
              simp [hfalse] at h
            · have hparse := htrue
              rw [jsonBody] at hparse
              simp only [hparse, Bool.not_true, Bool.false_eq_true, if_false] at h
              cases h
              exact .transaction id hverb hid hbegin hbody
  · intro h
    unfold fromHttp
    cases h with
    | balance id hverb hid => rw [hverb, if_pos rfl, hid]
    | transaction id hverb hid hbegin hbody =>
        have hparse := parseJsonBody_of_accepted (t := r.transaction) hbody
        rw [jsonBody] at hparse
        rw [hverb, if_neg Bool.false_ne_true, hid]
        simp only [if_neg hbegin, hparse, Bool.not_true, Bool.false_eq_true, if_false]
        rfl

theorem fromHttp_fst : (fromHttp http r).1 = true ↔ ∃ s, Reads http r s := by
  constructor
  · intro h
    exact ⟨_, fromHttp_eq_true.mp (Prod.ext h rfl)⟩
  · rintro ⟨s, hs⟩
    rw [fromHttp_eq_true.mpr hs]

/-- What a request says is in its text and in the byte its id is read at. -/
theorem Reads.same (h : Reads http r s) (hsame : http.Same http')
    (hget : http.startsWith kGetVerb = true → http.get 14 = http'.get 14)
    (hpost : http.startsWith kGetVerb = false → http.get 15 = http'.get 15) (r' : Request) :
    ∃ s', Reads http' r' s' ∧ s.Same s' ∧ (r = r' → s = s') := by
  have hverb' : http'.startsWith kGetVerb = http.startsWith kGetVerb :=
    (hsame.hasAt kGetVerb 0).symm
  cases h with
  | balance id hverb hid =>
      refine ⟨_, .balance id (hverb'.trans hverb) ?_, ⟨rfl, rfl, nofun, nofun⟩, ?_⟩
      · rw [← hget hverb]
        exact hid
      · rintro rfl
        rfl
  | transaction id hverb hid hbegin hbody =>
      have hfind : http'.findText kPostBeginBody = http.findText kPostBeginBody :=
        (hsame.findText kPostBeginBody).symm
      have hview : (jsonBody http).Same (jsonBody http') := by
        unfold jsonBody
        rw [hfind]
        exact hsame.suffix _
      obtain ⟨hbody', hamount, hstart, hend⟩ := hbody.same hview
      have hid' : simpleAtoi (http'.get 15) = some id := by
        rw [← hpost hverb]
        exact hid
      refine ⟨_, .transaction id (hverb'.trans hverb) hid' (hfind ▸ hbegin) hbody',
        ⟨rfl, rfl, fun _ => hamount.symm, fun _ => ?_⟩, ?_⟩
      · simp only [readTransaction, hstart, hend]
        exact hbody.cstr_description hview _ _
      · rintro rfl
        simp only [readTransaction, hamount, hstart, hend, hbody.copyDescription_same hview]

/-- Two requests of the same text are decided alike. -/
theorem fromHttp_same_of_get (hsame : http.Same http')
    (hget : http.startsWith kGetVerb = true → http.get 14 = http'.get 14)
    (hpost : http.startsWith kGetVerb = false → http.get 15 = http'.get 15) (r r' : Request) :
    (fromHttp http r).1 = (fromHttp http' r').1 ∧
      ((fromHttp http r).1 = true → (fromHttp http r).2.Same (fromHttp http' r').2) := by
  have hverb' : http'.startsWith kGetVerb = http.startsWith kGetVerb :=
    (hsame.hasAt kGetVerb 0).symm
  constructor
  · rw [Bool.eq_iff_iff, fromHttp_fst, fromHttp_fst]
    constructor
    · rintro ⟨s, hs⟩
      obtain ⟨s', hs', -⟩ := hs.same hsame hget hpost r'
      exact ⟨s', hs'⟩
    · rintro ⟨s', hs'⟩
      obtain ⟨s, hs, -⟩ := hs'.same hsame.symm (fun h => (hget (hverb' ▸ h)).symm)
        (fun h => (hpost (hverb' ▸ h)).symm) r
      exact ⟨s, hs⟩
  · intro h
    obtain ⟨s, hs⟩ := fromHttp_fst.mp h
    obtain ⟨s', hs', hrequest, -⟩ := hs.same hsame hget hpost r'
    rw [fromHttp_eq_true.mpr hs, fromHttp_eq_true.mpr hs']
    exact hrequest

/-- **What a request says is in its text**, if that is long enough for the
two places an id is read at. -/
theorem fromHttp_same {http http' : StringView} (hsame : http.Same http') (hsize : 16 ≤ http.size)
    (r r' : Request) :
    (fromHttp http r).1 = (fromHttp http' r').1 ∧
      ((fromHttp http r).1 = true → (fromHttp http r).2.Same (fromHttp http' r').2) :=
  fromHttp_same_of_get hsame (fun _ => hsame.get 14 (by omega)) (fun _ => hsame.get 15 (by omega))
    r r'

end Rinha
