import Rinha.Server.View
/-!
# Reused buffers

A connection's buffer is taken over as the last one left it, and the
parser reads the id at a fixed index. What it decides is then a matter of
the bytes received alone, but for a `GET` that ends before the index: the
digit it is given is another request's.
-/

namespace Rinha

/-- The buffer holds the bytes received, and behind them anything. -/
def HoldsBytes (buffer : ℕ → UInt8) (bytes : Bytes) : Prop :=
  ∀ i, i < bytes.length → buffer i = bytes.getD i 0

/-- The parser decides alike on the two buffers, and reads the same
request, whatever the variable it fills held before. -/
def SameDecision (buffer buffer' : ℕ → UInt8) (numRead : ℕ) : Prop :=
  ∀ r r' : Request,
    (fromHttp (viewOf buffer numRead) r).1 = (fromHttp (viewOf buffer' numRead) r').1 ∧
      ((fromHttp (viewOf buffer numRead) r).1 = true →
        (fromHttp (viewOf buffer numRead) r).2.Same (fromHttp (viewOf buffer' numRead) r').2)

/-- `ProcessRequest` does the same with the two buffers: the same calls of
any store, and the same response from the same replies. -/
def SameRun (buffer buffer' : ℕ → UInt8) (numRead : ℕ) : Prop :=
  ∀ (m : Type → Type) [Monad m] (hs : HandlerSocket m) (passes : ℕ)
    (currentTime : Vector UInt8 20) (locals : Locals) (thread : ThreadLocals),
    processRequest hs passes currentTime locals thread buffer numRead =
      processRequest hs passes currentTime locals thread buffer' numRead

/-- What was left in a buffer has no part in what becomes of the bytes. -/
structure Independent (bytes : Bytes) : Prop where
  decision : ∀ buffer buffer', HoldsBytes buffer bytes → HoldsBytes buffer' bytes →
    SameDecision buffer buffer' bytes.length
  run : ∀ buffer buffer', HoldsBytes buffer bytes → HoldsBytes buffer' bytes →
    SameRun buffer buffer' bytes.length

/-- A `GET` that ends before the id is read. -/
def EndsBeforeId (bytes : Bytes) : Prop := kGetVerb <+: bytes ∧ bytes.length < 14

variable {buffer buffer' : ℕ → UInt8} {bytes : Bytes} {r r' s : Request}

/-! ## What a buffer shows of the bytes -/

theorem HoldsBytes.map_range (h : HoldsBytes buffer bytes) :
    (List.range bytes.length).map buffer = bytes := by
  refine List.ext_getElem (by simp) fun i hi hi' => ?_
  rw [List.getElem_map, List.getElem_range, h i hi', ← List.getElem_eq_getD]

theorem HoldsBytes.text (h : HoldsBytes buffer bytes) :
    (viewOf buffer bytes.length).text = Text.cstr bytes := by
  rw [text_viewOf, h.map_range]

/-- Up to the NUL behind the bytes, a read finds them. -/
theorem HoldsBytes.get (h : HoldsBytes buffer bytes) {i : ℕ} (hi : i ≤ bytes.length) :
    (viewOf buffer bytes.length).get i = bytes.getD i 0 := by
  rcases Nat.lt_or_eq_of_le hi with hlt | rfl
  · simp [StringView.get, viewOf, terminate, Nat.ne_of_lt hlt, h i hlt]
  · simp [StringView.get, viewOf, terminate]

theorem HoldsBytes.startsWith_get (h : HoldsBytes buffer bytes) :
    (viewOf buffer bytes.length).startsWith kGetVerb = true ↔ kGetVerb <+: bytes := by
  rw [StringView.startsWith_iff, h.text]
  constructor
  · exact fun hprefix => hprefix.trans (List.takeWhile_prefix _)
  · rintro ⟨rest, rfl⟩
    rw [Text.cstr_append (by decide)]
    exact List.prefix_append _ _

/-! ## The decision -/

/-- A body that is accepted is past the index of the id. -/
theorem Reads.size_of_post {http : StringView} (h : Reads http r s)
    (hverb : http.startsWith kGetVerb = false) : 15 ≤ http.size := by
  cases h with
  | balance id hget hid =>
      rw [hverb] at hget
      cases hget
  | transaction id _ hid hbegin hbody =>
      have hcomma := StringView.find_lt hbody.comma
      simp only [jsonBody, StringView.suffix, numBeginIdx] at hcomma
      omega

/-- **What is read from one buffer** is read from the other. -/
theorem Reads.of_holds (hlong : ¬EndsBeforeId bytes) (hbuffer : HoldsBytes buffer bytes)
    (hbuffer' : HoldsBytes buffer' bytes) (h : Reads (viewOf buffer bytes.length) r s)
    (r' : Request) :
    ∃ s', Reads (viewOf buffer' bytes.length) r' s' ∧ s.Same s' ∧ (r = r' → s = s') := by
  have hsame : (viewOf buffer bytes.length).Same (viewOf buffer' bytes.length) := by
    rw [StringView.same_iff_text, hbuffer.text, hbuffer'.text]
  have hget : ∀ i, i ≤ bytes.length →
      (viewOf buffer bytes.length).get i = (viewOf buffer' bytes.length).get i := fun i hi => by
    rw [hbuffer.get hi, hbuffer'.get hi]
  refine h.same hsame (fun hverb => hget 14 ?_) (fun hverb => hget 15 ?_) r'
  · by_contra hlt
    exact hlong ⟨hbuffer.startsWith_get.mp hverb, by omega⟩
  · exact (h.size_of_post hverb).trans (size_viewOf_le _ _)

theorem sameDecision_of_long (hlong : ¬EndsBeforeId bytes) (hbuffer : HoldsBytes buffer bytes)
    (hbuffer' : HoldsBytes buffer' bytes) : SameDecision buffer buffer' bytes.length := by
  intro r r'
  constructor
  · rw [Bool.eq_iff_iff, fromHttp_fst, fromHttp_fst]
    constructor
    · rintro ⟨s, hs⟩
      obtain ⟨s', hs', -⟩ := hs.of_holds hlong hbuffer hbuffer' r'
      exact ⟨s', hs'⟩
    · rintro ⟨s', hs'⟩
      obtain ⟨s, hs, -⟩ := hs'.of_holds hlong hbuffer' hbuffer r
      exact ⟨s, hs⟩
  · intro h
    obtain ⟨s, hs⟩ := fromHttp_fst.mp h
    obtain ⟨s', hs', hrequest, -⟩ := hs.of_holds hlong hbuffer hbuffer' r'
    rw [fromHttp_eq_true.mpr hs, fromHttp_eq_true.mpr hs']
    exact hrequest

/-- What the request variable holds after a failure is not looked at. -/
theorem sameRun_of_long (hlong : ¬EndsBeforeId bytes) (hbuffer : HoldsBytes buffer bytes)
    (hbuffer' : HoldsBytes buffer' bytes) : SameRun buffer buffer' bytes.length := by
  intro m _ hs passes currentTime locals thread
  have hdecision := sameDecision_of_long hlong hbuffer hbuffer' locals.request locals.request
  unfold processRequest
  cases hfst : (fromHttp (viewOf buffer bytes.length) locals.request).1 with
  | true =>
      obtain ⟨s, hreads⟩ := fromHttp_fst.mp hfst
      obtain ⟨s', hreads', -, heq⟩ := hreads.of_holds hlong hbuffer hbuffer' locals.request
      rw [fromHttp_eq_true.mpr hreads, fromHttp_eq_true.mpr hreads', heq rfl]
  | false =>
      have hfst' := hdecision.1.symm.trans hfst
      generalize fromHttp (viewOf buffer bytes.length) locals.request = p at hfst
      generalize fromHttp (viewOf buffer' bytes.length) locals.request = p' at hfst'
      obtain ⟨success, s⟩ := p
      obtain ⟨success', s'⟩ := p'
      obtain rfl : success = false := hfst
      obtain rfl : success' = false := hfst'
      simp only [Bool.not_false, if_true, respond]

/-! ## The digit left over -/

/-- The bytes, with `b` left where the id is read. -/
def leaveId (bytes : Bytes) (b : UInt8) : ℕ → UInt8 :=
  fun i => if i = 14 then b else bytes.getD i 0

theorem EndsBeforeId.holds_leaveId (h : EndsBeforeId bytes) (b : UInt8) :
    HoldsBytes (leaveId bytes b) bytes := fun i hi => by
  have hlen := h.2
  simp [leaveId, show i ≠ 14 by omega]

/-- The byte left over decides. -/
theorem EndsBeforeId.fromHttp_fst_leaveId (h : EndsBeforeId bytes) (b : UInt8) (r : Request) :
    (fromHttp (viewOf (leaveId bytes b) bytes.length) r).1 = isDigit b := by
  have hverb := (h.holds_leaveId b).startsWith_get.mpr h.1
  have hne : (14 : ℕ) ≠ bytes.length := Nat.ne_of_gt h.2
  have hbyte : (viewOf (leaveId bytes b) bytes.length).get 14 = b := by
    simp [StringView.get, viewOf, terminate, leaveId, hne]
  unfold fromHttp
  rw [hverb, if_pos rfl, hbyte, simpleAtoi]
  cases isDigit b <;> rfl

/-- **What becomes of the bytes received** does not depend on what was left
in the buffer, just where they are no `GET` that ends before the id. -/
theorem independent_iff (bytes : Bytes) : Independent bytes ↔ ¬EndsBeforeId bytes := by
  constructor
  · intro hindependent h
    let r : Request := ⟨.balance, 0, Transaction.zero⟩
    have hsame := (hindependent.decision _ _ (h.holds_leaveId 49) (h.holds_leaveId 120) r r).1
    rw [h.fromHttp_fst_leaveId, h.fromHttp_fst_leaveId] at hsame
    cases hsame
  · intro hlong
    exact ⟨fun _ _ => sameDecision_of_long hlong, fun _ _ => sameRun_of_long hlong⟩

/-- Three bytes of a client, into a fresh buffer and into one that a request
for the first customer's statement was read into. -/
theorem not_independent_get :
    let bytes := Text.bytes "GET"
    let fresh : ℕ → UInt8 := fun i => bytes.getD i 0
    let reused : ℕ → UInt8 := fun i => (Text.bytes "GET /clientes/1/extrato HTTP/1.1").getD i 0
    let request : Request := ⟨.transaction, 0, Transaction.zero⟩
    HoldsBytes fresh bytes ∧ HoldsBytes reused bytes ∧
      (fromHttp (viewOf fresh bytes.length) request).1 = false ∧
      fromHttp (viewOf reused bytes.length) request =
        (true, { request with id := 1, type := .balance }) ∧
      ¬Independent bytes := by
  intro bytes fresh reused request
  have hfresh : HoldsBytes fresh bytes := fun _ _ => rfl
  have hreused : HoldsBytes reused bytes := by
    unfold HoldsBytes
    decide +kernel
  have hrejected : (fromHttp (viewOf fresh bytes.length) request).1 = false := by decide +kernel
  have haccepted : fromHttp (viewOf reused bytes.length) request =
      (true, { request with id := 1, type := .balance }) := by decide +kernel
  refine ⟨hfresh, hreused, hrejected, haccepted, fun h => ?_⟩
  have hsame := (h.decision fresh reused hfresh hreused request request).1
  rw [hrejected, haccepted] at hsame
  cases hsame

end Rinha
