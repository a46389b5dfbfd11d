import Rinha.Common.Decimal
/-!
# Messages on a connection

A message is a start line, header fields, a blank line and a body whose
length one `Content-Length` field announces. Its end is therefore a
matter of its own bytes: two messages that begin one byte string are the
same message (`encode_append_inj`), and a byte string is a sequence of
messages in one way at most (`flatten_inj`).
-/

namespace Http

def crlf : Bytes := Text.bytes "\r\n"
def contentLength : Bytes := Text.bytes "Content-Length"

/-- A header field, as its name and value. -/
structure Field where
  name : Bytes
  value : Bytes
  name_ne : name ≠ []
  name_ok : 13 ∉ name ∧ 58 ∉ name
  value_ok : 13 ∉ value

/-- The values of the fields that announce the length of the body. -/
def lengths (fields : List Field) : List Bytes :=
  (fields.filter fun field => field.name = contentLength).map Field.value

/-- A message, well formed: exactly one field announces the length, and
the body has it. -/
structure Message where
  line : Bytes
  fields : List Field
  body : Bytes
  line_ok : 13 ∉ line
  length_ok : ∃ numeral, lengths fields = [numeral] ∧ numeral ≠ [] ∧
    (∀ b ∈ numeral, Decimal.isDigit b = true) ∧ Decimal.value numeral = body.length

/-- `name: value`, and the line's end. -/
def Field.encode (field : Field) : Bytes := field.name ++ Text.bytes ": " ++ field.value ++ crlf

/-- The fields and the blank line. -/
def encodeFields (fields : List Field) : Bytes := fields.flatMap Field.encode ++ crlf

def Message.encode (m : Message) : Bytes := m.line ++ crlf ++ encodeFields m.fields ++ m.body

/-- A status line of the protocol. -/
def IsStatusLine (line : Bytes) : Prop :=
  ∃ code reason : Bytes, line = Text.bytes "HTTP/1.1 " ++ code ++ Text.bytes " " ++ reason ∧
    code.length = 3 ∧ ∀ b ∈ code, Decimal.isDigit b = true

/-- The bytes are one response and no more. -/
def IsResponse (bytes : Bytes) : Prop := ∃ m : Message, IsStatusLine m.line ∧ m.encode = bytes

/-! ## The end of a message -/

variable {rest rest' : Bytes}

/-- The first separator splits a string in one way. -/
theorem append_sep_inj {sep : UInt8} {a a' : Bytes} (ha : sep ∉ a) (ha' : sep ∉ a')
    (h : a ++ sep :: rest = a' ++ sep :: rest') : a = a' ∧ rest = rest' := by
  have hne : ∀ {s : Bytes}, sep ∉ s → ∀ x ∈ s, x ≠ sep := fun hs x hx hsep => hs (hsep ▸ hx)
  obtain ⟨hbefore, hrest⟩ := Text.append_span_inj (hne ha) (hne ha') (not_not.mpr rfl)
    (not_not.mpr rfl) h
  exact ⟨hbefore, (List.cons.inj hrest).2⟩

theorem crlf_append : crlf ++ rest = 13 :: 10 :: rest := rfl

theorem Field.encode_append (field : Field) :
    field.encode ++ rest = field.name ++ 58 :: 32 :: (field.value ++ 13 :: 10 :: rest) := by
  simp [Field.encode, Text.bytes, crlf]

/-- A field's encoding ends where it ends. -/
theorem Field.encode_append_inj {field field' : Field}
    (h : field.encode ++ rest = field'.encode ++ rest') : field = field' ∧ rest = rest' := by
  rw [Field.encode_append, Field.encode_append] at h
  obtain ⟨hname, h⟩ := append_sep_inj field.name_ok.2 field'.name_ok.2 h
  obtain ⟨hvalue, h⟩ := append_sep_inj field.value_ok field'.value_ok (List.cons.inj h).2
  refine ⟨?_, (List.cons.inj h).2⟩
  cases field
  cases field'
  simp_all

/-- A field does not begin like the blank line. -/
theorem Field.encode_append_ne {field : Field} : field.encode ++ rest ≠ crlf ++ rest' := by
  rw [Field.encode_append, crlf_append]
  obtain ⟨b, name, hname⟩ := List.exists_cons_of_ne_nil field.name_ne
  rw [hname, List.cons_append]
  intro h
  have hb : b = 13 := (List.cons.inj h).1
  exact field.name_ok.1 (by simp [hname, hb])

theorem encodeFields_cons {field : Field} {fields : List Field} :
    encodeFields (field :: fields) ++ rest = field.encode ++ (encodeFields fields ++ rest) := by
  simp [encodeFields]

theorem encodeFields_append_inj {fields fields' : List Field}
    (h : encodeFields fields ++ rest = encodeFields fields' ++ rest') :
    fields = fields' ∧ rest = rest' := by
  induction fields generalizing fields' with
  | nil =>
      cases fields' with
      | nil => exact ⟨rfl, List.append_cancel_left h⟩
      | cons field' fields' =>
          rw [encodeFields_cons] at h
          exact absurd h.symm Field.encode_append_ne
  | cons field fields ih =>
      rw [encodeFields_cons] at h
      cases fields' with
      | nil => exact absurd h Field.encode_append_ne
      | cons field' fields' =>
          rw [encodeFields_cons] at h
          obtain ⟨rfl, htail⟩ := Field.encode_append_inj h
          obtain ⟨rfl, hrest⟩ := ih htail
          exact ⟨rfl, hrest⟩

/-- **A message ends where it ends.** What follows two messages that begin
the same bytes is the same. -/
theorem Message.encode_append_inj {m m' : Message}
    (h : m.encode ++ rest = m'.encode ++ rest') : m = m' ∧ rest = rest' := by
  simp only [Message.encode, List.append_assoc, crlf_append] at h
  obtain ⟨hline, h⟩ := append_sep_inj m.line_ok m'.line_ok h
  obtain ⟨hfields, h⟩ := encodeFields_append_inj (List.cons.inj h).2
  obtain ⟨numeral, hone, -, -, hlen⟩ := m.length_ok
  obtain ⟨numeral', hone', -, -, hlen'⟩ := m'.length_ok
  rw [hfields, hone'] at hone
  obtain rfl : numeral' = numeral := (List.cons.inj hone).1
  obtain ⟨hbody, hrest⟩ := List.append_inj h (hlen.symm.trans hlen')
  refine ⟨?_, hrest⟩
  cases m
  cases m'
  simp_all

/-! ## A sequence of messages -/

theorem IsResponse.append_inj {bytes bytes' : Bytes} (h : IsResponse bytes)
    (h' : IsResponse bytes') (heq : bytes ++ rest = bytes' ++ rest') :
    bytes = bytes' ∧ rest = rest' := by
  obtain ⟨m, -, rfl⟩ := h
  obtain ⟨m', -, rfl⟩ := h'
  obtain ⟨rfl, hrest⟩ := Message.encode_append_inj heq
  exact ⟨rfl, hrest⟩

theorem IsResponse.ne_nil {bytes : Bytes} (h : IsResponse bytes) : bytes ≠ [] := by
  obtain ⟨m, ⟨code, reason, hline, -⟩, rfl⟩ := h
  simp [Message.encode, crlf, Text.bytes]

/-- **Responses on one connection come apart in one way only.** -/
theorem IsResponse.flatten_inj {responses responses' : List Bytes}
    (h : ∀ r ∈ responses, IsResponse r) (h' : ∀ r ∈ responses', IsResponse r)
    (heq : responses.flatten = responses'.flatten) : responses = responses' := by
  induction responses generalizing responses' with
  | nil =>
      cases responses' with
      | nil => rfl
      | cons r' responses' =>
          have := (h' r' (by simp)).ne_nil
          simp [this] at heq
  | cons r responses ih =>
      cases responses' with
      | nil =>
          have := (h r (by simp)).ne_nil
          simp [this] at heq
      | cons r' responses' =>
          obtain ⟨rfl, hrest⟩ := (h r (by simp)).append_inj (h' r' (by simp)) heq
          rw [ih (fun x hx => h x (by simp [hx])) (fun x hx => h' x (by simp [hx])) hrest]

end Http
