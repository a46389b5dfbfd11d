import Rinha.Server.Language
/-!
# Rendering, undone

A request written as the parser expects it is read back as what was
written, whatever else the header says and whatever the description has
in it: the search for the blank line stops at the first one, the search
for the comma behind the digits, and the search for the quote behind the
description.
-/

namespace Rinha

/-- The body of a transaction. -/
def renderBody (digits : Bytes) (tipo : UInt8) (descricao : Bytes) : Bytes :=
  Text.bytes "\x7b\"valor\": " ++ digits ++ Text.bytes ", \"tipo\": \"" ++ [tipo] ++
    Text.bytes "\", \"descricao\": \"" ++ descricao ++ Text.bytes "\"\x7d"

/-- And the request, behind a header. -/
def renderRequest (header digits : Bytes) (tipo : UInt8) (descricao : Bytes) : Bytes :=
  header ++ Text.crlf2 ++ renderBody digits tipo descricao

/-- The path of a transaction of the customer whose number is the digit. -/
def transacoesPath (id : UInt8) : Bytes :=
  Text.bytes "POST /clientes/" ++ id :: Text.bytes "/transacoes"

/-- What may be written: the header is free behind the path, as long as the
first blank line of the request is the one that ends it, and so is the
description but for its length and the quote. -/
structure Renderable (id : UInt8) (header digits : Bytes) (tipo : UInt8) (descricao : Bytes) :
    Prop where
  id_ok : isDigit id = true
  path : transacoesPath id <+: header
  first : ∀ i, i < header.length →
    ¬Text.crlf2 <+: (renderRequest header digits tipo descricao).drop i
  nonempty : digits ≠ []
  digits_ok : ∀ b ∈ digits, isDigit b = true
  amount : Decimal.value digits ≤ 2147483647
  tipo_ok : tipo = 99 ∨ tipo = 100
  length : 1 ≤ descricao.length ∧ descricao.length ≤ 10
  no_quote : 34 ∉ descricao

variable {id tipo : UInt8} {header digits descricao : Bytes} {http : StringView}

/-! The keys are as long as the parser's steps over them. -/

theorem length_valorKey : (Text.bytes "\x7b\"valor\": ").length = 10 := rfl

theorem length_tipoKey : (Text.bytes " \"tipo\": \"").length = 10 := rfl

theorem length_descricaoKey : (Text.bytes "\", \"descricao\": \"").length = 17 := rfl

namespace Renderable

/-- The layout of the body. -/
def layout (h : Renderable id header digits tipo descricao) : Layout where
  before := Text.bytes "\x7b\"valor\": "
  digits := digits
  key := Text.bytes " \"tipo\": \""
  tipo := tipo
  gap := Text.bytes "\", \"descricao\": \""
  description := descricao
  before_length := length_valorKey
  digits_ok := h.digits_ok
  key_length := length_tipoKey
  tipo_ok := h.tipo_ok
  gap_length := length_descricaoKey
  no_quote := h.no_quote
  description_length := h.length

theorem encode_layout (h : Renderable id header digits tipo descricao) :
    h.layout.encode = renderBody digits tipo descricao := by
  simp [Layout.encode, layout, renderBody, Text.bytes]

/-- The blank line that is found ends the header. -/
theorem findText_eq (h : Renderable id header digits tipo descricao)
    (htext : http.text = renderRequest header digits tipo descricao) :
    http.findText kPostBeginBody = header.length :=
  StringView.findText_eq htext (by decide) fun i hi => by
    rw [htext]
    exact h.first i hi

theorem text_jsonBody (h : Renderable id header digits tipo descricao)
    (htext : http.text = renderRequest header digits tipo descricao) :
    (jsonBody http).text = h.layout.encode := by
  have hlen : header.length + 4 = (header ++ Text.crlf2).length := by
    rw [List.length_append]
    rfl
  rw [jsonBody, StringView.text_suffix, h.findText_eq htext, htext, renderRequest, hlen,
    List.drop_left, h.encode_layout]

theorem not_startsWith_get (h : Renderable id header digits tipo descricao)
    (htext : http.text = renderRequest header digits tipo descricao) :
    http.startsWith kGetVerb = false := by
  obtain ⟨rest, hrest⟩ := h.path
  rw [← Bool.not_eq_true, StringView.startsWith_iff, htext, renderRequest, ← hrest]
  simp [transacoesPath, kGetVerb, Text.bytes]

theorem get_id (h : Renderable id header digits tipo descricao)
    (htext : http.text = renderRequest header digits tipo descricao) : http.get 15 = id := by
  obtain ⟨rest, hrest⟩ := h.path
  refine StringView.get_of_text (a := Text.bytes "POST /clientes/")
    (b := Text.bytes "/transacoes" ++ rest ++ Text.crlf2 ++ renderBody digits tipo descricao) ?_
  rw [htext, renderRequest, ← hrest]
  simp [transacoesPath]

end Renderable

/-- **`FromHttp` undoes rendering.** -/
theorem fromHttp_render (h : Renderable id header digits tipo descricao)
    (htext : http.text = renderRequest header digits tipo descricao) (hsize : http.size ≤ npos)
    (r : Request) :
    ∃ request, fromHttp http r = (true, request) ∧ request.type = .transaction ∧
      request.id.toInt = (id.toNat - 48 : ℕ) ∧
      request.transaction.value.toInt =
        (if tipo = 99 then (Decimal.value digits : ℤ) else -Decimal.value digits) ∧
      request.transaction.description.toList.take (descricao.length + 1) = descricao ++ [0] := by
  have hbody := h.text_jsonBody htext
  have hfits : (jsonBody http).size ≤ npos := Nat.le_trans (Nat.sub_le _ _) hsize
  have hfound : http.findText kPostBeginBody ≠ npos := by
    have hlen := congrArg List.length htext
    rw [StringView.length_text, renderRequest, List.length_append, List.length_append,
      show Text.crlf2.length = 4 from rfl] at hlen
    rw [h.findText_eq htext]
    omega
  have hatoi : simpleAtoi (http.get 15) = some (digitValue id) := by
    rw [h.get_id htext, simpleAtoi, if_pos h.id_ok]
  -- the body has a layout, and what is stored is what the layout says
  have haccepted := h.layout.accepted hbody hfits
  have hreads := Reads.transaction (r := r) _ (h.not_startsWith_get htext) hatoi hfound haccepted
  have hstored := h.layout.stored (t := r.transaction) hbody hfits
  rw [parseJsonBody_of_accepted haccepted] at hstored
  have hd := Decimal.le_of_isDigit h.id_ok
  have hamount := h.amount
  refine ⟨_, fromHttp_eq_true.mpr hreads, rfl, Int32.toInt_ofNat_of_lt (by omega), ?_, ?_⟩
  · refine hstored.value.trans ?_
    change (if tipo = 100 then -(Decimal.value digits : ℤ) else Decimal.value digits).bmod _ = _
    rcases h.tipo_ok with rfl | rfl
    · rw [if_neg (by decide), if_pos rfl]
      exact Int.bmod_eq_of_le (by omega) (by omega)
    · rw [if_pos rfl, if_neg (by decide)]
      exact Int.bmod_eq_of_le (by omega) (by omega)
  · have hdescription := hstored.description
    change _ = descricao ++ 0 :: _ at hdescription
    rw [show (h.layout.description.length) = descricao.length from rfl] at hdescription
    simp only [hdescription]
    rw [List.take_length_add_append]
    rfl

/-- A debit of seven by customer 1, with a leading zero, and with a comma, a
dot, a brace and a blank line in its description. -/
theorem fromHttp_render_debit :
    ∃ request, fromHttp (.ofBytes (renderRequest (transacoesPath 49 ++ Text.bytes " HTTP/1.1")
        (Text.bytes "07") 100 (Text.bytes ",.\x7d\r\n\r\n")))
          ⟨.balance, 0, Transaction.zero⟩ = (true, request) ∧
      request.transaction.value.toInt = -7 := by
  have hrenderable : Renderable 49 (transacoesPath 49 ++ Text.bytes " HTTP/1.1")
      (Text.bytes "07") 100 (Text.bytes ",.\x7d\r\n\r\n") := {
    id_ok := rfl
    path := List.prefix_append _ _
    first := by decide +kernel
    nonempty := by decide
    digits_ok := List.all_eq_true.mp (by decide)
    amount := by decide
    tipo_ok := by decide
    length := by decide
    no_quote := by decide }
  obtain ⟨request, hread, -, -, hvalue, -⟩ := fromHttp_render hrenderable
    (StringView.text_ofBytes _) (by decide +kernel) ⟨.balance, 0, Transaction.zero⟩
  exact ⟨request, hread, hvalue⟩

end Rinha
