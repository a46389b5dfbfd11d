import Rinha.Common.Http
import Rinha.Server.Effect
/-!
# Whether a response is one message

The two constant headers and the statement are. The prebuilt response is
not: its body is the 62 bytes it announces, and `sizeof` of its array
sends seven bytes more.
-/

namespace Rinha

open Http

/-! ## The responses that are messages -/

theorem digits_ofNat (n : ℕ) : Decimal.ofNat n ≠ [] ∧
    (∀ b ∈ Decimal.ofNat n, Decimal.isDigit b = true) ∧ Decimal.value (Decimal.ofNat n) = n :=
  ⟨Decimal.ofNat_ne_nil n, Decimal.isDigit_of_mem_ofNat, Decimal.value_ofNat n⟩

theorem not_mem_ofNat (n : ℕ) : (13 : UInt8) ∉ Decimal.ofNat n := fun h =>
  absurd (Decimal.isDigit_of_mem_ofNat 13 h) (by decide)

/-- `Content-Length: n`. -/
def lengthField (n : ℕ) : Field where
  name := contentLength
  value := Decimal.ofNat n
  name_ne := by decide
  name_ok := by decide
  value_ok := not_mem_ofNat n

/-- `Content-Type: application/json`. -/
def jsonField : Field where
  name := Text.bytes "Content-Type"
  value := Text.bytes "application/json"
  name_ne := by decide
  name_ok := by decide
  value_ok := by decide

/-- A constant header of no body. -/
def emptyMessage (line : Bytes) (h : 13 ∉ line) : Message where
  line := line
  fields := [lengthField 0]
  body := []
  line_ok := h
  length_ok := ⟨_, rfl, digits_ofNat 0⟩

/-- A `200` with a body. -/
def okMessage (body : Bytes) : Message where
  line := Text.bytes "HTTP/1.1 200 OK"
  fields := [jsonField, lengthField body.length]
  body := body
  line_ok := by decide
  length_ok := ⟨_, rfl, digits_ofNat body.length⟩

theorem isResponse_badRequest : IsResponse kBadRequestHeader :=
  ⟨emptyMessage (Text.bytes "HTTP/1.1 422 Unprocessable Entity") (by decide),
    ⟨Text.bytes "422", Text.bytes "Unprocessable Entity", by decide +kernel⟩, by decide +kernel⟩

theorem isResponse_notFound : IsResponse kNotFoundHeader :=
  ⟨emptyMessage (Text.bytes "HTTP/1.1 404 NOT FOUND") (by decide),
    ⟨Text.bytes "404", Text.bytes "NOT FOUND", by decide +kernel⟩, by decide +kernel⟩

theorem isStatusLine_ok {body : Bytes} : IsStatusLine (okMessage body).line :=
  ⟨Text.bytes "200", Text.bytes "OK", rfl, rfl, by decide +kernel⟩

theorem encode_okMessage {body : Bytes} : (okMessage body).encode = statementResponse body := by
  have hhead : kOkHeader = Text.bytes "HTTP/1.1 200 OK" ++ crlf ++ jsonField.encode ++
      contentLength ++ Text.bytes ": " := by decide
  rw [statementResponse, hhead]
  simp [Message.encode, okMessage, encodeFields, Field.encode, lengthField, crlf, Text.crlf2,
    Text.bytes]

theorem isResponse_statement {body : Bytes} : IsResponse (statementResponse body) :=
  ⟨okMessage body, isStatusLine_ok, encode_okMessage⟩

/-! ## The one that is not -/

/-- Bytes after a message's end. -/
theorem not_isResponse_of_rest {m : Message} {rest : Bytes} (h : rest ≠ []) :
    ¬ IsResponse (m.encode ++ rest) := by
  rintro ⟨m', -, heq⟩
  -- messages are prefix-free, so the two are one message and nothing is left over
  have happend : m'.encode ++ [] = m.encode ++ rest := by rw [List.append_nil, heq]
  exact h (Message.encode_append_inj happend).2.symm

/-- The prebuilt response is a message and the end of its array. -/
theorem ResultBuffer.bytes_eq (b : ResultBuffer) :
    ∃ body rest : Bytes, body.length = 62 ∧ rest.length = 7 ∧
      b.bytes.toList = (okMessage body).encode ++ rest := by
  have hsize : b.bytes.toList.length = 140 := b.bytes.length_toList
  have hbody : ((b.bytes.toList.drop 71).take 62).length = 62 := by simp [hsize]
  refine ⟨(b.bytes.toList.drop 71).take 62, b.bytes.toList.drop 133, hbody, by simp [hsize], ?_⟩
  have hhead : kOkHeader ++ Decimal.ofNat 62 ++ Text.crlf2 = b.bytes.toList.take 71 := by
    rw [ResultBuffer.take_bytes b (by decide)]
    decide
  have htail : b.bytes.toList.drop 133 = (b.bytes.toList.drop 71).drop 62 := by simp
  rw [encode_okMessage, statementResponse, hbody, hhead, htail, List.append_assoc,
    List.take_append_drop, List.take_append_drop]

theorem not_isResponse_resultBuffer (b : ResultBuffer) : ¬ IsResponse b.bytes.toList := by
  obtain ⟨body, rest, -, hrest, heq⟩ := b.bytes_eq
  rw [heq]
  exact not_isResponse_of_rest (by
    rintro rfl
    cases hrest)

theorem isResponse_responseOf {thread : ThreadLocals} {v : Verdict} :
    IsResponse (responseOf thread v) ↔ ¬ ∃ row transaction, v = .accepted row transaction := by
  cases v with
  | unparsed => simp [responseOf, isResponse_badRequest]
  | unknown => simp [responseOf, isResponse_notFound]
  | statement row => simp [responseOf, isResponse_statement]
  | exceeded row => simp [responseOf, isResponse_badRequest]
  | accepted row transaction => simp [responseOf, not_isResponse_resultBuffer]

/-! ## Requests answered -/

/-- One request and what `ProcessRequest` finds when it comes to it: the
thread, the clock, the memory and the table. -/
structure Call where
  passes : ℕ
  currentTime : Vector UInt8 20
  locals : Locals
  thread : ThreadLocals
  buffer : ℕ → UInt8
  numRead : ℕ
  users : Users

namespace Call

variable {call : Call}

/-- What is sent in answer. -/
def response (call : Call) : Option Bytes :=
  ((processRequest tableSocket (call.passes + 1) call.currentTime call.locals call.thread
    call.buffer call.numRead).run call.users).1.map Prod.fst

/-- The request is a transaction of a customer there is, within its
limit. -/
def Accepts (call : Call) : Prop :=
  ∃ request row, fromHttp (viewOf call.buffer call.numRead) call.locals.request = (true, request) ∧
    request.type = .transaction ∧ rowIndex request.id = some row ∧
    limitExceeded (call.users row).data request.transaction = false

/-- The verdict on the call's request. -/
def verdict (call : Call) : Verdict :=
  verdictOn call.users call.currentTime call.locals call.buffer call.numRead

theorem accepts_iff :
    call.Accepts ↔ ∃ row transaction, call.verdict = .accepted row transaction := by
  constructor
  · rintro ⟨request, row, hp, htype, hid, hlim⟩
    refine ⟨row, stamp request.transaction call.currentTime, ?_⟩
    simp [verdict, verdictOn, hp, Rinha.verdict, hid, htype, limitExceeded_stamp, hlim]
  · rintro ⟨row, transaction, hv⟩
    obtain ⟨request, hp, htype, hid, rfl, hlim⟩ := accepted_row hv
    exact ⟨request, row, hp, htype, hid, limitExceeded_stamp _ _ |>.symm.trans hlim⟩

/-- **A response is one message** just where its request is not an accepted
transaction. -/
theorem response_eq : ∃ response, call.response = some response ∧
    (IsResponse response ↔ ¬ call.Accepts) := by
  refine ⟨_, congrArg (fun out => out.1.map Prod.fst) (processRequest_table call.passes), ?_⟩
  rw [accepts_iff]
  exact isResponse_responseOf

end Call

/-- What a connection carries is framed: every response is one message,
and the bytes come apart into these responses and no others. -/
def Framed (responses : List Bytes) : Prop :=
  (∀ r ∈ responses, IsResponse r) ∧
    ∀ responses', (∀ r ∈ responses', IsResponse r) →
      responses'.flatten = responses.flatten → responses' = responses

theorem framed_iff {responses : List Bytes} :
    Framed responses ↔ ∀ r ∈ responses, IsResponse r :=
  ⟨And.left, fun h => ⟨h, fun _ h' heq => IsResponse.flatten_inj h' h heq⟩⟩

/-- **The responses on a connection are framed** just where none of its
requests is an accepted transaction, whatever other connections do to the
table and the threads in between. -/
theorem framed_responses_iff (calls : List Call) :
    ∃ responses : List Bytes, calls.map Call.response = responses.map some ∧
      (Framed responses ↔ ∀ call ∈ calls, ¬ call.Accepts) := by
  simp only [framed_iff]
  induction calls with
  | nil => exact ⟨[], rfl, by simp⟩
  | cons call calls ih =>
      obtain ⟨response, hresponse, hone⟩ := call.response_eq
      obtain ⟨responses, hresponses, hall⟩ := ih
      exact ⟨response :: responses, by simp [hresponse, hresponses],
        by simp [hone, hall]⟩

/-- A credit of one to the first customer. -/
def creditRequest : Bytes :=
  Text.bytes "POST /clientes/1/transacoes HTTP/1.1\r\nContent-Length: 43\r\n\r\n" ++
    Text.bytes "\x7b\"valor\": 1, \"tipo\": \"c\", \"descricao\": \"a\"\x7d"

/-- The call that reads `creditRequest` into a fresh buffer, on the initial
table. -/
def creditCall : Call where
  passes := 0
  currentTime := Vector.replicate 20 0
  locals := ⟨⟨.balance, 0, Transaction.zero⟩, initialCustomer 0, 0⟩
  thread := .initial
  buffer := fun i => creditRequest.getD i 0
  numRead := creditRequest.length
  users := fun row => ⟨kInitialCustomers row, 1⟩

/-- It is accepted, and the answer is not one message. -/
theorem not_framed_credit :
    ∃ response, creditCall.response = some response ∧ ¬ Framed [response] := by
  obtain ⟨response, hresponse, hone⟩ := creditCall.response_eq
  refine ⟨response, hresponse, ?_⟩
  have haccepts : creditCall.Accepts := by
    refine ⟨(fromHttp (viewOf creditCall.buffer creditCall.numRead) creditCall.locals.request).2,
      0, ?_⟩
    decide +kernel
  rw [framed_iff]
  simp [hone, haccepts]

end Rinha
