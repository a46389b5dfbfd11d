import Rinha.Server.Model.RequestProcessor
import Rinha.Store.Execute
/-!
# What becomes of a request

On a table no one else writes, a request comes to one of five things, and
both the bytes sent and the change to the table follow from which it is.
`processRequest_table` says so of the code, all four layers of it, and
the answer and the effect are compared on the five cases from there on.
-/

namespace Rinha

/-- What a request comes to. -/
inductive Verdict
  | unparsed
  | unknown
  | statement (row : Fin 5)
  | exceeded (row : Fin 5)
  | accepted (row : Fin 5) (transaction : Transaction)
  deriving DecidableEq

/-- What a parsed request comes to on a table. -/
def verdict (users : Users) (currentTime : Vector UInt8 20) (parsed : Bool × Request) : Verdict :=
  if !parsed.1 then .unparsed else
  match rowIndex parsed.2.id with
  | none => .unknown
  | some row =>
    match parsed.2.type with
    | .balance => .statement row
    | .transaction =>
      let transaction := stamp parsed.2.transaction currentTime
      if limitExceeded (users row).data transaction then .exceeded row
      else .accepted row transaction

/-- The verdict on what the buffer holds. -/
def verdictOn (users : Users) (currentTime : Vector UInt8 20) (locals : Locals)
    (buffer : ℕ → UInt8) (numRead : ℕ) : Verdict :=
  verdict users currentTime (fromHttp (viewOf buffer numRead) locals.request)

/-- The table afterwards. -/
def Users.after (users : Users) : Verdict → Users
  | .accepted row transaction => users.apply row transaction
  | _ => users

/-- The thread's variables afterwards. -/
def ThreadLocals.after (thread : ThreadLocals) (users : Users) (currentTime : Vector UInt8 20) :
    Verdict → ThreadLocals
  | .statement row =>
      { thread with
        responseBody := customerToJson (users row).data (Text.cstr currentTime.toList) }
  | .accepted row transaction =>
      { thread with
        transactionResultBuffer :=
          thread.transactionResultBuffer.build (applyTransaction (users row).data transaction) }
  | _ => thread

/-- The head and the body of a statement's response. -/
def statementResponse (body : Bytes) : Bytes :=
  kOkHeader ++ Decimal.ofNat body.length ++ Text.crlf2 ++ body

/-- The bytes sent, from the thread's variables as they are afterwards. -/
def responseOf (thread : ThreadLocals) : Verdict → Bytes
  | .unparsed | .exceeded _ => kBadRequestHeader
  | .unknown => kNotFoundHeader
  | .statement _ => statementResponse thread.responseBody
  | .accepted _ _ => thread.transactionResultBuffer.bytes.toList

section

variable {users : Users} {currentTime : Vector UInt8 20} {locals : Locals}
variable {thread : ThreadLocals} {buffer : ℕ → UInt8} {numRead : ℕ}

/-- The limit check does not see the time. -/
theorem limitExceeded_stamp (customer : Customer) (transaction : Transaction) :
    limitExceeded customer (stamp transaction currentTime) =
      limitExceeded customer transaction := by
  rw [limitExceeded, limitExceeded, stamp_value]

/-- Which verdicts a parsed request may come to, and when. -/
inductive Judged (users : Users) (currentTime : Vector UInt8 20) (request : Request) :
    Verdict → Prop
  | unknown (hid : rowIndex request.id = none) : Judged users currentTime request .unknown
  | statement (row : Fin 5) (hid : rowIndex request.id = some row)
      (htype : request.type = .balance) : Judged users currentTime request (.statement row)
  | exceeded (row : Fin 5) (hid : rowIndex request.id = some row)
      (htype : request.type = .transaction)
      (hlim : limitExceeded (users row).data (stamp request.transaction currentTime) = true) :
      Judged users currentTime request (.exceeded row)
  | accepted (row : Fin 5) (hid : rowIndex request.id = some row)
      (htype : request.type = .transaction)
      (hlim : limitExceeded (users row).data (stamp request.transaction currentTime) = false) :
      Judged users currentTime request (.accepted row (stamp request.transaction currentTime))

theorem judged_verdict (request : Request) :
    Judged users currentTime request (verdict users currentTime (true, request)) := by
  simp only [verdict, Bool.not_true, Bool.false_eq_true, if_false]
  cases hid : rowIndex request.id with
  | none => exact .unknown hid
  | some row =>
      cases htype : request.type with
      | balance => exact .statement row hid htype
      | transaction =>
          cases hlim : limitExceeded (users row).data (stamp request.transaction currentTime) with
          | true => simpa [hlim] using Judged.exceeded row hid htype hlim
          | false => simpa [hlim] using Judged.accepted row hid htype hlim

/-- **`HandleRequest` without a concurrent writer.** The customer is looked
at after an accepted transaction alone. -/
theorem handleRequest_table (passes : ℕ) (request : Request) (responseBody : Bytes)
    (customer : Customer) :
    ∃ left : Customer, (handleRequest tableSocket (passes + 1) currentTime locals request
        responseBody customer).run users =
      match verdict users currentTime (true, request) with
      | .unparsed => (none, users)
      | .unknown => (some (.notFound, responseBody, left), users)
      | .statement row => (some (.success,
          customerToJson (users row).data (Text.cstr currentTime.toList), left), users)
      | .exceeded _ => (some (.invalidRequest, responseBody, left), users)
      | .accepted row transaction => (some (.success, responseBody,
          applyTransaction (users row).data transaction), users.apply row transaction) := by
  cases htype : request.type with
  | balance =>
      refine ⟨customer, ?_⟩
      simp only [handleRequest, htype, verdict, StateT.run_bind, getCustomer_table]
      cases rowIndex request.id <;> rfl
  | transaction =>
      simp only [handleRequest, htype, verdict, StateT.run_bind]
      cases hid : rowIndex request.id with
      | none =>
          refine ⟨customer, ?_⟩
          rw [execute_table_notFound (passes + 1) hid]
          rfl
      | some row =>
          refine ⟨(users row).data, ?_⟩
          rw [execute_table passes hid]
          simp only [Bool.not_true, Bool.false_eq_true, if_false]
          cases limitExceeded (users row).data (stamp request.transaction currentTime) <;> rfl

/-- **`ProcessRequest` without a concurrent writer** sends the response of
the verdict and leaves its effect. -/
theorem processRequest_table (passes : ℕ) :
    let v := verdictOn users currentTime locals buffer numRead
    (processRequest tableSocket (passes + 1) currentTime locals thread buffer numRead).run users =
      (some (responseOf (thread.after users currentTime v) v, thread.after users currentTime v),
        users.after v) := by
  intro v
  rcases hp : fromHttp (viewOf buffer numRead) locals.request with ⟨success, request⟩
  cases success with
  | false =>
      have hv : v = .unparsed := by simp [v, verdictOn, hp, verdict]
      simp only [processRequest, hp, hv]
      rfl
  | true =>
      obtain ⟨left, hhandle⟩ := @handleRequest_table users currentTime locals passes request
        thread.responseBody locals.customer
      have hv : v = verdict users currentTime (true, request) := by rw [← hp]; rfl
      simp only [processRequest, hp, Bool.not_true, Bool.false_eq_true, if_false,
        StateT.run_bind, hhandle, hv]
      have hjudged := @judged_verdict users currentTime request
      generalize verdict users currentTime (true, request) = verdict at hjudged
      cases hjudged with
      | unknown hid => rfl
      | statement row hid htype => simp only [respond, htype]; rfl
      | exceeded row hid htype hlim => rfl
      | accepted row hid htype hlim => simp only [respond, htype]; rfl

end

end Rinha
