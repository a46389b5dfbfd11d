import Rinha.Common.Bank
import Rinha.Server.Statement
import Rinha.Server.TransactionResponse
import Rinha.Server.Verdict
import Rinha.Store.Ledger
/-!
# The bank a client sees

From the bytes of the requests to the bytes of the responses the program
is five accounts in exact arithmetic: whatever buffers the threads are
handed, one after the other, the responses are those of the accounts. What
is asked is what the parser makes of the buffer, and what is answered is
an account, written out. The condition is that no sum leaves the range of
an `int`, and that no value is the one that has no opposite.
-/

namespace Rinha

open Bank

/-! ## Questions and answers, in bytes -/

/-- What an entry is shown with. -/
structure Details where
  description : Bytes
  timestamp : Bytes
  deriving DecidableEq

/-- The entry a transaction is. -/
def entryOf (transaction : Transaction) : Bank.Entry Details where
  value := transaction.value.toInt
  details := ⟨Text.cstr transaction.description.toList, Text.cstr transaction.timestamp.toList⟩

/-- What a parsed request asks. -/
def askOf (currentTime : Vector UInt8 20) (parsed : Bool × Request) : Ask (Fin 5) Details Bytes :=
  if !parsed.1 then .unreadable else
  match rowIndex parsed.2.id with
  | none => .unknown
  | some row =>
    match parsed.2.type with
    | .balance => .statement row (Text.cstr currentTime.toList)
    | .transaction => .post row (entryOf (stamp parsed.2.transaction currentTime))

/-- An entry of a statement. -/
def entryText (entry : Bank.Entry Details) : Bytes :=
  kTransacaoValor ++ Decimal.ofNat entry.value.natAbs ++
    kTransacaoTipo ++ (if 0 < entry.value then Text.bytes "c" else Text.bytes "d") ++
    kTransacaoDescricao ++ entry.details.description ++
    kTransacaoRealizada ++ entry.details.timestamp ++ kTransacaoEnd

/-- A statement: the balance, the limit, and the last ten entries, the newest
first. -/
def statementText (account : Account Details) (now : Bytes) : Bytes :=
  kTotal ++ Decimal.ofInt account.balance ++ kData ++ now ++ kLimite ++
    Decimal.ofInt account.limit ++ kUltimas ++
    comma.intercalate ((account.history.reverse.take 10).map entryText) ++ kEnd

/-- A number behind blanks. -/
def paddedTo (k : ℕ) (x : ℤ) : Bytes :=
  List.replicate (k - (Decimal.ofInt x).length) 32 ++ Decimal.ofInt x

/-- The answer to an entry, with what is left of the array it is built in. -/
def postedText (account : Account Details) : Bytes :=
  kOkHeader ++ Decimal.ofNat 62 ++ Text.crlf2 ++
    (Text.bytes "\x7b\"limite\":" ++ paddedTo 20 account.limit ++ Text.bytes ", \"saldo\":" ++
      paddedTo 21 account.balance ++ Text.bytes "\x7d") ++ List.replicate 7 0

/-- The bytes of an answer. -/
def answerText : Answer Details Bytes → Bytes
  | .unreadable | .refused => kBadRequestHeader
  | .unknown => kNotFoundHeader
  | .statement account now => statementResponse (statementText account now)
  | .posted account => postedText account

/-! ## The accounts of a table -/

/-- The customer of a row keeps the account. -/
structure Keeps (row : Fin 5) (account : Account Details) (customer : Customer) : Prop where
  within : Workers.WithinLine row customer
  limit : customer.limit.toInt = account.limit
  balance : customer.balance.toInt = account.balance
  ring : ∃ log, RingOf log customer ∧ log.map entryOf = account.history ∧
    ∀ transaction ∈ log, transaction.value ≠ Int32.minValue

/-- A question the arithmetic is exact for. -/
def Exact {τ : Type} (bank : Fin 5 → Account Details) : Ask (Fin 5) Details τ → Prop
  | .post row entry =>
      SignedInt.Fits ((bank row).balance + entry.value) ∧ entry.value ≠ -2 ^ 31
  | _ => True

instance {τ : Type} (bank : Fin 5 → Account Details) (ask : Ask (Fin 5) Details τ) :
    Decidable (Exact bank ask) :=
  match ask with
  | .post _ _ => inferInstanceAs (Decidable ((_ ∧ _) ∧ _))
  | .unreadable | .unknown | .statement _ _ => isTrue trivial

/-- The accounts `kInitialCustomers` opens. -/
def openings (row : Fin 5) : Account Details :=
  .opening (#v[100000, 80000, 1000000, 10000000, 500000].get row)

theorem keeps_openings (row : Fin 5) : Keeps row (openings row) (kInitialCustomers row) where
  within := Workers.withinLine_init row
  limit := by
    revert row
    decide
  balance := rfl
  ring := ⟨[], .init row, rfl, fun _ h => by cases h⟩

section

variable {row : Fin 5} {account : Account Details} {customer : Customer}
variable {transaction : Transaction}

/-- **An entry of the statement** is the transaction's, as long as its value
has an opposite. -/
theorem transactionToJson_eq (h : transaction.value ≠ Int32.minValue) :
    transactionToJson transaction = entryText (entryOf transaction) := by
  rw [transactionToJson_shown h, shownEntry, entryText, entryOf]
  split <;> rfl

theorem Keeps.statement (h : Keeps row account customer) (now : Bytes) :
    customerToJson customer now = statementText account now := by
  obtain ⟨log, hring, hlog, hvalues⟩ := h.ring
  have hentries : entries (log.reverse.take 10) =
      comma.intercalate ((account.history.reverse.take 10).map entryText) := by
    rw [entries, ← hlog, ← List.map_reverse, ← List.map_take, List.map_map]
    refine congrArg _ (List.map_congr_left fun transaction hmem => ?_)
    exact transactionToJson_eq (hvalues _ (List.mem_reverse.mp (List.mem_of_mem_take hmem)))
  rw [hring.customerToJson_eq, statementHead, statementText, h.balance, h.limit, hentries]

/-- The customer's numbers have opposites, so they can be written. -/
theorem Keeps.ne_minValue (h : Keeps row account customer) :
    customer.limit ≠ Int32.minValue ∧ customer.balance ≠ Int32.minValue := by
  have hlimit : ∀ row, (kInitialCustomers row).limit.toInt ≤ 10000000 ∧
      0 ≤ (kInitialCustomers row).limit.toInt := by decide
  have hrow := hlimit row
  obtain ⟨hsame, hline⟩ := h.within
  rw [← hsame] at hrow
  rw [toInt_ne_minValue, toInt_ne_minValue]
  omega

theorem Keeps.posted (h : Keeps row account customer) (buffer : ResultBuffer) :
    (buffer.build customer).bytes.toList = postedText account := by
  obtain ⟨hlimit, hbalance⟩ := h.ne_minValue
  refine (toList_buildTransactionResponse buffer.agrees hlimit hbalance).trans ?_
  rw [postedText, resultBody, window, window, paddedTo, paddedTo, h.limit, h.balance]

/-- **The check is the account's**, where the sum is exact. -/
theorem Keeps.takes_iff (h : Keeps row account customer)
    (hfits : SignedInt.Fits (account.balance + (entryOf transaction).value)) :
    account.Takes (entryOf transaction) ↔ limitExceeded customer transaction = false := by
  rw [← h.balance] at hfits
  have hcheck := limitExceeded_iff h.within transaction
  rw [SignedInt.toInt_add_of_fits hfits] at hcheck
  have hentry : (entryOf transaction).value = transaction.value.toInt := rfl
  rw [← Bool.not_eq_true, hcheck, Account.Takes, ← h.balance, ← h.limit, hentry]
  omega

/-- **A transaction that is let through is posted.** -/
theorem Keeps.post (h : Keeps row account customer)
    (hfits : SignedInt.Fits (account.balance + (entryOf transaction).value))
    (hvalue : (entryOf transaction).value ≠ -2 ^ 31)
    (htakes : account.Takes (entryOf transaction)) :
    Keeps row (account.post (entryOf transaction) htakes)
      (applyTransaction customer transaction) where
  within := h.within.apply ((h.takes_iff hfits).mp htakes)
  limit := h.limit
  balance := by
    rw [← h.balance] at hfits
    rw [Account.post_balance, ← h.balance]
    exact SignedInt.toInt_add_of_fits hfits
  ring := by
    obtain ⟨log, hring, hlog, hvalues⟩ := h.ring
    refine ⟨log ++ [transaction], hring.apply, ?_, fun t ht => ?_⟩
    · rw [List.map_append, hlog, Account.post_history, List.map_singleton]
    · rcases List.mem_append.mp ht with ht | ht
      · exact hvalues t ht
      · rw [List.mem_singleton.mp ht]
        exact toInt_ne_minValue.mpr hvalue

end

/-! ## One request -/

section

variable {bank : Fin 5 → Account Details} {users : Users} {currentTime : Vector UInt8 20}
variable {thread : ThreadLocals}

theorem keeps_update {row row' : Fin 5} {transaction : Transaction} {account : Account Details}
    (h : ∀ row, Keeps row (bank row) (users row).data)
    (hrow : Keeps row account (applyTransaction (users row).data transaction)) :
    Keeps row' (Function.update bank row account row') (users.apply row transaction row').data := by
  by_cases heq : row' = row
  · subst heq
    rwa [Function.update_self, Users.apply_self]
  · rw [Function.update_of_ne heq, Users.apply_of_ne heq]
    exact h row'

/-- **A request is a question.** The response is the answer, and the table
keeps the accounts there are afterwards. -/
theorem verdict_exact (thread : ThreadLocals)
    (h : ∀ row, Keeps row (bank row) (users row).data)
    (parsed : Bool × Request) (hexact : Exact bank (askOf currentTime parsed)) :
    let v := verdict users currentTime parsed
    let answered := answer bank (askOf currentTime parsed)
    responseOf (thread.after users currentTime v) v = answerText answered.1 ∧
      ∀ row, Keeps row (answered.2 row) (users.after v row).data := by
  obtain ⟨success, request⟩ := parsed
  cases success with
  | false => exact ⟨rfl, h⟩
  | true =>
      intro v answered
      have hask : askOf currentTime (true, request) =
          match rowIndex request.id with
          | none => .unknown
          | some row =>
            match request.type with
            | .balance => .statement row (Text.cstr currentTime.toList)
            | .transaction => .post row (entryOf (stamp request.transaction currentTime)) := rfl
      have hjudged : Judged users currentTime request v := judged_verdict request
      simp only [answered]
      generalize v = v at hjudged ⊢
      cases hjudged with
      | unknown hid =>
          rw [hask, hid]
          exact ⟨rfl, h⟩
      | statement row hid htype =>
          rw [hask, hid, htype]
          refine ⟨?_, h⟩
          exact congrArg statementResponse ((h row).statement _)
      | exceeded row hid htype hlim =>
          simp only [hask, hid, htype] at hexact ⊢
          have hnot : ¬(bank row).Takes (entryOf (stamp request.transaction currentTime)) := by
            rw [(h row).takes_iff hexact.1, hlim]
            decide
          rw [Bank.answer, dif_neg hnot]
          exact ⟨rfl, h⟩
      | accepted row hid htype hlim =>
          simp only [hask, hid, htype] at hexact ⊢
          have htakes := ((h row).takes_iff hexact.1).mpr hlim
          have hposted := (h row).post hexact.1 hexact.2 htakes
          rw [Bank.answer, dif_pos htakes]
          exact ⟨hposted.posted _, fun row' => keeps_update h hposted⟩

end

/-! ## A run -/

/-- A call of `ProcessRequest`: the thread, its buffer, the time, and what the
uninitialised variables hold. -/
structure Arrival where
  thread : ℕ
  buffer : ℕ → UInt8
  numRead : ℕ
  currentTime : Vector UInt8 20
  locals : Locals
  passes : ℕ

/-- What it asks. -/
def Arrival.ask (arrival : Arrival) : Ask (Fin 5) Details Bytes :=
  askOf arrival.currentTime
    (fromHttp (viewOf arrival.buffer arrival.numRead) arrival.locals.request)

/-- The calls one after the other, each with the variables of its thread, and
the bytes each has for its client. -/
def processAll (threads : ℕ → ThreadLocals) : List Arrival → StateM Users (List (Option Bytes))
  | [] => return []
  | arrival :: arrivals => do
    let thread := threads arrival.thread
    let sent ← processRequest tableSocket (arrival.passes + 1) arrival.currentTime arrival.locals
      thread arrival.buffer arrival.numRead
    let threads := Function.update threads arrival.thread ((sent.map Prod.snd).getD thread)
    let responses ← processAll threads arrivals
    return sent.map Prod.fst :: responses

theorem processAll_cons (threads : ℕ → ThreadLocals) (arrival : Arrival)
    (arrivals : List Arrival) (users : Users) :
    let v := verdictOn users arrival.currentTime arrival.locals arrival.buffer arrival.numRead
    let thread := (threads arrival.thread).after users arrival.currentTime v
    let rest := (processAll (Function.update threads arrival.thread thread) arrivals).run
      (users.after v)
    (processAll threads (arrival :: arrivals)).run users =
      (some (responseOf thread v) :: rest.1, rest.2) := by
  intro v thread rest
  have hcall := @processRequest_table users arrival.currentTime arrival.locals
    (threads arrival.thread) arrival.buffer arrival.numRead arrival.passes
  simp only [processAll, StateT.run_bind, hcall]
  rfl

/-- From any table that keeps the accounts. -/
theorem processAll_keeps (threads : ℕ → ThreadLocals) (arrivals : List Arrival)
    {bank : Fin 5 → Account Details} {users : Users}
    (h : ∀ row, Keeps row (bank row) (users row).data)
    (hexact : Along Exact bank (arrivals.map Arrival.ask)) :
    let run := (processAll threads arrivals).run users
    let answered := Bank.answerAll bank (arrivals.map Arrival.ask)
    run.1 = answered.1.map (fun answer => some (answerText answer)) ∧
      ∀ row, Keeps row (answered.2 row) (run.2 row).data := by
  induction arrivals generalizing threads bank users with
  | nil => exact ⟨rfl, h⟩
  | cons arrival arrivals ih =>
      obtain ⟨hfirst, hrest⟩ := hexact
      obtain ⟨hresponse, hkeeps⟩ := verdict_exact (threads arrival.thread) h _ hfirst
      obtain ⟨hresponses, hleft⟩ := ih (Function.update threads arrival.thread _) hkeeps hrest
      simp only [processAll_cons, List.map_cons, Bank.answerAll]
      exact ⟨List.cons_eq_cons.mpr ⟨congrArg some hresponse, hresponses⟩, hleft⟩

/-- **The program is five accounts.** From the table as it is initialized, and
whatever the threads' variables hold, any requests on any threads, well
formed or not, are answered byte for byte as the accounts answer what is
asked, and the table keeps the accounts in the end. -/
theorem processAll_exact (versions : Fin 5 → Int32) (threads : ℕ → ThreadLocals)
    (arrivals : List Arrival) (h : Along Exact openings (arrivals.map Arrival.ask)) :
    let run := (processAll threads arrivals).run fun row => ⟨kInitialCustomers row, versions row⟩
    let answered := Bank.answerAll openings (arrivals.map Arrival.ask)
    run.1 = answered.1.map (fun answer => some (answerText answer)) ∧
      ∀ row, Keeps row (answered.2 row) (run.2 row).data :=
  processAll_keeps threads arrivals keeps_openings h

/-- A request in the buffer of a thread, at the empty time. -/
def arrivalOf (thread : ℕ) (bytes : Bytes) : Arrival where
  thread := thread
  buffer := fun i => bytes.getD i 0
  numRead := bytes.length
  currentTime := Vector.replicate 20 0
  locals := ⟨⟨.balance, 0, Transaction.zero⟩, initialCustomer 0, 0⟩
  passes := 0

/-- A credit of five to the first customer on one thread, and its statement on
another. -/
def twoArrivals : List Arrival :=
  [arrivalOf 0 (Text.bytes "POST /clientes/1/transacoes HTTP/1.1\r\n\r\n" ++
      Text.bytes "\x7b\"valor\": 5, \"tipo\": \"c\", \"descricao\": \"x\"\x7d"),
    arrivalOf 1 (Text.bytes "GET /clientes/1/extrato HTTP/1.1\r\n\r\n")]

/-- The credit is posted, and it is what the statement shows. -/
theorem processAll_exact_two :
    ((processAll (fun _ => .initial) twoArrivals).run fun row => ⟨kInitialCustomers row, 1⟩).1 =
      (Bank.answerAll openings (twoArrivals.map Arrival.ask)).1.map
        (fun answer => some (answerText answer)) ∧
      ((Bank.answerAll openings (twoArrivals.map Arrival.ask)).2 0).history =
        [⟨5, ⟨Text.bytes "x", []⟩⟩] := by
  have hexact : Along Exact openings (twoArrivals.map Arrival.ask) := by decide +kernel
  obtain ⟨hresponses, -⟩ := processAll_exact (fun _ => 1) (fun _ => .initial) twoArrivals hexact
  exact ⟨hresponses, by decide +kernel⟩

end Rinha
