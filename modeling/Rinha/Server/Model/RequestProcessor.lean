import Rinha.Common.Socket
import Rinha.Server.Model.FromHttp
import Rinha.Server.Model.RequestHandler
/-!
# `request_processor.cc`

One request buffer to one response, the bytes from `http_response` on, and
the loop that sends it.
-/

namespace Rinha

def kOkHeader : Bytes :=
  Text.bytes "HTTP/1.1 200 OK\r\nContent-Type: application/json\r\nContent-Length: "
def kBadRequestHeader : Bytes :=
  Text.bytes "HTTP/1.1 422 Unprocessable Entity\r\nContent-Length: 0\r\n\r\n"
def kNotFoundHeader : Bytes := Text.bytes "HTTP/1.1 404 NOT FOUND\r\nContent-Length: 0\r\n\r\n"

/-- `sizeof(transaction_result_buffer)`. -/
def kResultSize : ℕ := 140

def kLimiteBeginIdx : ℕ := 31 + 40 + 11 - 1
def kLimiteEndIdx : ℕ := 31 + 40 + 30 - 1
def kSaldoBeginIdx : ℕ := 31 + 40 + 41 - 1
def kSaldoEndIdx : ℕ := 31 + 40 + 61 - 1

/-- The text `transaction_result_buffer` starts with. -/
def kPrebuilt : Bytes :=
  Text.bytes "HTTP/1.1 200 OK\r\nContent-Type: " ++
  Text.bytes "application/json\r\nContent-Length: 62\r\n\r\n" ++
  Text.bytes "\x7b\"limite\":                    , \"saldo\":                     \x7d"

/-- The array as its initializer leaves it, NUL past the text. -/
def prebuilt : Vector UInt8 kResultSize := Vector.ofFn fun i => kPrebuilt.getD i 0

/-! ## The prebuilt response -/

/-- `memset(str + start, ' ', count)`. -/
def setBlank (str : Vector UInt8 kResultSize) (start count : ℕ) : Vector UInt8 kResultSize :=
  Vector.ofFn fun i => if start ≤ i.val ∧ i.val < start + count then 32 else str.get i

theorem getElem_setBlank {str : Vector UInt8 kResultSize} {start count i : ℕ}
    (hi : i < kResultSize) :
    (setBlank str start count)[i] = if start ≤ i ∧ i < start + count then 32 else str[i] := by
  simp [setBlank, Vector.get]

/-- `while (number > 0)`: the digits downward from index `i`, given as
`i + 1`, and the index they ended at, likewise. -/
def writeDigits : ℕ → Int32 → Vector UInt8 kResultSize → Vector UInt8 kResultSize × ℕ
  | 0, _, str => (str, 0)
  | i + 1, number, str =>
      if number > 0 then
        writeDigits i (number / 10) (str.setIfInBounds i (number % 10 + 48).toInt8.toUInt8)
      else (str, i + 1)

/-- `WriteNumberToString`. -/
def writeNumberToString (number : Int32) (str : Vector UInt8 kResultSize) (endIdx : ℕ) :
    Vector UInt8 kResultSize :=
  if number = 0 then str.setIfInBounds endIdx 48
  else if number < 0 then
    let written := writeDigits (endIdx + 1) (-number) str
    written.1.setIfInBounds (written.2 - 1) 45
  else (writeDigits (endIdx + 1) number str).1

/-- `BuildTransactionResponse`. -/
def buildTransactionResponse (buffer : Vector UInt8 kResultSize) (customer : Customer) :
    Vector UInt8 kResultSize :=
  let buffer := setBlank buffer kLimiteBeginIdx (kLimiteEndIdx - kLimiteBeginIdx + 1)
  let buffer := setBlank buffer kSaldoBeginIdx (kSaldoEndIdx - kSaldoBeginIdx + 1)
  let buffer := writeNumberToString customer.limit buffer kLimiteEndIdx
  writeNumberToString customer.balance buffer kSaldoEndIdx

/-! ## Where it writes -/

/-- The indices the response's two numbers are written at. -/
def InWindow (i : ℕ) : Prop :=
  (kLimiteBeginIdx ≤ i ∧ i ≤ kLimiteEndIdx) ∨ (kSaldoBeginIdx ≤ i ∧ i ≤ kSaldoEndIdx)

section

variable {window : ℕ → Prop} {str str' str'' : Vector UInt8 kResultSize} {number : Int32}

/-- Outside the window nothing was written. -/
def AgreesOutside (window : ℕ → Prop) (str str' : Vector UInt8 kResultSize) : Prop :=
  ∀ i (h : i < kResultSize), ¬ window i → str'[i] = str[i]

theorem AgreesOutside.refl : AgreesOutside window str str := fun _ _ _ => rfl

theorem AgreesOutside.trans (h : AgreesOutside window str str')
    (h' : AgreesOutside window str' str'') : AgreesOutside window str str'' :=
  fun i hi hw => (h' i hi hw).trans (h i hi hw)

theorem agreesOutside_set {i : ℕ} {b : UInt8} (h : window i) :
    AgreesOutside window str (str.setIfInBounds i b) := fun j hj hw => by
  have hne : i ≠ j := fun heq => hw (heq ▸ h)
  simp [hne]

theorem agreesOutside_setBlank {start count : ℕ}
    (h : ∀ i, start ≤ i → i < start + count → window i) :
    AgreesOutside window str (setBlank str start count) := fun i hi hw => by
  have hout : ¬(start ≤ i ∧ i < start + count) := fun hin => hw (h i hin.1 hin.2)
  simp [setBlank, hout]
  rfl

/-- A division by ten takes a digit off. -/
theorem toInt_div_ten (h : 0 < number.toInt) : (number / 10).toInt = number.toInt / 10 := by
  have h10 : (10 : Int32).toInt = 10 := rfl
  rw [Int32.toInt_div_of_ne_right _ _ (by decide), h10, Int.tdiv_eq_ediv_of_nonneg (by omega)]

/-- **A number of `k` digits** is written at `k` indices. -/
theorem writeDigits_spec (str : Vector UInt8 kResultSize) {k i : ℕ}
    (hsize : number.toInt < 10 ^ k) (hk : k ≤ i)
    (hw : ∀ j, i - k ≤ j → j < i → window j) :
    AgreesOutside window str (writeDigits i number str).1 ∧
      i - k ≤ (writeDigits i number str).2 ∧ (writeDigits i number str).2 ≤ i := by
  have h0 : (0 : Int32).toInt = 0 := rfl
  induction k generalizing i number str with
  | zero =>
      cases i with
      | zero => exact ⟨.refl, by simp [writeDigits], by simp [writeDigits]⟩
      | succ i =>
          have hstop : ¬ number > 0 := by
            rw [gt_iff_lt, Int32.lt_iff_toInt_lt, h0]
            omega
          rw [writeDigits, if_neg hstop]
          exact ⟨.refl, by simp, le_refl _⟩
  | succ k ih =>
      obtain ⟨i, rfl⟩ : ∃ i', i = i' + 1 := ⟨i - 1, by omega⟩
      rw [writeDigits]
      split
      · rename_i hpos
        rw [gt_iff_lt, Int32.lt_iff_toInt_lt, h0] at hpos
        have hrest : (number / 10).toInt < 10 ^ k := by
          rw [toInt_div_ten hpos]
          rw [Int.pow_succ] at hsize
          omega
        have hwin : ∀ j, i - k ≤ j → j < i → window j :=
          fun j hj hji => hw j (by omega) (by omega)
        obtain ⟨hagree, hlo, hhi⟩ := ih
          (str.setIfInBounds i (number % 10 + 48).toInt8.toUInt8) hrest (by omega) hwin
        exact ⟨(agreesOutside_set (hw i (by omega) (by omega))).trans hagree, by omega, by omega⟩
      · exact ⟨.refl, by simp; omega, le_refl _⟩

/-- A number is written within eleven indices, its sign included. -/
theorem agreesOutside_writeNumberToString {endIdx : ℕ} (hroom : 10 ≤ endIdx)
    (hw : ∀ j, endIdx - 10 ≤ j → j ≤ endIdx → window j) :
    AgreesOutside window str (writeNumberToString number str endIdx) := by
  have hdigits : ∀ n : Int32, n.toInt < 10 ^ 10 := fun n => by
    have := n.toInt_lt
    omega
  have hrange : ∀ j, endIdx + 1 - 10 ≤ j → j < endIdx + 1 → window j :=
    fun j hj hji => hw j (by omega) (by omega)
  unfold writeNumberToString
  split
  · exact agreesOutside_set (hw endIdx (by omega) (le_refl _))
  · split
    · obtain ⟨hagree, hlo, hhi⟩ := writeDigits_spec str (hdigits (-number))
        (show 10 ≤ endIdx + 1 by omega) hrange
      generalize writeDigits (endIdx + 1) (-number) str = written at hagree hlo hhi
      exact hagree.trans (agreesOutside_set (hw _ (by omega) (by omega)))
    · exact (writeDigits_spec str (hdigits number) (by omega) hrange).1

/-- **`BuildTransactionResponse` writes inside the two windows.** -/
theorem agreesOutside_buildTransactionResponse {customer : Customer} :
    AgreesOutside InWindow str (buildTransactionResponse str customer) := by
  have hlimite : ∀ s, AgreesOutside InWindow s
      (setBlank s kLimiteBeginIdx (kLimiteEndIdx - kLimiteBeginIdx + 1)) := fun s =>
    agreesOutside_setBlank fun j hj hji => .inl ⟨hj, by
      simp only [kLimiteBeginIdx, kLimiteEndIdx] at *
      omega⟩
  have hsaldo : ∀ s, AgreesOutside InWindow s
      (setBlank s kSaldoBeginIdx (kSaldoEndIdx - kSaldoBeginIdx + 1)) := fun s =>
    agreesOutside_setBlank fun j hj hji => .inr ⟨hj, by
      simp only [kSaldoBeginIdx, kSaldoEndIdx] at *
      omega⟩
  have hlimit : ∀ s n, AgreesOutside InWindow s (writeNumberToString n s kLimiteEndIdx) :=
    fun s n => agreesOutside_writeNumberToString (by decide) fun j hj hji => .inl ⟨by
      simp only [kLimiteBeginIdx, kLimiteEndIdx] at *
      omega, hji⟩
  have hbalance : ∀ s n, AgreesOutside InWindow s (writeNumberToString n s kSaldoEndIdx) :=
    fun s n => agreesOutside_writeNumberToString (by decide) fun j hj hji => .inr ⟨by
      simp only [kSaldoBeginIdx, kSaldoEndIdx] at *
      omega, hji⟩
  exact ((hlimite _).trans (hsaldo _)).trans ((hlimit _ _).trans (hbalance _ _))

end

/-- `transaction_result_buffer`, in any state a thread can bring it to:
outside the windows it is as initialized. -/
structure ResultBuffer where
  bytes : Vector UInt8 kResultSize
  agrees : AgreesOutside InWindow prebuilt bytes

def ResultBuffer.initial : ResultBuffer := ⟨prebuilt, .refl⟩

def ResultBuffer.build (buffer : ResultBuffer) (customer : Customer) : ResultBuffer :=
  ⟨buildTransactionResponse buffer.bytes customer,
    buffer.agrees.trans agreesOutside_buildTransactionResponse⟩

/-! ## A request -/

/-- The `thread_local` and `static thread_local` variables of
`ProcessRequest`. -/
structure ThreadLocals where
  transactionResultBuffer : ResultBuffer
  responseBody : Bytes

def ThreadLocals.initial : ThreadLocals where
  transactionResultBuffer := .initial
  responseBody := List.replicate (kOkHeader.length + 1 + 1024) 0

/-- `buffer[num_read] = '\0'`. -/
def terminate (buffer : ℕ → UInt8) (numRead : ℕ) : ℕ → UInt8 :=
  fun i => if i = numRead then 0 else buffer i

/-- The view of a terminated buffer: `strlen` finds its size. -/
def viewOf (buffer : ℕ → UInt8) (numRead : ℕ) : StringView where
  memory := terminate buffer numRead
  data := 0
  size := ((List.range numRead).find? fun i => buffer i == 0).getD numRead

section

variable {m : Type → Type} [Monad m] (hs : HandlerSocket m)

/-- The `switch` on the result: the bytes to send, and the thread's
variables. -/
def respond (thread : ThreadLocals) (request : Request) (customer : Customer) :
    Result → Bytes × ThreadLocals
  | .success =>
      match request.type with
      | .transaction =>
          let buffer := thread.transactionResultBuffer.build customer
          (buffer.bytes.toList, { thread with transactionResultBuffer := buffer })
      | .balance =>
          (kOkHeader ++ Decimal.ofNat thread.responseBody.length ++ Text.crlf2 ++
            thread.responseBody, thread)
  | .invalidRequest => (kBadRequestHeader, thread)
  | .notFound => (kNotFoundHeader, thread)

/-- `ProcessRequest`, up to the send loop: the bytes to send and the
thread's variables, or `none` when the passes run out. -/
def processRequest (passes : ℕ) (currentTime : Vector UInt8 20) (locals : Locals)
    (thread : ThreadLocals) (buffer : ℕ → UInt8) (numRead : ℕ) :
    m (Option (Bytes × ThreadLocals)) := do
  let (success, request) := fromHttp (viewOf buffer numRead) locals.request
  if !success then return some (respond thread request locals.customer .invalidRequest)
  match ← handleRequest hs passes currentTime locals request thread.responseBody
      locals.customer with
  | none => return none
  | some (result, responseBody, customer) =>
    return some (respond { thread with responseBody := responseBody } request customer result)

end

/-! ## The send loop -/

/-- `while (write_count < http_response_length)`, with what the `write`
calls return: what the socket has taken and `close_connection`, or `none`
while the results are not enough for the loop to end. `DCHECK` is nothing
in a release build. -/
def sendLoop (response : Bytes) : List WriteResult → ℕ → Bytes → Option (Bytes × Bool)
  | [], writeCount, wire => if writeCount < response.length then none else some (wire, false)
  | result :: results, writeCount, wire =>
      if writeCount < response.length then
        match result with
        | .eagain => some (wire, false)
        | .error => some (wire, true)
        | .wrote count =>
            if count = 0 then some (wire, true)
            else sendLoop response results (writeCount + count)
              (wire ++ (response.drop writeCount).take count)
      else some (wire, false)

end Rinha
