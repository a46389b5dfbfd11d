import Rinha.Server.Effect
import Rinha.Server.View
/-!
# The customer a path names

The id is one byte at a fixed index, the range check is two layers down,
and the path is not looked at between. So a number of one digit is read
as it stands, and of a longer one the first digit names the row.
-/

namespace Rinha

/-- The request line of either kind, with the customer's number. -/
def requestLine : RequestType → Bytes → Bytes
  | .balance, digits => Text.bytes "GET /clientes/" ++ digits ++ Text.bytes "/extrato HTTP/1.1"
  | .transaction, digits =>
      Text.bytes "POST /clientes/" ++ digits ++ Text.bytes "/transacoes HTTP/1.1"

/-- The two stores are the same for the customer of that number. -/
structure AgreesOn {m : Type → Type} (number : ℕ) (hs hs' : HandlerSocket m) : Prop where
  read : ∀ row : Fin 5, row + 1 = number → hs.readCustomerHs row = hs'.readCustomerHs row
  write : ∀ row : Fin 5, row + 1 = number → hs.writeCustomerHs row = hs'.writeCustomerHs row

/-- A call keeps to the customer its path names: the id is that number, no
other row is read or written, and a number of no row is answered `404` or
`422` without the store. -/
structure KeepsToPath (locals : Locals) (buffer : ℕ → UInt8) (numRead : ℕ) (number : ℕ) :
    Prop where
  id : (fromHttp (viewOf buffer numRead) locals.request).2.id.toInt = number
  store : ∀ (m : Type → Type) [Monad m] (hs hs' : HandlerSocket m), AgreesOn number hs hs' →
    ∀ passes currentTime thread,
      processRequest hs passes currentTime locals thread buffer numRead =
        processRequest hs' passes currentTime locals thread buffer numRead
  unknown : ¬(1 ≤ number ∧ number ≤ 5) → ∀ (m : Type → Type) [Monad m] [LawfulMonad m]
    (hs : HandlerSocket m) passes currentTime thread, ∃ response,
      processRequest hs passes currentTime locals thread buffer numRead =
        pure (some (response, thread)) ∧
      (statusOf response = Text.bytes "404" ∨ statusOf response = Text.bytes "422")

variable {m : Type → Type} [Monad m] {hs hs' : HandlerSocket m} {number : ℕ} {id : Int32}
variable {request r s : Request} {http : StringView} {digits rest : Bytes} {kind : RequestType}

/-! ## The row of an id -/

theorem AgreesOn.mariaDbGetCustomer (h : AgreesOn number hs hs') (hid : id.toInt = number)
    (customer : Customer) (version : Int32) :
    mariaDbGetCustomer hs id customer version = mariaDbGetCustomer hs' id customer version := by
  unfold Rinha.mariaDbGetCustomer
  cases hrow : rowIndex id with
  | none => rfl
  | some row =>
      have hnumber : (row : ℕ) + 1 = number := by
        have := toInt_of_rowIndex hrow
        omega
      simp only [h.read row hnumber]

theorem AgreesOn.executeLoop (h : AgreesOn number hs hs') {row : Fin 5} (hrow : row + 1 = number)
    (transaction : Transaction) (version : Int32) (passes : ℕ) (customer : Customer) :
    executeLoop hs row transaction version passes customer =
      executeLoop hs' row transaction version passes customer := by
  have hattempt : ∀ customer,
      attempt hs row transaction customer version = attempt hs' row transaction customer version :=
    fun customer => by unfold attempt; rw [h.read row hrow, h.write row hrow]
  induction passes generalizing customer with
  | zero => rfl
  | succ passes ih => simp only [Rinha.executeLoop, hattempt, ih]

theorem AgreesOn.handleRequest (h : AgreesOn number hs hs') (hid : request.id.toInt = number)
    (passes : ℕ) (currentTime : Vector UInt8 20) (locals : Locals) (responseBody : Bytes)
    (customer : Customer) :
    handleRequest hs passes currentTime locals request responseBody customer =
      handleRequest hs' passes currentTime locals request responseBody customer := by
  have hexecute : ∀ transaction customer version,
      mariaDbExecuteTransaction hs passes request.id transaction customer version =
        mariaDbExecuteTransaction hs' passes request.id transaction customer version :=
    fun transaction customer version => by
      unfold mariaDbExecuteTransaction
      cases hrow : rowIndex request.id with
      | none => rfl
      | some row =>
          have hnumber : (row : ℕ) + 1 = number := by
            have := toInt_of_rowIndex hrow
            omega
          exact h.executeLoop hnumber transaction version passes customer
  unfold Rinha.handleRequest
  cases request.type with
  | balance => simp only [h.mariaDbGetCustomer hid]
  | transaction => simp only [hexecute]

theorem rowIndex_eq_none (h : ¬(1 ≤ id.toInt ∧ id.toInt ≤ 5)) : rowIndex id = none := by
  cases hrow : rowIndex id with
  | none => rfl
  | some row =>
      have := toInt_of_rowIndex hrow
      omega

/-- An id of no row is answered before the store is asked. -/
theorem handleRequest_unknown [LawfulMonad m] (h : rowIndex request.id = none) (passes : ℕ)
    (currentTime : Vector UInt8 20) (locals : Locals) (responseBody : Bytes)
    (customer : Customer) :
    handleRequest hs passes currentTime locals request responseBody customer =
      pure (some (.notFound, responseBody, customer)) := by
  unfold handleRequest
  cases request.type with
  | balance => simp [mariaDbGetCustomer, h]
  | transaction => simp [mariaDbExecuteTransaction, h]

/-- **The id decides all of it.** -/
theorem keepsToPath_of_id {locals : Locals} {buffer : ℕ → UInt8} {numRead : ℕ}
    (haccepted : fromHttp (viewOf buffer numRead) locals.request = (true, s)) :
    KeepsToPath locals buffer numRead number ↔ s.id.toInt = number := by
  constructor
  · intro h
    have hid := h.id
    rwa [haccepted] at hid
  · intro hid
    exact {
      id := by rw [haccepted]; exact hid
      store := fun m _ hs hs' hagrees passes currentTime thread => by
        simp only [processRequest, haccepted, hagrees.handleRequest hid]
      unknown := fun hout m _ _ hs passes currentTime thread => by
        have hrow : rowIndex s.id = none := rowIndex_eq_none (by omega)
        refine ⟨kNotFoundHeader, ?_, .inl rfl⟩
        simp [processRequest, haccepted, handleRequest_unknown hrow, respond] }

/-! ## The id of a path -/

theorem toInt_of_simpleAtoi {b : UInt8} (hdigit : Decimal.isDigit b = true)
    (h : simpleAtoi b = some id) : id.toInt = (b.toNat - 48 : ℕ) := by
  rw [simpleAtoi, if_pos (show isDigit b = true from hdigit)] at h
  have hb := Decimal.le_of_isDigit hdigit
  rw [← Option.some.inj h, digitValue, Int32.toInt_ofNat_of_lt (by omega)]

/-- **The id is the first digit** of the number in the path. -/
theorem Reads.id_eq {d : UInt8} (h : Reads http r s) (hdigit : Decimal.isDigit d = true)
    (htext : http.text = requestLine kind (d :: digits) ++ rest) :
    s.id.toInt = (d.toNat - 48 : ℕ) := by
  have hget : http.startsWith kGetVerb = true ↔ kind = .balance := by
    rw [StringView.startsWith_iff, htext]
    cases kind with
    | balance => simp [requestLine, kGetVerb, Text.bytes]
    | transaction => simp [requestLine, kGetVerb, Text.bytes]
  cases h with
  | balance id hverb hid =>
      obtain rfl := hget.mp hverb
      have hbyte : http.get 14 = d := StringView.get_of_text (a := Text.bytes "GET /clientes/")
        (b := digits ++ Text.bytes "/extrato HTTP/1.1" ++ rest) (by rw [htext]; simp [requestLine])
      rw [hbyte] at hid
      exact toInt_of_simpleAtoi hdigit hid
  | transaction id hverb hid hbegin hbody =>
      obtain rfl : kind = .transaction := by
        cases kind with
        | balance =>
            rw [hget.mpr rfl] at hverb
            cases hverb
        | transaction => rfl
      have hbyte : http.get 15 = d := StringView.get_of_text (a := Text.bytes "POST /clientes/")
        (b := digits ++ Text.bytes "/transacoes HTTP/1.1" ++ rest)
        (by rw [htext]; simp [requestLine])
      rw [hbyte] at hid
      exact toInt_of_simpleAtoi hdigit hid

/-- A number is its first digit if it has no other, or is zero. -/
theorem value_eq_first {d : UInt8} (hdigits : ∀ b ∈ d :: digits, Decimal.isDigit b = true) :
    (d.toNat - 48 = Decimal.value (d :: digits)) ↔
      (d :: digits).length = 1 ∨ ∀ b ∈ d :: digits, b = 48 := by
  rw [← Decimal.value_eq_zero hdigits, Decimal.value_cons]
  cases digits with
  | nil => simp [Decimal.value]
  | cons b digits =>
      have hpow : 10 ≤ 10 ^ (b :: digits).length := Nat.le_self_pow (by simp) 10
      have hmul : (d.toNat - 48) * 10 ≤ (d.toNat - 48) * 10 ^ (b :: digits).length :=
        Nat.mul_le_mul_left _ hpow
      simp only [List.length_cons, Nat.add_eq_right] at hmul ⊢
      constructor
      · intro h
        exact .inr (by omega)
      · rintro (h | h)
        · omega
        · have hzero : d.toNat - 48 = 0 := by
            by_contra hne
            have := Nat.mul_pos (Nat.pos_of_ne_zero hne) (Nat.pow_pos (n := digits.length + 1)
              (show 0 < 10 by omega))
            omega
          omega

/-- **A request keeps to the customer its path names** just where the
number is written with one digit, or in zeros alone. -/
theorem keepsToPath_iff (kind : RequestType) (digits rest : Bytes) (locals : Locals)
    (buffer : ℕ → UInt8) (numRead : ℕ) (hne : digits ≠ [])
    (hdigits : ∀ b ∈ digits, Decimal.isDigit b = true)
    (htext : (viewOf buffer numRead).text = requestLine kind digits ++ rest)
    (haccepted : (fromHttp (viewOf buffer numRead) locals.request).1 = true) :
    KeepsToPath locals buffer numRead (Decimal.value digits) ↔
      digits.length = 1 ∨ ∀ b ∈ digits, b = 48 := by
  obtain ⟨s, hs⟩ := fromHttp_fst.mp haccepted
  obtain ⟨d, digits, rfl⟩ := List.exists_cons_of_ne_nil hne
  rw [keepsToPath_of_id (fromHttp_eq_true.mpr hs), hs.id_eq (hdigits d (by simp)) htext,
    ← value_eq_first hdigits]
  omega

/-- What the uninitialised variables of the calls below hold. -/
def zeroLocals : Locals := ⟨⟨.transaction, 0, Transaction.zero⟩, initialCustomer 0, 0⟩

/-- A buffer with a request for the statement of the customer. -/
def statementRequest (digits : Bytes) : ℕ → UInt8 :=
  fun i => (requestLine .balance digits ++ Text.crlf2).getD i 0

theorem keepsToPath_three :
    KeepsToPath zeroLocals (statementRequest (Text.bytes "3")) 36 3 :=
  (keepsToPath_iff .balance (Text.bytes "3") Text.crlf2 zeroLocals
    (statementRequest (Text.bytes "3")) 36 (by decide) (List.all_eq_true.mp (by decide))
    (by decide +kernel) (by decide +kernel)).mpr (.inl rfl)

/-- The tenth customer's statement is the first one's. -/
theorem not_keepsToPath_ten :
    Decimal.value (Text.bytes "10") = 10 ∧
      (viewOf (statementRequest (Text.bytes "10")) 37).text =
        requestLine .balance (Text.bytes "10") ++ Text.crlf2 ∧
      fromHttp (viewOf (statementRequest (Text.bytes "10")) 37) zeroLocals.request =
        (true, { zeroLocals.request with id := 1, type := .balance }) ∧
      ¬KeepsToPath zeroLocals (statementRequest (Text.bytes "10")) 37 10 := by
  have haccepted : fromHttp (viewOf (statementRequest (Text.bytes "10")) 37) zeroLocals.request =
      (true, { zeroLocals.request with id := 1, type := .balance }) := by decide +kernel
  refine ⟨by decide, by decide +kernel, haccepted, fun h => ?_⟩
  have hid := h.id
  rw [haccepted] at hid
  exact absurd hid (by decide)

end Rinha
