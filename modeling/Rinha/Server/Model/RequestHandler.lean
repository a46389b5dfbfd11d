import Rinha.Server.Model.ToJson
import Rinha.Store.Model.MariaDatabase
/-!
# `request_handler.cc`

A parsed request against the store. `GetTime` is the clock's business:
its array comes in as `currentTime`.
-/

namespace Rinha

/-- What the uninitialised automatic variables of one call hold. -/
structure Locals where
  request : Request
  customer : Customer
  version : Int32

/-- `strcpy`, of a source shorter than its array. -/
def strcpy (target source : Vector UInt8 20) : Vector UInt8 20 :=
  Vector.ofFn fun k =>
    if k.val ≤ (Text.cstr source.toList).length then source.get k else target.get k

/-- `strcpy` copies the string. -/
theorem cstr_strcpy (target source : Vector UInt8 20) :
    Text.cstr (strcpy target source).toList = Text.cstr source.toList := by
  have hget : ∀ i, i ≤ (Text.cstr source.toList).length →
      (strcpy target source).toList[i]? = source.toList[i]? := fun i hi => by
    rcases Nat.lt_or_ge i 20 with hlt | hge
    · simp only [strcpy, Vector.getElem?_toList, Vector.getElem?_ofFn, hlt, dif_pos, hi, if_true]
      exact (Vector.getElem?_eq_getElem hlt).symm
    · simp [hge]
  rcases Text.cstr_cases source.toList with hall | hnul
  · have hsame : (strcpy target source).toList = source.toList := List.ext_getElem? fun i => by
      rcases Nat.lt_or_ge i 20 with hlt | hge
      · refine hget i ?_
        rw [hall, Vector.length_toList]
        exact Nat.le_of_lt hlt
      · simp [hge]
    rw [hsame]
  · exact Text.cstr_congr ((hget _ (le_refl _)).trans hnul) hget

/-- `std::strcpy(request.transaction.timestamp, current_time)`. -/
def stamp (transaction : Transaction) (currentTime : Vector UInt8 20) : Transaction :=
  { transaction with timestamp := strcpy transaction.timestamp currentTime }

theorem stamp_value (transaction : Transaction) (currentTime : Vector UInt8 20) :
    (stamp transaction currentTime).value = transaction.value := by
  unfold stamp
  rfl

theorem stamp_description (transaction : Transaction) (currentTime : Vector UInt8 20) :
    (stamp transaction currentTime).description = transaction.description := by
  unfold stamp
  rfl

section

variable {m : Type → Type} [Monad m] (hs : HandlerSocket m)

/-- `HandleRequest`: the result and what it left in `*response_body` and
`*customer`, or `none` when the passes run out. -/
def handleRequest (passes : ℕ) (currentTime : Vector UInt8 20) (locals : Locals)
    (request : Request) (responseBody : Bytes) (customer : Customer) :
    m (Option (Result × Bytes × Customer)) :=
  match request.type with
  | .balance => do
    let (success, found) ← mariaDbGetCustomer hs request.id locals.customer locals.version
    if !success then return some (.notFound, responseBody, customer)
    return some (.success, customerToJson found (Text.cstr currentTime.toList), customer)
  | .transaction => do
    match ← mariaDbExecuteTransaction hs passes request.id (stamp request.transaction currentTime)
        customer locals.version with
    | none => return none
    | some (.notFound, customer) => return some (.notFound, responseBody, customer)
    | some (.limitExceeded, customer) => return some (.invalidRequest, responseBody, customer)
    | some (.success, customer) => return some (.success, responseBody, customer)

end

end Rinha
