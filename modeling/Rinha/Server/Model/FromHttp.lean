import Mathlib.Algebra.Group.Int.Defs
import Mathlib.Algebra.Group.Nat.Defs
import Rinha.Common.Text
import Rinha.Store.Model.Structs
/-!
# `from_http.cc`

The parser of a request. It reads by index, into the memory the text is a
part of, so a view is that memory with the place and the size of the
text: `body[i]` beyond the size, and `http.data() + 15`, read whatever is
there. Indices are far below the range of `size_t`, so they are plain
naturals, `npos` apart.
-/

namespace Rinha

/-- `absl::string_view`. -/
structure StringView where
  memory : ℕ → UInt8
  data : ℕ
  size : ℕ

/-- `std::string::npos`, the largest `size_t`. -/
def npos : ℕ := 2 ^ 64 - 1

namespace StringView

/-- `body[i]`. -/
def get (view : StringView) (i : ℕ) : UInt8 := view.memory (view.data + i)

/-- `body.find(c, pos)`. -/
def find (view : StringView) (c : UInt8) (pos : ℕ) : ℕ :=
  ((List.range' pos (view.size - pos)).find? fun i => view.get i == c).getD npos

/-- The text `s` stands at index `i`. -/
def hasAt (view : StringView) (s : Bytes) (i : ℕ) : Bool :=
  decide (i + s.length ≤ view.size) && (List.range s.length).all fun k =>
    view.get (i + k) == s.getD k 0

/-- `http.find(s)`. -/
def findText (view : StringView) (s : Bytes) : ℕ :=
  ((List.range view.size).find? fun i => view.hasAt s i).getD npos

/-- `absl::string_view(http.data() + i, http.size() - i)`. -/
def suffix (view : StringView) (i : ℕ) : StringView :=
  { view with data := view.data + i, size := view.size - i }

/-- `absl::StartsWith`. -/
def startsWith (view : StringView) (s : Bytes) : Bool := view.hasAt s 0

end StringView

def kGetVerb : Bytes := Text.bytes "GET"
def kPostBeginBody : Bytes := Text.crlf2

/-- `'0' <= b && b <= '9'`. -/
def isDigit (b : UInt8) : Bool := 48 ≤ b && b ≤ 57

/-- The number a digit stands for, `b - '0'`. -/
def digitValue (b : UInt8) : Int32 := Int32.ofNat (b.toNat - 48)

/-- `absl::SimpleAtoi` of one character: a digit, or a failure. -/
def simpleAtoi (b : UInt8) : Option Int32 := if isDigit b then some (digitValue b) else none

/-- The loop of `SubstringToInt`, with `*x` as it goes. -/
def substringToIntLoop (body : StringView) : List ℕ → Int32 → Bool × Int32
  | [], x => (true, x)
  | i :: indices, x =>
      if !isDigit (body.get i) then (false, x)
      else substringToIntLoop body indices (x * 10 + digitValue (body.get i))

/-- `SubstringToInt`: whether all were digits, and `*x`. -/
def substringToInt (body : StringView) (start stop : ℕ) : Bool × Int32 :=
  substringToIntLoop body (List.range' start (stop - start)) 0

/-- The copy of the description and its NUL; the rest of the array stays. -/
def copyDescription (body : StringView) (start stop : ℕ) (description : Vector UInt8 11) :
    Vector UInt8 11 :=
  Vector.ofFn fun k =>
    if k.val < stop - start then body.get (start + k.val)
    else if k.val = stop - start then 0 else description.get k

def numBeginIdx : ℕ := 10

/-- `ParseJsonBody`: whether the body is accepted, and the transaction as
it was left. -/
def parseJsonBody (body : StringView) (transaction : Transaction) : Bool × Transaction :=
  let numEndIdx := body.find 44 numBeginIdx
  let numDotIdx := body.find 46 numBeginIdx
  if numDotIdx < numEndIdx ∨ numEndIdx = npos then (false, transaction) else
  let (success, value) := substringToInt body numBeginIdx numEndIdx
  let transaction := { transaction with value := value }
  if !success then (false, transaction) else
  let tipoIdx := numEndIdx + 11
  let tipo := body.get tipoIdx
  if tipo ≠ 99 ∧ tipo ≠ 100 then (false, transaction) else
  let transaction :=
    if tipo = 100 then { transaction with value := transaction.value * -1 } else transaction
  let startDescIdx := tipoIdx + 18
  let endDescIdx := body.find 34 startDescIdx
  if endDescIdx = npos then (false, transaction) else
  if endDescIdx + 2 ≠ body.size ∨ body.get (endDescIdx + 1) ≠ 125 then (false, transaction) else
  if endDescIdx - startDescIdx > 10 ∨ endDescIdx - startDescIdx < 1 then (false, transaction) else
  (true, { transaction with
    description := copyDescription body startDescIdx endDescIdx transaction.description })

/-- `FromHttp`: whether the request is accepted, and the request as it was
left. -/
def fromHttp (http : StringView) (request : Request) : Bool × Request :=
  if http.startsWith kGetVerb then
    match simpleAtoi (http.get 14) with
    | none => (false, request)
    | some id => (true, { request with id := id, type := .balance })
  else
    match simpleAtoi (http.get 15) with
    | none => (false, request)
    | some id =>
      let request := { request with id := id }
      let beginBodyIdx := http.findText kPostBeginBody
      if beginBodyIdx = npos then (false, request) else
      let jsonBody := http.suffix (beginBodyIdx + 4)
      let (success, transaction) := parseJsonBody jsonBody request.transaction
      let request := { request with transaction := transaction }
      if !success then (false, request) else
      (true, { request with type := .transaction })

end Rinha
