import Rinha.Store.Model.Hstcpcli
import Rinha.Store.Model.Image
/-!
# `handler_socket.cc`

The two calls of the store as the wire has them. `DCHECK` is nothing in a
release build, so a check that fails goes on to the `return` behind it.
-/

namespace Rinha

/-- A call that does not return: an exception of `std::stoi` ends the
process. -/
inductive Halt
  | terminated
  deriving DecidableEq

/-- The `thread_local` clients. -/
structure Clients where
  readPtr : Hstcpcli
  writePtr : Hstcpcli

abbrev Wire := StateT Clients (Except Halt)

/-! ## `std::stoi` -/

/-- `isspace`. -/
def isSpace (b : UInt8) : Bool := b = 32 || (9 ≤ b && b ≤ 13)

/-- The sign, and the digits behind it. -/
def signed : Bytes → ℤ × Bytes
  | 45 :: rest => (-1, rest)
  | 43 :: rest => (1, rest)
  | text => (1, text)

/-- `std::stoi`, or `none` where it throws: no digit, or out of range. What
follows the digits is ignored. -/
def stoi (text : Bytes) : Option Int32 :=
  let (sign, rest) := signed (text.dropWhile isSpace)
  let digits := rest.takeWhile fun b => 48 ≤ b && b ≤ 57
  let value := sign * (digits.foldl (fun v b => v * 10 + (b.toNat - 48)) 0 : ℕ)
  if digits = [] ∨ value < -2 ^ 31 ∨ 2 ^ 31 ≤ value then none else some (Int32.ofInt value)

/-! ## Reading -/

/-- The loop over a row's fields in `ReadCustomerHs`, from field `i` on. The
data field is cast, not parsed, and `behind` is what lies in memory behind
it. -/
def readFields (behind : ℕ → UInt8) : ℕ → List (Option Bytes) → Customer × Int32 →
    Option (Customer × Int32)
  | _, [], out => some out
  | i, none :: fields, out => readFields behind (i + 1) fields out
  | i, some v :: fields, (customer, version) =>
      let customer := if i = 1 then .ofField v behind else customer
      if i = 2 then
        (stoi v).bind fun version => readFields behind (i + 1) fields (customer, version)
      else readFields behind (i + 1) fields (customer, version)

/-- The loop over the rows, from row `k` on. -/
def readRows (behind : ℕ → ℕ → UInt8) : ℕ → List (List (Option Bytes)) → Customer × Int32 →
    Option (Customer × Int32)
  | _, [], out => some out
  | k, row :: rows, out => (readFields (behind k) 0 row out).bind (readRows behind (k + 1) rows)

/-- What lies in memory behind the data fields, by the exchange and the row. -/
abbrev Behind := ℕ → ℕ → ℕ → UInt8

/-- `ReadCustomerHs`. -/
def readCustomerHs (behind : Behind) (customer : Customer) (version : Int32) :
    Wire (Bool × Customer × Int32) := fun clients =>
  let c := clients.readPtr.requestBufExecGeneric
  let (sent, c) := c.requestSend
  if sent ≠ 0 then .ok ((false, customer, version), { clients with readPtr := c }) else
  if c.errorCode ≠ 0 then .ok ((false, customer, version), { clients with readPtr := c }) else
  let (_, _, c) := c.responseRecv 0
  if c.errorCode ≠ 0 then .ok ((false, customer, version), { clients with readPtr := c }) else
  let (rows, c) := c.rows c.flds.length
  match readRows (behind clients.readPtr.exchanges) 0 rows (customer, version) with
  | none => .error .terminated
  | some (customer, version) =>
      .ok ((true, customer, version), { clients with readPtr := c.responseBufRemove })

/-! ## Writing -/

/-- The loop over a row's fields in `WriteCustomerHs`: each is a number of
modified rows. -/
def modifiedFields : List (Option Bytes) → Bool → Option Bool
  | [], modified => some modified
  | none :: fields, modified => modifiedFields fields modified
  | some v :: fields, modified =>
      (stoi v).bind fun modifiedRows =>
        modifiedFields fields (modified || decide (modifiedRows > 0))

/-- The loop over the rows. -/
def modifiedRows : List (List (Option Bytes)) → Bool → Option Bool
  | [], modified => some modified
  | row :: rows, modified => (modifiedFields row modified).bind (modifiedRows rows)

/-- `WriteCustomerHs`. Two of its failure exits `return 1`. -/
def writeCustomerHs : Wire Bool := fun clients =>
  let c := clients.writePtr.requestBufExecGeneric
  let (sent, c) := c.requestSend
  if sent ≠ 0 then .ok (false, { clients with writePtr := c }) else
  if c.errorCode ≠ 0 then .ok (true, { clients with writePtr := c }) else
  let (e, _, c) := c.responseRecv 0
  if c.errorCode ≠ 0 then .ok (true, { clients with writePtr := c }) else
  let (rows, c) := c.rows c.flds.length
  match modifiedRows rows false with
  | none => .error .terminated
  | some modified =>
      let c := if e ≥ 0 then c.responseBufRemove else c
      .ok (modified, { clients with writePtr := c })

/-- The two calls over the wire. -/
def wireSocket (behind : Behind) : HandlerSocket Wire where
  readCustomerHs _ customer version := readCustomerHs behind customer version
  writeCustomerHs _ _ _ := writeCustomerHs

end Rinha
