import Mathlib.Tactic.Common
/-!
# The records of `structs.h`

`int` is `Int32` and `char` is `Int8` where it counts and `UInt8` where
it is text, so arithmetic wraps as two's complement does. A fixed array
is a `Vector` of its length.
-/

namespace Rinha

/-- `enum class TransactionResult`. -/
inductive TransactionResult
  | success
  | limitExceeded
  | notFound
  deriving DecidableEq, Repr

/-- `enum class RequestType`. -/
inductive RequestType
  | transaction
  | balance
  deriving DecidableEq, Repr

/-- `enum class Result`. -/
inductive Result
  | success
  | invalidRequest
  | notFound
  deriving DecidableEq, Repr

/-- `struct Transaction`. The sign of `value` says credit or debit. -/
structure Transaction where
  value : Int32
  description : Vector UInt8 11
  timestamp : Vector UInt8 20
  deriving DecidableEq

/-- `struct Customer`: the balance, and a ring of the last ten
transactions with the slot to write next and the number written, the
latter saturating. -/
structure Customer where
  limit : Int32
  balance : Int32
  transactions : Vector Transaction 10
  transactionCount : Int8
  nextTransactionIndex : Int8
  deriving DecidableEq

/-- `struct Request`. -/
structure Request where
  type : RequestType
  id : Int32
  transaction : Transaction
  deriving DecidableEq

end Rinha
