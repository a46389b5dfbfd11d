import Rinha.Common.Memory
import Rinha.Common.Text
import Rinha.Store.Model.MariaDatabase
/-!
# A `Customer` in memory

`ReadCustomerHs` casts the address of a field to a `Customer` and copies
it, and `WriteCustomerHs` casts the other way: the store keeps the bytes a
`Customer` has in memory, and no one parses them.
-/

namespace Rinha

/-- Byte `k` of an `int`, the lowest first. -/
def intByte (x : Int32) (k : ℕ) : UInt8 := UInt8.ofNat (x.toUInt32.toNat / 256 ^ k)

/-- The `int` at an address. -/
def intAt (mem : ℕ → UInt8) (start : ℕ) : Int32 :=
  (UInt32.ofNat ((mem start).toNat + 256 * ((mem (start + 1)).toNat +
    256 * ((mem (start + 2)).toNat + 256 * (mem (start + 3)).toNat)))).toInt32

/-- `sizeof(Transaction)`: an `int`, two arrays of `char`, and a byte of
padding. -/
def sizeofTransaction : ℕ := 36

/-- `sizeof(Customer)`. -/
def sizeofCustomer : ℕ := 372

/-- The byte of a `Transaction` at an offset. -/
def Transaction.byteAt (t : Transaction) (padding : UInt8) (offset : ℕ) : UInt8 :=
  if offset < 4 then intByte t.value offset
  else if offset < 15 then t.description.toList.getD (offset - 4) 0
  else if offset < 35 then t.timestamp.toList.getD (offset - 15) 0
  else padding

/-- The byte of a `Customer` at an offset. -/
def Customer.byteAt (c : Customer) (padding : ℕ → UInt8) (offset : ℕ) : UInt8 :=
  if offset < 4 then intByte c.limit offset
  else if offset < 8 then intByte c.balance (offset - 4)
  else if offset < 368 then
    (c.transactions.toList.getD ((offset - 8) / sizeofTransaction) .zero).byteAt (padding offset)
      ((offset - 8) % sizeofTransaction)
  else if offset = 368 then c.transactionCount.toUInt8
  else if offset = 369 then c.nextTransactionIndex.toUInt8
  else padding offset

/-- `update_value_ref`: the bytes of a `Customer`. -/
def Customer.image (c : Customer) (padding : ℕ → UInt8) : Bytes :=
  Memory.slice (c.byteAt padding) 0 sizeofCustomer

def Transaction.ofMemory (mem : ℕ → UInt8) (start : ℕ) : Transaction where
  value := intAt mem start
  description := Vector.ofFn fun k => mem (start + 4 + k)
  timestamp := Vector.ofFn fun k => mem (start + 15 + k)

/-- The `Customer` at an address, as `reinterpret_cast` has it. -/
def Customer.ofMemory (mem : ℕ → UInt8) (start : ℕ) : Customer where
  limit := intAt mem start
  balance := intAt mem (start + 4)
  transactions := Vector.ofFn fun i : Fin 10 =>
    Transaction.ofMemory mem (start + 8 + sizeofTransaction * i)
  transactionCount := (mem (start + 368)).toInt8
  nextTransactionIndex := (mem (start + 369)).toInt8

/-- The `Customer` a field is cast to. As many bytes as a `Customer` has are
copied from the field's address on, whatever its size: `behind` is what lies
in memory from there on, apart from the field. -/
def Customer.ofField (v : Bytes) (behind : ℕ → UInt8) : Customer :=
  .ofMemory (Memory.put behind 0 v) 0

end Rinha
