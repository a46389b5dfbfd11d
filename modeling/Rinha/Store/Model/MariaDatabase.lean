import Rinha.Store.Model.Structs
import Rinha.Common.Versioned
/-!
# `maria_database.cc`

The retry loop of `MariaDbExecuteTransaction`, over the two calls of
`handler_socket.h`. The calls are a parameter, so one text of the loop
runs on the table itself and on the wire client. Where the source loops
until it succeeds the model takes a number of passes.
-/

namespace Rinha

/-! ## The initial rows -/

/-- The value-initialised `Transaction` of `transactions = {}`. -/
def Transaction.zero : Transaction where
  value := 0
  description := Vector.replicate 11 0
  timestamp := Vector.replicate 20 0

/-- An entry of `kInitialCustomers`, which differ in the limit alone. -/
def initialCustomer (limit : Int32) : Customer where
  limit := limit
  balance := 0
  transactions := Vector.replicate 10 Transaction.zero
  transactionCount := 0
  nextTransactionIndex := 0

def kInitialCustomers (row : Fin 5) : Customer :=
  initialCustomer (#v[100000, 80000, 1000000, 10000000, 500000].get row)

/-! ## One transaction -/

/-- What passes the bounds check is, one less, an index of the table. -/
theorem toInt_sub_one_of_bounds {id : Int32} (h : ¬(id > 5 ∨ id < 1)) :
    (id - 1).toInt = id.toInt - 1 ∧ 1 ≤ id.toInt ∧ id.toInt ≤ 5 := by
  have h1 : (1 : Int32).toInt = 1 := rfl
  have h5 : (5 : Int32).toInt = 5 := rfl
  simp only [not_or, gt_iff_lt, Int32.lt_iff_toInt_lt, h1, h5] at h
  refine ⟨?_, by omega, by omega⟩
  rw [Int32.toInt_sub, h1]
  exact Int.bmod_eq_of_le (by omega) (by omega)

/-- `if (id > 5 || id < 1) return ...; id--;`, the bounds check both
entry points start with. -/
def rowIndex (id : Int32) : Option (Fin 5) :=
  if h : id > 5 ∨ id < 1 then none
  else some ⟨(id - 1).toNatClampNeg, by
    have := toInt_sub_one_of_bounds h
    simp only [Int32.toNatClampNeg]
    omega⟩

/-- `customer->balance + transaction.value < -customer->limit`. -/
def limitExceeded (customer : Customer) (transaction : Transaction) : Bool :=
  customer.balance + transaction.value < -customer.limit

/-- `customer->transactions[i] = transaction`. An index outside the array
is not written: as an unsigned byte it is past the end. -/
def writeSlot (transactions : Vector Transaction 10) (i : Int8) (transaction : Transaction) :
    Vector Transaction 10 :=
  transactions.setIfInBounds i.toUInt8.toNat transaction

/-- The update of the fetched `Customer`, between the limit check and the
write. -/
def applyTransaction (customer : Customer) (transaction : Transaction) : Customer where
  limit := customer.limit
  balance := customer.balance + transaction.value
  transactions := writeSlot customer.transactions customer.nextTransactionIndex transaction
  nextTransactionIndex := ((customer.nextTransactionIndex.toInt32 + 1) % 10).toInt8
  transactionCount :=
    if customer.transactionCount ≤ 10 then customer.transactionCount + 1
    else customer.transactionCount

/-! ## The two entry points -/

/-- The calls of `handler_socket.h`. The read fills its two out-parameters,
whose earlier values it is handed. -/
structure HandlerSocket (m : Type → Type) where
  readCustomerHs : Fin 5 → Customer → Int32 → m (Bool × Customer × Int32)
  writeCustomerHs : Fin 5 → Customer → Int32 → m Bool

section

variable {m : Type → Type} [Monad m] (hs : HandlerSocket m)

/-- `MariaDbGetCustomer`: success, and the out-parameter. `version` is
the uninitialised local. -/
def mariaDbGetCustomer (id : Int32) (customer : Customer) (version : Int32) :
    m (Bool × Customer) :=
  match rowIndex id with
  | none => return (false, customer)
  | some row => do
    let (success, customer, _) ← hs.readCustomerHs row customer version
    return (success, customer)

/-- One pass of the `while (!success)` loop: what it returns, if it does,
and the out-parameter. -/
def attempt (row : Fin 5) (transaction : Transaction) (customer : Customer) (version : Int32) :
    m (Option TransactionResult × Customer) := do
  let (success, customer, version) ← hs.readCustomerHs row customer version
  if !success then return (none, customer)
  if limitExceeded customer transaction then return (some .limitExceeded, customer)
  let customer := applyTransaction customer transaction
  if ← hs.writeCustomerHs row customer version then return (some .success, customer)
  return (none, customer)

/-- At most `passes` passes of the loop. -/
def executeLoop (row : Fin 5) (transaction : Transaction) (version : Int32) :
    ℕ → Customer → m (Option (TransactionResult × Customer))
  | 0, _ => return none
  | passes + 1, customer => do
    match ← attempt hs row transaction customer version with
    | (some result, customer) => return some (result, customer)
    | (none, customer) => executeLoop row transaction version passes customer

/-- `MariaDbExecuteTransaction`: the result and the out-parameter, or
`none` when the passes run out. The mutex around the loop is the business
of `Workers`. -/
def mariaDbExecuteTransaction (passes : ℕ) (id : Int32) (transaction : Transaction)
    (customer : Customer) (version : Int32) : m (Option (TransactionResult × Customer)) :=
  match rowIndex id with
  | none => return some (.notFound, customer)
  | some row => executeLoop hs row transaction version passes customer

/-- `customer_write_mutexs`: which are held. -/
abbrev Mutexes := Fin 5 → Bool

/-- `MariaDbExecuteTransaction` with its mutex, found free: locked before
the loop, unlocked at either return behind it, and held where the passes
run out. -/
def mariaDbExecuteTransactionLocked (passes : ℕ) (id : Int32) (transaction : Transaction)
    (customer : Customer) (version : Int32) (mutexes : Mutexes) :
    m (Option (TransactionResult × Customer) × Mutexes) :=
  match rowIndex id with
  | none => return (some (.notFound, customer), mutexes)
  | some row => do
    let locked := Function.update mutexes row true
    match ← executeLoop hs row transaction version passes customer with
    | none => return (none, locked)
    | some result => return (some result, Function.update locked row false)

end

/-! ## The table -/

/-- A row of `Users`, its `id` apart. -/
abbrev Row := Versioned Customer

/-- The five rows `MariaInitializeDb` inserts. -/
abbrev Users := Fin 5 → Row

/-- `WriteCustomerHs` as one atomic update: the row is written where its
version is the one named, and the answer says whether it was. -/
def Users.write (users : Users) (row : Fin 5) (customer : Customer) (version : Int32) :
    Bool × Users :=
  if (users row).version = version then
    (true, Function.update users row ⟨customer, version + 1⟩)
  else (false, users)

/-- The two calls on a table no one else writes. -/
def tableSocket : HandlerSocket (StateM Users) where
  readCustomerHs row _ _ := do
    let users ← get
    return (true, (users row).data, (users row).version)
  writeCustomerHs row customer version := do
    let (modified, users) := (← get).write row customer version
    set users
    return modified

end Rinha
