import Mathlib.Logic.Function.Basic
import Rinha.Store.Model.Workers
/-!
# One writer

On a table no one else writes, a pass of the retry loop reads the row and
writes it back, so the first pass returns. `execute_table` is what
`MariaDbExecuteTransaction` does there, and the callers below go through
it.
-/

namespace Rinha

variable {users : Users} {row : Fin 5} {id : Int32} {transaction : Transaction}
variable {customer : Customer} {version : Int32}

/-- The `id` a client names a row by. -/
def rowId (row : Fin 5) : Int32 := Int32.ofNat (row + 1)

@[simp] theorem rowIndex_rowId : rowIndex (rowId row) = some row := by
  revert row
  decide

/-- A row is named by the `id` one more than its index. -/
theorem toInt_of_rowIndex (h : rowIndex id = some row) : id.toInt = (row : ℕ) + 1 := by
  unfold rowIndex at h
  split at h
  · cases h
  · rename_i hid
    have hval := congrArg Fin.val (Option.some.inj h)
    simp only [Int32.toNatClampNeg] at hval
    have := toInt_sub_one_of_bounds hid
    omega

/-- The row with the transaction applied, one version on. -/
def Users.apply (users : Users) (row : Fin 5) (transaction : Transaction) : Users :=
  Function.update users row
    ⟨applyTransaction (users row).data transaction, (users row).version + 1⟩

@[simp] theorem Users.apply_self : users.apply row transaction row =
    ⟨applyTransaction (users row).data transaction, (users row).version + 1⟩ := by
  simp [Users.apply]

theorem Users.apply_of_ne {row' : Fin 5} (h : row' ≠ row) :
    users.apply row transaction row' = users row' := by
  simp [Users.apply, h]

/-! ## The update -/

/-- `after` is `before` with the transaction applied once: in the balance, in
the slot that is next, and in the index and the count of the slots. -/
structure AppliedOnce (transaction : Transaction) (before after : Customer) : Prop where
  limit : after.limit = before.limit
  balance : after.balance = before.balance + transaction.value
  slot : ∀ i : Fin 10, after.transactions.get i =
    if (i : ℕ) = before.nextTransactionIndex.toInt then transaction else before.transactions.get i
  next : after.nextTransactionIndex.toInt = (before.nextTransactionIndex.toInt + 1).tmod 10
  count : after.transactionCount.toInt =
    if before.transactionCount.toInt ≤ 10 then before.transactionCount.toInt + 1
    else before.transactionCount.toInt

/-- A `char` is an index where it is not negative. -/
theorem toUInt8_eq_iff {i : Int8} {n : ℕ} (hn : n < 128) :
    i.toUInt8.toNat = n ↔ (n : ℤ) = i.toInt := by
  have hcast : i.toUInt8.toNat = i.toBitVec.toNat := rfl
  have hint : i.toInt = i.toBitVec.toInt := rfl
  rw [hcast, hint, BitVec.toInt_eq_toNat_cond]
  split <;> omega

/-- **The update applies the transaction once.** -/
theorem appliedOnce (customer : Customer) (transaction : Transaction) :
    AppliedOnce transaction customer (applyTransaction customer transaction) where
  limit := rfl
  balance := rfl
  slot i := by
    have hi : (i : ℕ) < 128 := by omega
    change (writeSlot customer.transactions customer.nextTransactionIndex transaction)[(i : ℕ)] =
      if _ then _ else customer.transactions[(i : ℕ)]
    simp only [writeSlot, Vector.getElem_setIfInBounds, toUInt8_eq_iff hi]
  next := by
    have h1 : (1 : Int32).toInt = 1 := rfl
    have h10 : (10 : Int32).toInt = 10 := rfl
    have hlo := customer.nextTransactionIndex.le_toInt
    have hhi := customer.nextTransactionIndex.toInt_lt
    have hsum : (customer.nextTransactionIndex.toInt32 + 1).toInt =
        customer.nextTransactionIndex.toInt + 1 := by
      rw [Int32.toInt_add, Int8.toInt_toInt32, h1]
      exact Int.bmod_eq_of_le (by omega) (by omega)
    have habove := Int.tmod_lt_of_pos (customer.nextTransactionIndex.toInt + 1)
      (by decide : (0 : ℤ) < 10)
    have hbelow := Int.lt_tmod_of_pos (customer.nextTransactionIndex.toInt + 1)
      (by decide : (0 : ℤ) < 10)
    rw [applyTransaction, Int32.toInt_toInt8, Int32.toInt_mod, hsum, h10]
    exact Int.bmod_eq_of_le (by omega) (by omega)
  count := by
    have h1 : (1 : Int8).toInt = 1 := rfl
    have h10 : (10 : Int8).toInt = 10 := rfl
    have hlo := customer.transactionCount.le_toInt
    simp only [applyTransaction, Int8.le_iff_toInt_le, h10]
    split
    · rw [Int8.toInt_add, h1]
      exact Int.bmod_eq_of_le (by omega) (by omega)
    · rfl

/-- A balance is a sum. -/
theorem balance_foldl (transactions : List Transaction) (customer : Customer) :
    (transactions.foldl applyTransaction customer).balance =
      (transactions.map Transaction.value).foldl (· + ·) customer.balance := by
  induction transactions generalizing customer with
  | nil => rfl
  | cons transaction transactions ih =>
      rw [List.foldl_cons, List.map_cons, List.foldl_cons, ih, (appliedOnce _ _).balance]

/-! ## The loop -/

theorem set_apply (users' : Users) : (set users' : StateM Users PUnit) users = ((), users') := rfl

theorem pure_apply {α : Type} (a : α) : (StateT.pure a : StateM Users α) users = (a, users) := rfl

/-- **A pass over the loop.** -/
theorem attempt_table :
    (attempt tableSocket row transaction customer version).run users =
      if limitExceeded (users row).data transaction then
        ((some .limitExceeded, (users row).data), users)
      else ((some .success, applyTransaction (users row).data transaction),
        users.apply row transaction) := by
  by_cases hlim : limitExceeded (users row).data transaction = true
  · rw [if_pos hlim]
    simp [attempt, tableSocket, hlim, StateT.run, bind, StateT.bind, get, getThe,
      MonadStateOf.get, StateT.get, pure_apply, pure]
  · rw [if_neg hlim]
    simp [attempt, tableSocket, hlim, StateT.run, bind, StateT.bind, get, getThe,
      MonadStateOf.get, StateT.get, pure_apply, pure, Users.write, Users.apply, set_apply]

/-- **`MariaDbExecuteTransaction` without a concurrent writer** returns on
the first pass. -/
theorem execute_table (passes : ℕ) (hid : rowIndex id = some row) :
    (mariaDbExecuteTransaction tableSocket (passes + 1) id transaction customer version).run
      users =
      if limitExceeded (users row).data transaction then
        (some (.limitExceeded, (users row).data), users)
      else (some (.success, applyTransaction (users row).data transaction),
        users.apply row transaction) := by
  have hpass := @attempt_table users row transaction customer version
  simp only [mariaDbExecuteTransaction, hid, executeLoop, StateT.run_bind, hpass]
  split <;> rfl

theorem execute_table_notFound (passes : ℕ) (hid : rowIndex id = none) :
    (mariaDbExecuteTransaction tableSocket passes id transaction customer version).run users =
      (some (.notFound, customer), users) := by
  simp only [mariaDbExecuteTransaction, hid]
  rfl

/-- `MariaDbGetCustomer` reads the row and changes nothing. -/
theorem getCustomer_table :
    (mariaDbGetCustomer tableSocket id customer version).run users =
      match rowIndex id with
      | none => ((false, customer), users)
      | some row => ((true, (users row).data), users) := by
  unfold mariaDbGetCustomer
  cases rowIndex id <;> rfl

/-! ## A sequence of calls -/

/-- The calls, one after the other, on one row. -/
def executeAll (passes : ℕ) (row : Fin 5) (customer : Customer) (version : Int32) :
    List Transaction → StateM Users (List (Option (TransactionResult × Customer)))
  | [] => return []
  | transaction :: transactions => do
    let result ← mariaDbExecuteTransaction tableSocket (passes + 1) (rowId row) transaction
      customer version
    return result :: (← executeAll passes row customer version transactions)

/-- The transactions among `transactions` that were accepted, from what
the calls returned. -/
def acceptedOf (transactions : List Transaction)
    (results : List (Option (TransactionResult × Customer))) : List Transaction :=
  (transactions.zip results).filterMap fun p =>
    if p.2.map Prod.fst = some .success then some p.1 else none

/-- Whether each call was accepted. -/
def decisionsOf (results : List (Option (TransactionResult × Customer))) : List Bool :=
  results.map fun result => result.map Prod.fst = some .success

/-- The first call, then the rest on the table it left. -/
theorem executeAll_cons (passes : ℕ) (transactions : List Transaction) :
    (executeAll passes row customer version (transaction :: transactions)).run users =
      if limitExceeded (users row).data transaction then
        (some (.limitExceeded, (users row).data) ::
          ((executeAll passes row customer version transactions).run users).1,
          ((executeAll passes row customer version transactions).run users).2)
      else
        (some (.success, applyTransaction (users row).data transaction) ::
          ((executeAll passes row customer version transactions).run
            (users.apply row transaction)).1,
          ((executeAll passes row customer version transactions).run
            (users.apply row transaction)).2) := by
  simp only [executeAll, StateT.run_bind, execute_table passes rowIndex_rowId]
  split <;> rfl

/-- Every call was accepted. -/
def Committed (results : List (Option (TransactionResult × Customer))) : Prop :=
  ∀ result ∈ results, result.map Prod.fst = some .success

theorem acceptedOf_of_committed (passes : ℕ) {transactions : List Transaction}
    (h : Committed ((executeAll passes row customer version transactions).run users).1) :
    acceptedOf transactions ((executeAll passes row customer version transactions).run users).1 =
      transactions := by
  induction transactions generalizing users with
  | nil => rfl
  | cons transaction transactions ih =>
      rw [executeAll_cons] at h ⊢
      split at h
      · cases h _ List.mem_cons_self
      · rename_i hlim
        have hrest := ih fun result hresult => h result (List.mem_cons_of_mem _ hresult)
        rw [if_neg hlim]
        simpa [acceptedOf] using hrest

/-- **What a sequence of calls leaves in the row** is what was accepted,
applied in order. -/
theorem executeAll_data (passes : ℕ) (transactions : List Transaction) :
    (((executeAll passes row customer version transactions).run users).2 row).data =
      (acceptedOf transactions
        ((executeAll passes row customer version transactions).run users).1).foldl
          applyTransaction (users row).data := by
  induction transactions generalizing users with
  | nil => rfl
  | cons transaction transactions ih =>
      rw [executeAll_cons]
      split
      · simpa [acceptedOf] using ih
      · simpa [acceptedOf] using @ih (users.apply row transaction)

end Rinha
