import Mathlib.Algebra.Ring.Int.Defs
import Rinha.Common.SignedInt
import Rinha.Store.Execute
import Rinha.Store.CreditLine
/-!
# The ledger in exact arithmetic

What an account is for, in integers: a value is accepted where it leaves
the balance at or above the line, and the balance is the sum of what was
accepted. The code keeps the balance in an `int`, so it is this ledger
for just the sequences none of whose sums leaves the range of an `int`
(`agreesWithExact_iff`).
-/

namespace Rinha

/-! ## The exact ledger -/

namespace Ledger

/-- A value is accepted where the exact sum is not below the line. -/
def accepts (limit balance value : ℤ) : Bool := -limit ≤ balance + value

theorem accepts_iff {limit balance value : ℤ} :
    accepts limit balance value = true ↔ -limit ≤ balance + value := decide_eq_true_iff

/-- The balance after a value. -/
def post (limit balance value : ℤ) : ℤ :=
  if accepts limit balance value then balance + value else balance

/-- The decision on each value. -/
def decisions (limit : ℤ) : ℤ → List ℤ → List Bool
  | _, [] => []
  | balance, value :: values =>
      accepts limit balance value :: decisions limit (post limit balance value) values

/-- The values accepted. -/
def accepted (limit : ℤ) : ℤ → List ℤ → List ℤ
  | _, [] => []
  | balance, value :: values =>
      if accepts limit balance value then value :: accepted limit (balance + value) values
      else accepted limit balance values

/-- Every sum the ledger forms on the way fits an `int`. -/
def SumsFit (limit : ℤ) : ℤ → List ℤ → Prop
  | _, [] => True
  | balance, value :: values =>
      SignedInt.Fits (balance + value) ∧ SumsFit limit (post limit balance value) values

/-- The balance is the sum of what was accepted. -/
theorem sum_accepted_cons {limit balance value : ℤ} {values : List ℤ} :
    balance + (accepted limit balance (value :: values)).sum =
      post limit balance value + (accepted limit (post limit balance value) values).sum := by
  unfold post
  by_cases h : accepts limit balance value = true
  · simp [accepted, h, Int.add_assoc]
  · simp [accepted, h]

end Ledger

/-! ## One step of the code against one step of the ledger -/

section Step

variable {row : Fin 5} {customer : Customer} {transaction : Transaction}

/-- The balance one call leaves. -/
def balanceAfter (customer : Customer) (transaction : Transaction) : ℤ :=
  if limitExceeded customer transaction then customer.balance.toInt
  else (applyTransaction customer transaction).balance.toInt

/-- A call agrees with the ledger on its decision and on the balance. -/
def StepAgrees (customer : Customer) (transaction : Transaction) : Prop :=
  (!limitExceeded customer transaction) =
      Ledger.accepts customer.limit.toInt customer.balance.toInt transaction.value.toInt ∧
    balanceAfter customer transaction =
      Ledger.post customer.limit.toInt customer.balance.toInt transaction.value.toInt

/-- The check, as the comparison of the wrapped sum it is. -/
theorem limitExceeded_iff (h : Workers.WithinLine row customer) (transaction : Transaction) :
    limitExceeded customer transaction = true ↔
      (customer.balance + transaction.value).toInt < -customer.limit.toInt := by
  rw [limitExceeded, decide_eq_true_eq, Int32.lt_iff_toInt_lt, h.1, Workers.toInt_neg_limit]

/-- A sum that fits is the sum the ledger decides on. -/
theorem stepAgrees_of_fits (h : Workers.WithinLine row customer)
    (hfit : SignedInt.Fits (customer.balance.toInt + transaction.value.toInt)) :
    StepAgrees customer transaction := by
  have hsum := SignedInt.toInt_add_of_fits hfit
  have hcheck := limitExceeded_iff h transaction
  rw [hsum] at hcheck
  have hdec : (!limitExceeded customer transaction) =
      Ledger.accepts customer.limit.toInt customer.balance.toInt transaction.value.toInt := by
    rw [Bool.eq_iff_iff, Bool.not_eq_true', ← Bool.not_eq_true, hcheck, Ledger.accepts_iff]
    omega
  refine ⟨hdec, ?_⟩
  rw [Ledger.post, ← hdec, balanceAfter]
  cases limitExceeded customer transaction
  · simpa [applyTransaction] using hsum
  · simp

/-- A sum past the bottom is refused by the ledger and accepted by the code. -/
theorem not_stepAgrees_of_underflow (h : Workers.WithinLine row customer)
    (hlow : customer.balance.toInt + transaction.value.toInt < -2 ^ 31) :
    ¬ StepAgrees customer transaction := by
  rintro ⟨hdec, -⟩
  have hline := h.2
  have hlim := customer.limit.toInt_lt
  have hval := transaction.value.le_toInt
  have hwrap := SignedInt.toInt_add_of_underflow hlow
  have hcode : ¬ limitExceeded customer transaction = true := by
    rw [limitExceeded_iff h transaction, hwrap]
    omega
  have hexact : ¬ Ledger.accepts customer.limit.toInt customer.balance.toInt
      transaction.value.toInt = true := by
    rw [Ledger.accepts_iff]
    omega
  simp [hcode, hexact] at hdec

/-- A sum past the top is accepted by the ledger. The code refuses it, or
stores another balance. -/
theorem not_stepAgrees_of_overflow
    (hhigh : 2 ^ 31 ≤ customer.balance.toInt + transaction.value.toInt) :
    ¬ StepAgrees customer transaction := by
  rintro ⟨hdec, hbal⟩
  have hlim := customer.limit.toInt_lt
  have hlow := customer.limit.le_toInt
  have hwrap := SignedInt.toInt_add_of_overflow hhigh
  have hexact : Ledger.accepts customer.limit.toInt customer.balance.toInt
      transaction.value.toInt = true := by
    rw [Ledger.accepts_iff]
    omega
  have hcode : limitExceeded customer transaction = false := by simpa [hexact] using hdec
  have hleft : balanceAfter customer transaction =
      (customer.balance + transaction.value).toInt := by
    simp [balanceAfter, hcode, applyTransaction]
  have hpost : Ledger.post customer.limit.toInt customer.balance.toInt
      transaction.value.toInt = customer.balance.toInt + transaction.value.toInt :=
    if_pos hexact
  rw [hleft, hwrap, hpost] at hbal
  omega

/-- **One step agrees exactly where its sum fits.** A sum that wraps turns
up on the other side of the line or at another balance. -/
theorem stepAgrees_iff (h : Workers.WithinLine row customer) :
    StepAgrees customer transaction ↔
      SignedInt.Fits (customer.balance.toInt + transaction.value.toInt) := by
  refine ⟨fun hagree => ?_, stepAgrees_of_fits h⟩
  by_contra hfit
  rcases not_and_or.mp hfit with hlow | hhigh
  · exact not_stepAgrees_of_underflow h (Int.not_le.mp hlow) hagree
  · exact not_stepAgrees_of_overflow (Int.not_lt.mp hhigh) hagree

end Step

/-! ## A run of the code against a run of the ledger -/

/-- The values of the transactions, exactly. -/
def valuesOf (transactions : List Transaction) : List ℤ :=
  transactions.map fun transaction => transaction.value.toInt

/-- The calls on a row decide as the ledger does, and leave the sum of
what it accepted on top of the balance they found. -/
def AgreesWithExact (passes : ℕ) (row : Fin 5) (out : Customer × Int32) (users : Users)
    (transactions : List Transaction) : Prop :=
  let run := (executeAll passes row out.1 out.2 transactions).run users
  let limit := (users row).data.limit.toInt
  let balance := (users row).data.balance.toInt
  decisionsOf run.1 = Ledger.decisions limit balance (valuesOf transactions) ∧
    (run.2 row).data.balance.toInt =
      balance + (Ledger.accepted limit balance (valuesOf transactions)).sum

section Run

variable {passes : ℕ} {row : Fin 5} {out : Customer × Int32} {users : Users}
variable {transaction : Transaction} {transactions : List Transaction}

/-- The table one call leaves. -/
def usersAfter (users : Users) (row : Fin 5) (transaction : Transaction) : Users :=
  if limitExceeded (users row).data transaction then users else users.apply row transaction

theorem usersAfter_balance :
    (usersAfter users row transaction row).data.balance.toInt =
      balanceAfter (users row).data transaction := by
  unfold usersAfter balanceAfter
  split <;> simp

theorem usersAfter_limit :
    (usersAfter users row transaction row).data.limit = (users row).data.limit := by
  unfold usersAfter
  split
  · rfl
  · simp [applyTransaction]

theorem usersAfter_withinLine (h : Workers.WithinLine row (users row).data) :
    Workers.WithinLine row (usersAfter users row transaction row).data := by
  unfold usersAfter
  split
  · exact h
  · rename_i hlim
    rw [Users.apply_self]
    exact h.apply (by simpa using hlim)

/-- The first call decides, and the rest run on what it left. -/
theorem executeAll_run :
    decisionsOf ((executeAll passes row out.1 out.2 (transaction :: transactions)).run users).1 =
        (!limitExceeded (users row).data transaction) ::
          decisionsOf ((executeAll passes row out.1 out.2 transactions).run
            (usersAfter users row transaction)).1 ∧
      ((executeAll passes row out.1 out.2 (transaction :: transactions)).run users).2 =
        ((executeAll passes row out.1 out.2 transactions).run
          (usersAfter users row transaction)).2 := by
  rw [executeAll_cons]
  unfold usersAfter
  split <;> rename_i hlim <;> simp [decisionsOf, hlim]

theorem agreesWithExact_nil : AgreesWithExact passes row out users [] :=
  ⟨rfl, (Int.add_zero _).symm⟩

/-- Agreement on a nonempty run, where its first step agrees. -/
theorem agreesWithExact_cons (hstep : StepAgrees (users row).data transaction) :
    AgreesWithExact passes row out users (transaction :: transactions) ↔
      AgreesWithExact passes row out (usersAfter users row transaction) transactions := by
  obtain ⟨hdec, hbal⟩ := hstep
  obtain ⟨hrun, hleft⟩ := @executeAll_run passes row out users transaction transactions
  have hpost := hbal
  rw [← usersAfter_balance] at hpost
  simp only [AgreesWithExact, hrun, hleft, valuesOf, List.map_cons, Ledger.decisions,
    Ledger.sum_accepted_cons, usersAfter_limit, hpost, hdec, List.cons.injEq, true_and]

/-- And its first step does agree where the one-call run does. -/
theorem stepAgrees_of_agreesWithExact
    (h : AgreesWithExact passes row out users [transaction]) :
    StepAgrees (users row).data transaction := by
  obtain ⟨hrun, hleft⟩ := @executeAll_run passes row out users transaction []
  obtain ⟨hdec, hbal⟩ := h
  rw [hrun] at hdec
  rw [hleft, valuesOf, List.map_singleton, Ledger.sum_accepted_cons] at hbal
  refine ⟨(List.cons.inj hdec).1, ?_⟩
  rw [← usersAfter_balance]
  exact hbal.trans (Int.add_zero _)

/-- **Agreement along the whole run** is that every sum on the way fits. -/
theorem forall_agreesWithExact_iff (h : Workers.WithinLine row (users row).data) :
    (∀ n, AgreesWithExact passes row out users (transactions.take n)) ↔
      Ledger.SumsFit (users row).data.limit.toInt (users row).data.balance.toInt
        (valuesOf transactions) := by
  induction transactions generalizing users with
  | nil => simp [agreesWithExact_nil, valuesOf, Ledger.SumsFit]
  | cons transaction transactions ih =>
      have hnext : StepAgrees (users row).data transaction →
          ((∀ n, AgreesWithExact passes row out (usersAfter users row transaction)
            (transactions.take n)) ↔
          Ledger.SumsFit (users row).data.limit.toInt
            (Ledger.post (users row).data.limit.toInt (users row).data.balance.toInt
              transaction.value.toInt) (valuesOf transactions)) := by
        intro hstep
        rw [ih (usersAfter_withinLine h), usersAfter_limit, usersAfter_balance, hstep.2]
      constructor
      · intro hall
        have hstep : StepAgrees (users row).data transaction :=
          stepAgrees_of_agreesWithExact (by simpa using hall 1)
        refine ⟨(stepAgrees_iff h).mp hstep, (hnext hstep).mp fun n => ?_⟩
        exact (agreesWithExact_cons hstep).mp (by simpa using hall (n + 1))
      · rintro ⟨hfit, hrest⟩ n
        have hstep : StepAgrees (users row).data transaction := (stepAgrees_iff h).mpr hfit
        cases n with
        | zero => exact agreesWithExact_nil
        | succ n =>
            rw [List.take_succ_cons, agreesWithExact_cons hstep]
            exact (hnext hstep).mpr hrest n

end Run

/-- **The code is the exact ledger of a customer** for just the sequences
whose sums all fit an `int`. -/
theorem agreesWithExact_iff (passes : ℕ) (row : Fin 5) (out : Customer × Int32)
    (versions : Fin 5 → Int32) (transactions : List Transaction) :
    (∀ n, AgreesWithExact passes row out (fun row => ⟨kInitialCustomers row, versions row⟩)
        (transactions.take n)) ↔
      Ledger.SumsFit (kInitialCustomers row).limit.toInt 0 (valuesOf transactions) :=
  @forall_agreesWithExact_iff passes row out (fun row => ⟨kInitialCustomers row, versions row⟩)
    transactions (Workers.withinLine_init row)

/-- Two credits of `2147483647` to the first customer: both are accepted,
and the balance is `-2`. -/
theorem not_agreesWithExact_two_credits :
    ¬ AgreesWithExact 0 0 (initialCustomer 0, 0) (fun row => ⟨kInitialCustomers row, 1⟩)
      [{ Transaction.zero with value := 2147483647 },
        { Transaction.zero with value := 2147483647 }] := by
  unfold AgreesWithExact
  decide

end Rinha
