import Rinha.Store.Model.Workers
/-!
# The credit line

A customer that passed the limit check is within its line once the
transaction is applied, in the very arithmetic the check uses. So what a
thread is about to write is within the line whatever row it will find,
and no interleaving, with any values and however often the version wraps,
takes a row below it.
-/

namespace Rinha
namespace Workers

variable {Inst Worker : Type}

/-- The customer has the row's initial limit and is not below it. -/
def WithinLine (row : Fin 5) (customer : Customer) : Prop :=
  customer.limit = (kInitialCustomers row).limit ∧
    -(customer.limit.toInt) ≤ customer.balance.toInt

theorem withinLine_init (row : Fin 5) : WithinLine row (kInitialCustomers row) :=
  ⟨rfl, by revert row; decide⟩

/-- The initial limits can be negated. -/
theorem toInt_neg_limit (row : Fin 5) :
    (-(kInitialCustomers row).limit).toInt = -(kInitialCustomers row).limit.toInt := by
  revert row
  decide

/-- **What the check lets through stays within the line.** -/
theorem WithinLine.apply {row : Fin 5} {customer : Customer} {transaction : Transaction}
    (h : WithinLine row customer) (hcheck : limitExceeded customer transaction = false) :
    WithinLine row (applyTransaction customer transaction) := by
  refine ⟨h.1, ?_⟩
  have hsum : ¬(customer.balance + transaction.value < -customer.limit) := by
    simpa [limitExceeded] using hcheck
  rw [Int32.lt_iff_toInt_lt, h.1, toInt_neg_limit] at hsum
  simp only [applyTransaction, h.1]
  omega

/-- What a thread holds is within the line. -/
def Pc.WithinLine : Pc → Prop
  | .checking call customer _ | .writing call customer _ => Workers.WithinLine call.row customer
  | _ => True

/-- The rows are within the line, and so is all that may be written to
them. -/
structure LineInv (s : State Inst Worker) : Prop where
  rows : ∀ row, WithinLine row (s.users row).data
  threads : ∀ t, (s.threads t).WithinLine

variable [DecidableEq Inst] [DecidableEq Worker] {s s' : State Inst Worker}

theorem LineInv.goto (h : LineInv s) (t : Inst × Worker) {pc : Pc} (hpc : pc.WithinLine) :
    LineInv (s.goto t pc) where
  rows := h.rows
  threads t' := by
    by_cases ht : t' = t
    · subst ht
      simpa [State.goto] using hpc
    · simpa [State.goto, ht] using h.threads t'

theorem lineInv_stepped (h : LineInv s) (hs : Stepped s s') : LineInv s' := by
  cases hs with
  | refused transaction => exact ⟨h.rows, h.threads⟩
  | entered t row transaction _ =>
      have hgo : LineInv (s.goto t (.locking ⟨s.nextCall, row, transaction⟩)) := h.goto t trivial
      exact ⟨hgo.rows, hgo.threads⟩
  | missed => exact h
  | asked t row _ => exact h.goto t trivial
  | locked t call _ _ =>
      exact LineInv.goto (s := s.setMutex t.1 call.row (some t.2)) ⟨h.rows, h.threads⟩ t trivial
  | read t call _ => exact h.goto t (h.rows call.row)
  | overLimit t call customer version _ _ => exact h.goto t trivial
  | underLimit t call customer version hpc hlim =>
      have hheld := h.threads t
      rw [hpc] at hheld
      exact h.goto t (WithinLine.apply hheld hlim)
  | written t call customer version hpc _ =>
      have hheld := h.threads t
      rw [hpc] at hheld
      have hrows : ∀ row, WithinLine row
          (Function.update s.users call.row ⟨customer, version + 1⟩ row).data := fun row => by
        by_cases hrow : row = call.row
        · subst hrow
          rw [Function.update_self]
          exact hheld
        · rw [Function.update_of_ne hrow]
          exact h.rows row
      have hbase : LineInv (s.commit t.1 call
          (Function.update s.users call.row ⟨customer, version + 1⟩)) := ⟨hrows, h.threads⟩
      exact hbase.goto t trivial
  | stale t call customer version _ _ =>
      exact LineInv.goto (s := s.failWrite t.1 call.row) ⟨h.rows, h.threads⟩ t trivial
  | unlocked t call result customer _ =>
      have hbase : LineInv (s.setMutex t.1 call.row none) := ⟨h.rows, h.threads⟩
      have hgo : LineInv ((s.setMutex t.1 call.row none).goto t .idle) := hbase.goto t trivial
      exact ⟨hgo.rows, hgo.threads⟩
  | got t row _ =>
      have hgo : LineInv (s.goto t .idle) := h.goto t trivial
      exact ⟨hgo.rows, hgo.threads⟩

/-- **No customer ever goes below the credit line**, and none ever changes
its limit. -/
theorem withinLine_of_reachable (versions : Fin 5 → Int32)
    (h : Reachable (fun row => ⟨kInitialCustomers row, versions row⟩) s) (row : Fin 5) :
    (s.users row).data.limit = (kInitialCustomers row).limit ∧
      -((s.users row).data.limit.toInt) ≤ (s.users row).data.balance.toInt := by
  have hinv : LineInv s :=
    Lts.Reachable.invariant h ⟨withinLine_init, fun _ => trivial⟩
      fun hx hs => lineInv_stepped hx (stepped_of_step hs)
  exact hinv.rows row

/-- Two threads debit the last of one customer's line at once: the second
finds its version stale and is refused on the retry. -/
theorem withinLine_race : ∃ s : State Bool Unit,
    Reachable (fun row => ⟨kInitialCustomers row, 1⟩) s ∧
      (s.users 0).data.balance.toInt = -100000 ∧ s.failedWrites true 0 = 1 ∧
      -((s.users 0).data.limit.toInt) ≤ (s.users 0).data.balance.toInt := by
  obtain ⟨s, hs, hbal, hfail⟩ : ∃ s : State Bool Unit,
      Lts.exec State.step (State.init fun row => ⟨kInitialCustomers row, 1⟩)
        ([.execute (false, ()) 1 { Transaction.zero with value := -100000 },
          .execute (true, ()) 1 { Transaction.zero with value := -1 }] ++
          List.replicate 3 (.advance (false, ())) ++ List.replicate 3 (.advance (true, ())) ++
          [.advance (false, ()), .advance (true, ()), .advance (true, ()),
            .advance (true, ())]) = some s ∧
        (s.users 0).data.balance.toInt = -100000 ∧ s.failedWrites true 0 = 1 :=
    ⟨_, rfl, by decide, by decide⟩
  have hreach := Lts.reachable_of_exec hs
  exact ⟨s, hreach, hbal, hfail, (withinLine_of_reachable (fun _ => 1) hreach 0).2⟩

end Workers
end Rinha
