import Rinha.Store.Model.Workers
/-!
# Start-up

`MariaInitializeDb` of every instance, over one table with the threads of
the instances that have come through it. Each of its five upserts is one
atomic action. An instance whose upsert fails ends there, as one that
takes no further action.
-/

namespace Rinha
namespace StartUp

variable {Inst Worker : Type}

/-- The instances' threads and their table, which of its rows are there,
and how many customers each instance has inserted. What `users` has at a
row that is not there means nothing. -/
structure State (Inst Worker : Type) where
  workers : Workers.State Inst Worker
  present : Fin 5 → Bool
  inserted : Inst → ℕ

/-- An instance inserts its next customer, or a thread moves. -/
inductive Action (Inst Worker : Type)
  | insert (inst : Inst)
  | work (action : Workers.Action Inst Worker)

/-- No instance has started, and the table is as it was left. -/
def State.init (users : Users) (present : Fin 5 → Bool) : State Inst Worker where
  workers := .init users
  present := present
  inserted := fun _ => 0

/-- `stmt_insert`: a row that is not there is inserted with the default
version, one that is there keeps its version and takes the data. -/
def upsert (present : Bool) (row : Row) (customer : Customer) : Row :=
  if present then { row with data := customer } else ⟨customer, 1⟩

/-- `InsertCustomer`. -/
def State.insertCustomer (s : State Inst Worker) (row : Fin 5) : State Inst Worker :=
  { s with
    workers := { s.workers with
      users := Function.update s.workers.users row
        (upsert (s.present row) (s.workers.users row) (kInitialCustomers row)) }
    present := Function.update s.present row true }

/-- The instance of the thread that moves. -/
def instOf : Workers.Action Inst Worker → Inst
  | .execute t _ _ | .getCustomer t _ | .advance t => t.1

variable [DecidableEq Inst] [DecidableEq Worker]

/-- A step of the system. The threads of an instance start once its
`MariaInitializeDb` has returned. -/
def State.step (s : State Inst Worker) : Action Inst Worker → Option (State Inst Worker)
  | .insert inst =>
      if h : s.inserted inst < 5 then
        some { s.insertCustomer ⟨s.inserted inst, h⟩ with
          inserted := Function.update s.inserted inst (s.inserted inst + 1) }
      else none
  | .work action =>
      if s.inserted (instOf action) = 5 then
        (s.workers.step action).map fun workers => { s with workers := workers }
      else none

end StartUp
end Rinha
