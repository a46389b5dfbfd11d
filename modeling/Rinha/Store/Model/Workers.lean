import Mathlib.Logic.Function.Basic
import Rinha.Common.Run
import Rinha.Store.Model.MariaDatabase
/-!
# Many instances, many threads, one table

The two entry points of `maria_database.cc` as every worker thread of
every API instance runs them, cut at the points where another thread can
come in between: taking the mutex, the read, the limit check, the
conditional write, releasing the mutex. The mutexes belong to an
instance; the table is shared. A store call is one atomic action and does
not fail.

The last four fields of `State` are a record of the run, which no step
reads.
-/

namespace Rinha
namespace Workers

variable {Inst Worker : Type}

/-- A call of `MariaDbExecuteTransaction` past its bounds check. The
number is the call's own. -/
structure Call where
  no : ℕ
  row : Fin 5
  transaction : Transaction
  deriving DecidableEq

/-- Where a thread is. `writing` holds the `Customer` already updated. -/
inductive Pc
  | idle
  | locking (call : Call)
  | reading (call : Call)
  | checking (call : Call) (customer : Customer) (version : Int32)
  | writing (call : Call) (customer : Customer) (version : Int32)
  | unlocking (call : Call) (result : TransactionResult) (customer : Customer)
  | getting (row : Fin 5)
  deriving DecidableEq

/-- A write that modified its row. -/
structure Commit (Inst : Type) where
  no : ℕ
  inst : Inst
  transaction : Transaction
  deriving DecidableEq

/-- What a call of `MariaDbExecuteTransaction` returned. A call refused by
the bounds check names no row and leaves the out-parameter alone. -/
structure Return where
  no : ℕ
  row : Option (Fin 5)
  transaction : Transaction
  result : TransactionResult
  customer : Option Customer
  deriving DecidableEq

/-- The table, the mutexes of every instance, and every thread. -/
structure State (Inst Worker : Type) where
  users : Users
  customerWriteMutexs : Inst → Fin 5 → Option Worker
  threads : Inst × Worker → Pc
  nextCall : ℕ
  commits : Fin 5 → List (Commit Inst)
  failedWrites : Inst → Fin 5 → ℕ
  returns : List Return
  reads : List (Fin 5 × Customer)

/-- A thread starts a call, or takes the next step of the one it is in. -/
inductive Action (Inst Worker : Type)
  | execute (thread : Inst × Worker) (id : Int32) (transaction : Transaction)
  | getCustomer (thread : Inst × Worker) (id : Int32)
  | advance (thread : Inst × Worker)
  deriving DecidableEq

/-- The thread that acts. -/
def Action.thread : Action Inst Worker → Inst × Worker
  | .execute t _ _ | .getCustomer t _ | .advance t => t

/-- Every thread idle over the given table. -/
def State.init (users : Users) : State Inst Worker where
  users := users
  customerWriteMutexs := fun _ _ => none
  threads := fun _ => .idle
  nextCall := 0
  commits := fun _ => []
  failedWrites := fun _ _ => 0
  returns := []
  reads := []

section Step

variable [DecidableEq Inst] [DecidableEq Worker]

/-- One thread moves. -/
def State.goto (s : State Inst Worker) (t : Inst × Worker) (pc : Pc) : State Inst Worker :=
  { s with threads := Function.update s.threads t pc }

/-- `customer_write_mutexs[row]` of one instance changes hands. -/
def State.setMutex (s : State Inst Worker) (inst : Inst) (row : Fin 5) (holder : Option Worker) :
    State Inst Worker :=
  { s with
    customerWriteMutexs := Function.update s.customerWriteMutexs inst
      (Function.update (s.customerWriteMutexs inst) row holder) }

/-- A write that modified the row. -/
def State.commit (s : State Inst Worker) (inst : Inst) (call : Call) (users : Users) :
    State Inst Worker :=
  { s with
    users := users
    commits := Function.update s.commits call.row
      (s.commits call.row ++ [⟨call.no, inst, call.transaction⟩]) }

/-- A write that modified nothing. -/
def State.failWrite (s : State Inst Worker) (inst : Inst) (row : Fin 5) : State Inst Worker :=
  { s with
    failedWrites := Function.update s.failedWrites inst
      (Function.update (s.failedWrites inst) row (s.failedWrites inst row + 1)) }

/-- The next step of a thread inside a call, or `none` where it waits or
has none. -/
def State.advance (s : State Inst Worker) (t : Inst × Worker) : Option (State Inst Worker) :=
  match s.threads t with
  | .idle => none
  | .locking call =>
      if s.customerWriteMutexs t.1 call.row = none then
        some ((s.setMutex t.1 call.row (some t.2)).goto t (.reading call))
      else none
  | .reading call =>
      some (s.goto t (.checking call (s.users call.row).data (s.users call.row).version))
  | .checking call customer version =>
      if limitExceeded customer call.transaction then
        some (s.goto t (.unlocking call .limitExceeded customer))
      else some (s.goto t (.writing call (applyTransaction customer call.transaction) version))
  | .writing call customer version =>
      match s.users.write call.row customer version with
      | (true, users) => some ((s.commit t.1 call users).goto t (.unlocking call .success customer))
      | (false, _) => some ((s.failWrite t.1 call.row).goto t (.reading call))
  | .unlocking call result customer =>
      some { (s.setMutex t.1 call.row none).goto t .idle with
        returns := s.returns ++
          [⟨call.no, some call.row, call.transaction, result, some customer⟩] }
  | .getting row =>
      some { s.goto t .idle with reads := s.reads ++ [(row, (s.users row).data)] }

/-- A step of the system. -/
def State.step (s : State Inst Worker) : Action Inst Worker → Option (State Inst Worker)
  | .execute t id transaction =>
      if s.threads t = .idle then
        match rowIndex id with
        | none => some { s with
            nextCall := s.nextCall + 1
            returns := s.returns ++ [⟨s.nextCall, none, transaction, .notFound, none⟩] }
        | some row => some { s.goto t (.locking ⟨s.nextCall, row, transaction⟩) with
            nextCall := s.nextCall + 1 }
      else none
  | .getCustomer t id =>
      if s.threads t = .idle then
        match rowIndex id with
        | none => some s
        | some row => some (s.goto t (.getting row))
      else none
  | .advance t => s.advance t

end Step

/-! ## What a step can do -/

section Cases

variable [DecidableEq Inst] [DecidableEq Worker]

/-- The ways a state can move to the next, one constructor for each point
of the code. -/
inductive Stepped (s : State Inst Worker) : State Inst Worker → Prop
  | refused (transaction : Transaction) :
      Stepped s { s with
        nextCall := s.nextCall + 1
        returns := s.returns ++ [⟨s.nextCall, none, transaction, .notFound, none⟩] }
  | entered (t row transaction) : s.threads t = .idle →
      Stepped s { s.goto t (.locking ⟨s.nextCall, row, transaction⟩) with
        nextCall := s.nextCall + 1 }
  | missed : Stepped s s
  | asked (t row) : s.threads t = .idle → Stepped s (s.goto t (.getting row))
  | locked (t call) : s.threads t = .locking call → s.customerWriteMutexs t.1 call.row = none →
      Stepped s ((s.setMutex t.1 call.row (some t.2)).goto t (.reading call))
  | read (t call) : s.threads t = .reading call →
      Stepped s (s.goto t (.checking call (s.users call.row).data (s.users call.row).version))
  | overLimit (t call customer version) : s.threads t = .checking call customer version →
      limitExceeded customer call.transaction = true →
      Stepped s (s.goto t (.unlocking call .limitExceeded customer))
  | underLimit (t call customer version) : s.threads t = .checking call customer version →
      limitExceeded customer call.transaction = false →
      Stepped s (s.goto t (.writing call (applyTransaction customer call.transaction) version))
  | written (t call customer version) : s.threads t = .writing call customer version →
      (s.users call.row).version = version →
      Stepped s ((s.commit t.1 call
        (Function.update s.users call.row ⟨customer, version + 1⟩)).goto t
          (.unlocking call .success customer))
  | stale (t call customer version) : s.threads t = .writing call customer version →
      (s.users call.row).version ≠ version →
      Stepped s ((s.failWrite t.1 call.row).goto t (.reading call))
  | unlocked (t call result customer) : s.threads t = .unlocking call result customer →
      Stepped s { (s.setMutex t.1 call.row none).goto t .idle with
        returns :=
          s.returns ++ [⟨call.no, some call.row, call.transaction, result, some customer⟩] }
  | got (t row) : s.threads t = .getting row →
      Stepped s { s.goto t .idle with reads := s.reads ++ [(row, (s.users row).data)] }

/-- **Every step is one of the above.** -/
theorem stepped_of_step {s s' : State Inst Worker} {a : Action Inst Worker}
    (h : s.step a = some s') : Stepped s s' := by
  cases a with
  | execute t id transaction =>
      simp only [State.step] at h
      split at h
      · rename_i hidle
        split at h <;> obtain rfl := Option.some.inj h
        · exact .refused transaction
        · exact .entered t _ transaction hidle
      · cases h
  | getCustomer t id =>
      simp only [State.step] at h
      split at h
      · rename_i hidle
        split at h <;> obtain rfl := Option.some.inj h
        · exact .missed
        · exact .asked t _ hidle
      · cases h
  | advance t =>
      simp only [State.step, State.advance, Users.write] at h
      split at h
      · cases h
      · rename_i call hpc
        split at h
        · rename_i hfree
          obtain rfl := Option.some.inj h
          exact .locked t call hpc hfree
        · cases h
      · rename_i call hpc
        obtain rfl := Option.some.inj h
        exact .read t call hpc
      · rename_i call customer version hpc
        split at h <;> rename_i hlim <;> obtain rfl := Option.some.inj h
        · exact .overLimit t call customer version hpc hlim
        · exact .underLimit t call customer version hpc (by simpa using hlim)
      · rename_i call customer version hpc
        by_cases hv : (s.users call.row).version = version
        · simp only [if_pos hv] at h
          obtain rfl := Option.some.inj h
          exact .written t call customer version hpc hv
        · simp only [if_neg hv] at h
          obtain rfl := Option.some.inj h
          exact .stale t call customer version hpc hv
      · rename_i call result customer hpc
        obtain rfl := Option.some.inj h
        exact .unlocked t call result customer hpc
      · rename_i row hpc
        obtain rfl := Option.some.inj h
        exact .got t row hpc

/-- The states some interleaving reaches from the given table. -/
def Reachable (users : Users) (s : State Inst Worker) : Prop :=
  Lts.Reachable (Lts.ofFun State.step) (State.init users) s

end Cases

end Workers
end Rinha
