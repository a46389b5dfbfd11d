import Rinha.Common.Linearizable
import Rinha.Store.Commits
/-!
# The store is linearizable

To a caller, the two entry points are one bank that takes the calls one at
a time, each at some moment between its call and its return
(`linearized_of_run`). A call that commits takes effect at its write; one
that is over the limit did so at its last read, where the row really was
over the limit; a read does where it reads. The retries before are not
seen.
-/

namespace Rinha
namespace Workers

open Linearizable

variable {Inst Worker : Type}

/-! ## The bank -/

/-- The calls of `maria_database.h`. -/
inductive Op
  | execute (id : Int32) (transaction : Transaction)
  | get (id : Int32)
  deriving DecidableEq

/-- And what they hand back, with the out-parameter where it is set. -/
inductive Ret
  | executed (result : TransactionResult) (customer : Option Customer)
  | got (customer : Option Customer)
  deriving DecidableEq

/-- The five customers, and one call at a time. -/
def serveOne (customers : Fin 5 → Customer) : Op → (Fin 5 → Customer) × Ret
  | .execute id transaction =>
      match rowIndex id with
      | none => (customers, .executed .notFound none)
      | some row =>
          if limitExceeded (customers row) transaction then
            (customers, .executed .limitExceeded (some (customers row)))
          else
            let customer := applyTransaction (customers row) transaction
            (Function.update customers row customer, .executed .success (some customer))
  | .get id =>
      match rowIndex id with
      | none => (customers, .got none)
      | some row => (customers, .got (some (customers row)))

/-! ## What callers see -/

/-- The call an action makes, if it makes one. -/
def Action.op? : Action Inst Worker → Option Op
  | .execute _ id transaction => some (.execute id transaction)
  | .getCustomer _ id => some (.get id)
  | .advance _ => none

/-- What a step hands back to the thread's caller, if the call is over. -/
def State.answer (s : State Inst Worker) : Action Inst Worker → Option Ret
  | .execute _ id _ => if rowIndex id = none then some (.executed .notFound none) else none
  | .getCustomer _ id => if rowIndex id = none then some (.got none) else none
  | .advance t =>
      match s.threads t with
      | .unlocking _ result customer => some (.executed result (some customer))
      | .getting row => some (.got (some (s.users row).data))
      | _ => none

/-- The system with a clock: since when each thread has been in its call, and
what has returned. -/
structure Watched (Inst Worker : Type) where
  state : State Inst Worker
  now : ℕ
  since : Inst × Worker → ℕ
  done : List (Done Ret)

def Watched.init (users : Users) : Watched Inst Worker := ⟨.init users, 0, fun _ => 0, []⟩

section Step

variable [DecidableEq Inst] [DecidableEq Worker]

/-- Since when each thread has been in its call, after an action. -/
def Watched.after (w : Watched Inst Worker) (a : Action Inst Worker) : Inst × Worker → ℕ :=
  if a.op?.isSome then Function.update w.since a.thread w.now else w.since

/-- A step, watched. -/
def Watched.step (w : Watched Inst Worker) (a : Action Inst Worker) :
    Option (Watched Inst Worker) :=
  (w.state.step a).map fun s =>
    { state := s
      now := w.now + 1
      since := w.after a
      done := w.done ++
        ((w.state.answer a).map fun ret => ⟨w.after a a.thread, ret, w.now⟩).toList }

/-- The ways a watched state moves on. -/
inductive Moved (w : Watched Inst Worker) : Action Inst Worker → Watched Inst Worker → Prop
  | refused (t id transaction) : w.state.threads t = .idle → rowIndex id = none →
      Moved w (.execute t id transaction)
        ⟨{ w.state with
            nextCall := w.state.nextCall + 1
            returns := w.state.returns ++ [⟨w.state.nextCall, none, transaction, .notFound, none⟩] },
          w.now + 1, Function.update w.since t w.now,
          w.done ++ [⟨w.now, .executed .notFound none, w.now⟩]⟩
  | entered (t id row transaction) : w.state.threads t = .idle → rowIndex id = some row →
      Moved w (.execute t id transaction)
        ⟨{ w.state.goto t (.locking ⟨w.state.nextCall, row, transaction⟩) with
            nextCall := w.state.nextCall + 1 },
          w.now + 1, Function.update w.since t w.now, w.done⟩
  | missed (t id) : w.state.threads t = .idle → rowIndex id = none →
      Moved w (.getCustomer t id)
        ⟨w.state, w.now + 1, Function.update w.since t w.now,
          w.done ++ [⟨w.now, .got none, w.now⟩]⟩
  | asked (t id row) : w.state.threads t = .idle → rowIndex id = some row →
      Moved w (.getCustomer t id)
        ⟨w.state.goto t (.getting row), w.now + 1, Function.update w.since t w.now, w.done⟩
  | locked (t call) : w.state.threads t = .locking call →
      Moved w (.advance t)
        ⟨(w.state.setMutex t.1 call.row (some t.2)).goto t (.reading call), w.now + 1, w.since,
          w.done⟩
  | read (t call) : w.state.threads t = .reading call →
      Moved w (.advance t)
        ⟨w.state.goto t
          (.checking call (w.state.users call.row).data (w.state.users call.row).version),
          w.now + 1, w.since, w.done⟩
  | overLimit (t call customer version) : w.state.threads t = .checking call customer version →
      limitExceeded customer call.transaction = true →
      Moved w (.advance t)
        ⟨w.state.goto t (.unlocking call .limitExceeded customer), w.now + 1, w.since, w.done⟩
  | underLimit (t call customer version) : w.state.threads t = .checking call customer version →
      limitExceeded customer call.transaction = false →
      Moved w (.advance t)
        ⟨w.state.goto t (.writing call (applyTransaction customer call.transaction) version),
          w.now + 1, w.since, w.done⟩
  | written (t call customer version) : w.state.threads t = .writing call customer version →
      (w.state.users call.row).version = version →
      Moved w (.advance t)
        ⟨(w.state.commit t.1 call
          (Function.update w.state.users call.row ⟨customer, version + 1⟩)).goto t
            (.unlocking call .success customer), w.now + 1, w.since, w.done⟩
  | stale (t call customer version) : w.state.threads t = .writing call customer version →
      Moved w (.advance t)
        ⟨(w.state.failWrite t.1 call.row).goto t (.reading call), w.now + 1, w.since, w.done⟩
  | unlocked (t call result customer) : w.state.threads t = .unlocking call result customer →
      Moved w (.advance t)
        ⟨{ (w.state.setMutex t.1 call.row none).goto t .idle with
            returns := w.state.returns ++
              [⟨call.no, some call.row, call.transaction, result, some customer⟩] },
          w.now + 1, w.since,
          w.done ++ [⟨w.since t, .executed result (some customer), w.now⟩]⟩
  | got (t row) : w.state.threads t = .getting row →
      Moved w (.advance t)
        ⟨{ w.state.goto t .idle with
            reads := w.state.reads ++ [(row, (w.state.users row).data)] },
          w.now + 1, w.since, w.done ++ [⟨w.since t, .got (some (w.state.users row).data), w.now⟩]⟩

theorem moved_of_step {w w' : Watched Inst Worker} {a : Action Inst Worker}
    (h : w.step a = some w') : Moved w a w' := by
  obtain ⟨s, hs, rfl⟩ := Option.map_eq_some_iff.mp h
  cases a with
  | execute t id transaction =>
      have hafter : w.after (.execute t id transaction) = Function.update w.since t w.now := rfl
      simp only [State.step] at hs
      split at hs
      · rename_i hidle
        cases hrow : rowIndex id with
        | none =>
            rw [hrow] at hs
            obtain rfl := Option.some.inj hs
            simp only [hafter, Action.thread, State.answer, hrow, if_true, Option.map_some,
              Option.toList_some, Function.update_self]
            exact .refused t id transaction hidle hrow
        | some row =>
            rw [hrow] at hs
            obtain rfl := Option.some.inj hs
            simp only [hafter, State.answer, hrow, reduceCtorEq, if_false, Option.map_none,
              Option.toList_none, List.append_nil]
            exact .entered t id row transaction hidle hrow
      · cases hs
  | getCustomer t id =>
      have hafter : w.after (.getCustomer t id) = Function.update w.since t w.now := rfl
      simp only [State.step] at hs
      split at hs
      · rename_i hidle
        cases hrow : rowIndex id with
        | none =>
            rw [hrow] at hs
            obtain rfl := Option.some.inj hs
            simp only [hafter, Action.thread, State.answer, hrow, if_true, Option.map_some,
              Option.toList_some, Function.update_self]
            exact .missed t id hidle hrow
        | some row =>
            rw [hrow] at hs
            obtain rfl := Option.some.inj hs
            simp only [hafter, State.answer, hrow, reduceCtorEq, if_false, Option.map_none,
              Option.toList_none, List.append_nil]
            exact .asked t id row hidle hrow
      · cases hs
  | advance t =>
      simp only [State.step, State.advance, Users.write] at hs
      have hafter : w.after (.advance t) = w.since := rfl
      simp only [hafter, Action.thread, State.answer]
      split at hs
      · cases hs
      · rename_i call hpc
        split at hs
        · obtain rfl := Option.some.inj hs
          simp only [hpc, Option.map_none, Option.toList_none, List.append_nil]
          exact .locked t call hpc
        · cases hs
      · rename_i call hpc
        obtain rfl := Option.some.inj hs
        simp only [hpc, Option.map_none, Option.toList_none, List.append_nil]
        exact .read t call hpc
      · rename_i call customer version hpc
        split at hs <;> rename_i hlim <;> obtain rfl := Option.some.inj hs
        · simp only [hpc, Option.map_none, Option.toList_none, List.append_nil]
          exact .overLimit t call customer version hpc hlim
        · simp only [hpc, Option.map_none, Option.toList_none, List.append_nil]
          exact .underLimit t call customer version hpc (by simpa using hlim)
      · rename_i call customer version hpc
        by_cases hv : (w.state.users call.row).version = version
        · simp only [if_pos hv] at hs
          obtain rfl := Option.some.inj hs
          simp only [hpc, Option.map_none, Option.toList_none, List.append_nil]
          exact .written t call customer version hpc hv
        · simp only [if_neg hv] at hs
          obtain rfl := Option.some.inj hs
          simp only [hpc, Option.map_none, Option.toList_none, List.append_nil]
          exact .stale t call customer version hpc
      · rename_i call result customer hpc
        obtain rfl := Option.some.inj hs
        simp only [hpc, Option.map_some, Option.toList_some]
        exact .unlocked t call result customer hpc
      · rename_i row hpc
        obtain rfl := Option.some.inj hs
        simp only [hpc, Option.map_some, Option.toList_some]
        exact .got t row hpc

end Step

/-! ## Where each call takes effect -/

section Effect

variable {users₀ : Users} {calls : ℕ → Option Op} {order order' : List (Linearizable.Entry Op Ret)}
variable {commits commits' : Fin 5 → List (Commit Inst)} {now now' since : ℕ} {pc : Pc}

/-- A call that was made and has had no effect yet. -/
structure Waiting (calls : ℕ → Option Op) (order : List (Linearizable.Entry Op Ret))
    (now since : ℕ) (op : Op) :
    Prop where
  made : calls since = some op
  lt : since < now
  new : ∀ e ∈ order, e.call ≠ since

/-- The call of a thread that will write. -/
def Executes (calls : ℕ → Option Op) (order : List (Linearizable.Entry Op Ret))
    (now since : ℕ) (call : Call) :
    Prop :=
  ∃ id, rowIndex id = some call.row ∧ Waiting calls order now since (.execute id call.transaction)

/-- One that has had its effect, and what it returns. -/
def Effected (order : List (Linearizable.Entry Op Ret)) (since : ℕ) (ret : Ret) : Prop :=
  ∃ e ∈ order, e.call = since ∧ e.ret = ret

/-- What a thread's place says of its call: it has had its effect from the
read on where that was over the limit, from the write on where not. -/
def Pc.Effect (users₀ : Users) (commits : Fin 5 → List (Commit Inst)) (calls : ℕ → Option Op)
    (order : List (Linearizable.Entry Op Ret)) (now since : ℕ) : Pc → Prop
  | .idle => True
  | .locking call | .reading call => Executes calls order now since call
  | .checking call customer _ =>
      if limitExceeded customer call.transaction then
        Effected order since (.executed .limitExceeded (some customer))
      else Executes calls order now since call
  | .writing call customer version => Executes calls order now since call ∧
      ∃ seen, limitExceeded seen call.transaction = false ∧
        Snapshot users₀ call.row (commits call.row) seen version ∧
        customer = applyTransaction seen call.transaction
  | .unlocking _ result customer => Effected order since (.executed result (some customer))
  | .getting row => ∃ id, rowIndex id = some row ∧ Waiting calls order now since (.get id)

theorem Waiting.mono {op : Op} (h : Waiting calls order now since op)
    (hnew : ∀ e ∈ order', e ∈ order ∨ e.call ≠ since) (hnow : now ≤ now') :
    Waiting calls order' now' since op where
  made := h.made
  lt := Nat.lt_of_lt_of_le h.lt hnow
  new := fun e he => (hnew e he).elim (h.new e) id

theorem Effected.mono {ret : Ret} (h : Effected order since ret) (hsub : ∀ e ∈ order, e ∈ order') :
    Effected order' since ret := by
  obtain ⟨e, he, hrest⟩ := h
  exact ⟨e, hsub e he, hrest⟩

/-- Effects of other calls leave it as it is. -/
theorem Pc.Effect.mono (h : pc.Effect users₀ commits calls order now since)
    (hcommits : ∀ row customer version, Snapshot users₀ row (commits row) customer version →
      Snapshot users₀ row (commits' row) customer version)
    (hsub : ∀ e ∈ order, e ∈ order') (hnew : ∀ e ∈ order', e ∈ order ∨ e.call ≠ since)
    (hnow : now ≤ now') : pc.Effect users₀ commits' calls order' now' since := by
  have hexecutes : ∀ call, Executes calls order now since call →
      Executes calls order' now' since call := by
    rintro call ⟨id, hid, hwaiting⟩
    exact ⟨id, hid, hwaiting.mono hnew hnow⟩
  cases pc with
  | idle => trivial
  | locking call => exact hexecutes call h
  | reading call => exact hexecutes call h
  | checking call customer version =>
      simp only [Pc.Effect] at h ⊢
      split at h
      · rename_i hlimit
        rw [if_pos hlimit]
        exact Effected.mono h hsub
      · rename_i hlimit
        rw [if_neg hlimit]
        exact hexecutes call h
  | writing call customer version =>
      obtain ⟨hcall, seen, hlimit, hseen, hcustomer⟩ := h
      exact ⟨hexecutes call hcall, seen, hlimit, hcommits _ _ _ hseen, hcustomer⟩
  | unlocking call result customer => exact Effected.mono h hsub
  | getting row =>
      obtain ⟨id, hid, hwaiting⟩ := h
      exact ⟨id, hid, hwaiting.mono hnew hnow⟩

end Effect

/-- The customers of a table. -/
def customers (users : Users) : Fin 5 → Customer := fun row => (users row).data

/-- The invariant of a watched run: `order` linearizes what has been called
and returned, on the table as it is. -/
structure Watch (users₀ : Users) (calls : ℕ → Option Op) (w : Watched Inst Worker)
    (order : List (Linearizable.Entry Op Ret)) : Prop where
  lin : Linearized serveOne (customers users₀) calls w.done order w.now (customers w.state.users)
  effect : ∀ t, (w.state.threads t).Effect users₀ w.state.commits calls order w.now (w.since t)
  since_lt : ∀ t, w.state.threads t ≠ .idle → w.since t < w.now
  apart : ∀ t t', w.state.threads t ≠ .idle → w.state.threads t' ≠ .idle →
    w.since t = w.since t' → t = t'

section Preservation

variable [DecidableEq Inst] [DecidableEq Worker]
variable {users₀ : Users} {calls : ℕ → Option Op} {order order' : List (Linearizable.Entry Op Ret)}
variable {w w' : Watched Inst Worker} {t : Inst × Worker} {pc : Pc}

omit [DecidableEq Inst] [DecidableEq Worker] in
theorem watch_init : Watch users₀ calls (Watched.init users₀ : Watched Inst Worker) [] where
  lin := linearized_nil
  effect := fun _ => trivial
  since_lt := fun _ h => absurd rfl h
  apart := fun _ _ h => absurd rfl h

/-- **One thread moves.** Its call may have its effect, or be made; the calls
of the others are where they were. -/
theorem Watch.move (h : Watch users₀ calls w order)
    (hthreads : w'.state.threads = Function.update w.state.threads t pc)
    (hnow : w'.now = w.now + 1) (hothers : ∀ t' ≠ t, w'.since t' = w.since t')
    (hown : pc ≠ .idle →
      (w.state.threads t ≠ .idle ∧ w'.since t = w.since t) ∨ w'.since t = w.now)
    (hcommits : ∀ row customer version,
      Snapshot users₀ row (w.state.commits row) customer version →
        Snapshot users₀ row (w'.state.commits row) customer version)
    (hsub : ∀ e ∈ order, e ∈ order')
    (hnew : ∀ e ∈ order', e ∈ order ∨ e.call = w.now ∨
      (w.state.threads t ≠ .idle ∧ e.call = w.since t))
    (hlin : Linearized serveOne (customers users₀) calls w'.done order' w'.now
      (customers w'.state.users))
    (heffect : pc.Effect users₀ w'.state.commits calls order' w'.now (w'.since t)) :
    Watch users₀ calls w' order' := by
  have hself : w'.state.threads t = pc := by rw [hthreads, Function.update_self]
  have hother : ∀ t' ≠ t, w'.state.threads t' = w.state.threads t' := fun t' ht => by
    rw [hthreads, Function.update_of_ne ht]
  -- no other thread has been in its call since this one's was made
  have hne : ∀ t' ≠ t, w.state.threads t' ≠ .idle → w.since t' ≠ w.now ∧
      (w.state.threads t ≠ .idle → w.since t' ≠ w.since t) := fun t' ht hbusy => by
    refine ⟨Nat.ne_of_lt (h.since_lt t' hbusy), fun hbusy' heq => ht (h.apart t' t hbusy hbusy' heq)⟩
  constructor
  case lin => exact hlin
  case effect =>
    intro t'
    by_cases ht : t' = t
    · subst ht
      rw [hself]
      exact heffect
    · rw [hother t' ht, hothers t' ht]
      by_cases hbusy : w.state.threads t' = .idle
      · rw [hbusy]
        trivial
      · refine (h.effect t').mono hcommits hsub (fun e he => ?_) (by omega)
        obtain ⟨hnew', hold⟩ := hne t' ht hbusy
        rcases hnew e he with he | he | ⟨hbusy', he⟩
        · exact .inl he
        · exact .inr fun heq => hnew' (heq.symm.trans he)
        · exact .inr fun heq => hold hbusy' (heq.symm.trans he)
  case since_lt =>
    intro t' hbusy
    by_cases ht : t' = t
    · subst ht
      rw [hself] at hbusy
      rcases hown hbusy with ⟨hwas, hsince⟩ | hsince
      · have := h.since_lt t' hwas
        omega
      · omega
    · rw [hother t' ht] at hbusy
      have := h.since_lt t' hbusy
      rw [hothers t' ht]
      omega
  case apart =>
    have hmoved : ∀ t' ≠ t, w.state.threads t' ≠ .idle → pc ≠ .idle →
        w'.since t ≠ w.since t' := by
      intro t' ht hbusy hpc heq
      obtain ⟨hnew', hold⟩ := hne t' ht hbusy
      rcases hown hpc with ⟨hwas, hsince⟩ | hsince
      · exact hold hwas (heq.symm.trans hsince)
      · exact hnew' (heq.symm.trans hsince)
    intro t₁ t₂ h₁ h₂ heq
    by_cases ht₁ : t₁ = t <;> by_cases ht₂ : t₂ = t
    · rw [ht₁, ht₂]
    · subst ht₁
      rw [hself] at h₁
      rw [hother t₂ ht₂] at h₂
      rw [hothers t₂ ht₂] at heq
      exact absurd heq (hmoved t₂ ht₂ h₂ h₁)
    · subst ht₂
      rw [hself] at h₂
      rw [hother t₁ ht₁] at h₁
      rw [hothers t₁ ht₁] at heq
      exact absurd heq.symm (hmoved t₁ ht₁ h₁ h₂)
    · rw [hother t₁ ht₁] at h₁
      rw [hother t₂ ht₂] at h₂
      rw [hothers t₁ ht₁, hothers t₂ ht₂] at heq
      exact h.apart t₁ t₂ h₁ h₂ heq

omit [DecidableEq Inst] [DecidableEq Worker] in
theorem customers_update {users : Users} {row : Fin 5} {r : Row} :
    customers (Function.update users row r) = Function.update (customers users) row r.data := by
  funext row'
  by_cases hrow : row' = row
  · subst hrow
    simp [customers]
  · simp [customers, Function.update_of_ne hrow]

theorem serveOne_over {users : Users} {id : Int32} {row : Fin 5} {transaction : Transaction}
    (hid : rowIndex id = some row)
    (hlimit : limitExceeded (users row).data transaction = true) :
    serveOne (customers users) (.execute id transaction) =
      (customers users, .executed .limitExceeded (some (users row).data)) := by
  simp only [serveOne, hid, customers, hlimit, if_true]

theorem serveOne_under {users : Users} {id : Int32} {row : Fin 5} {transaction : Transaction}
    (version : Int32) (hid : rowIndex id = some row)
    (hlimit : limitExceeded (users row).data transaction = false) :
    serveOne (customers users) (.execute id transaction) =
      (customers (Function.update users row
        ⟨applyTransaction (users row).data transaction, version⟩),
        .executed .success (some (applyTransaction (users row).data transaction))) := by
  have hlimit' : ¬limitExceeded (customers users row) transaction = true := by
    simpa [customers] using hlimit
  rw [customers_update]
  simp only [serveOne, hid, if_neg hlimit']
  rfl

/-- **Every step keeps the invariant.** -/
theorem Watch.step {a : Action Inst Worker} (h : Watch users₀ calls w order)
    (hinv : Inv users₀ w.state) (hfew : ∀ row, (w.state.commits row).length < 2 ^ 32)
    (hcall : calls w.now = a.op?) (hm : Moved w a w') : ∃ order', Watch users₀ calls w' order' := by
  have hfresh : ∀ e ∈ order, e.call ≠ w.now := fun e he => by
    have := h.lin.called e he
    omega
  have hsame : ∀ row customer version,
      Snapshot users₀ row (w.state.commits row) customer version →
        Snapshot users₀ row (w.state.commits row) customer version := fun _ _ _ hsnap => hsnap
  have hlast : ∀ {e : Linearizable.Entry Op Ret},
      ∃ e' ∈ order ++ [e], e'.call = e.call ∧ e'.ret = e.ret ∧
      e'.point ≤ e.point := fun {e} =>
    ⟨e, List.mem_append_right _ (List.mem_singleton_self e), rfl, rfl, Nat.le_refl _⟩
  have hkeep : ∀ {e : Linearizable.Entry Op Ret}, ∀ e' ∈ order, e' ∈ order ++ [e] := fun e' he' =>
    List.mem_append_left _ he'
  have hadded : ∀ {e e' : Linearizable.Entry Op Ret}, e' ∈ order ++ [e] →
      e' ∈ order ∨ e'.call = e.call := by
    intro e e' he'
    rcases List.mem_append.mp he' with he' | he'
    · exact .inl he'
    · exact .inr (congrArg Linearizable.Entry.call (List.mem_singleton.mp he'))
  have heffect := fun {t pc} (hpc : w.state.threads t = pc) => hpc ▸ h.effect t
  cases hm with
  | refused t id transaction hidle hid =>
      have htake := h.lin.take hcall (Nat.le_refl _) hfresh
      have hserve : serveOne (customers w.state.users) (.execute id transaction) =
          (customers w.state.users, .executed .notFound none) := by simp only [serveOne, hid]
      rw [hserve] at htake
      have hstays : w.state.threads = Function.update w.state.threads t .idle := by
        rw [← hidle, Function.update_eq_self]
      exact ⟨_, h.move hstays rfl
        (fun t' ht => Function.update_of_ne ht _ _) (fun hpc => absurd rfl hpc) hsame hkeep
        (fun e he => (hadded he).imp_right .inl) (htake.return hlast) trivial⟩
  | entered t id row transaction hidle hid =>
      refine ⟨order, h.move rfl rfl (fun t' ht => Function.update_of_ne ht _ _)
        (fun _ => .inr (Function.update_self _ _ _)) hsame (fun _ he => he)
        (fun _ => .inl) h.lin.tick ⟨id, hid, ?_⟩⟩
      simp only [Function.update_self]
      exact ⟨hcall, Nat.lt_succ_self _, hfresh⟩
  | missed t id hidle hid =>
      have htake := h.lin.take hcall (Nat.le_refl _) hfresh
      have hserve : serveOne (customers w.state.users) (.get id) =
          (customers w.state.users, .got none) := by simp only [serveOne, hid]
      rw [hserve] at htake
      have hstays : w.state.threads = Function.update w.state.threads t .idle := by
        rw [← hidle, Function.update_eq_self]
      exact ⟨_, h.move hstays rfl
        (fun t' ht => Function.update_of_ne ht _ _) (fun hpc => absurd rfl hpc) hsame hkeep
        (fun e he => (hadded he).imp_right .inl) (htake.return hlast) trivial⟩
  | asked t id row hidle hid =>
      refine ⟨order, h.move rfl rfl (fun t' ht => Function.update_of_ne ht _ _)
        (fun _ => .inr (Function.update_self _ _ _)) hsame (fun _ he => he)
        (fun _ => .inl) h.lin.tick ⟨id, hid, ?_⟩⟩
      simp only [Function.update_self]
      exact ⟨hcall, Nat.lt_succ_self _, hfresh⟩
  | locked t call hpc =>
      have hbusy : w.state.threads t ≠ .idle := by rw [hpc]; nofun
      obtain ⟨id, hid, hwaiting⟩ := heffect hpc
      exact ⟨order, h.move rfl rfl (fun _ _ => rfl) (fun _ => .inl ⟨hbusy, rfl⟩) hsame
        (fun _ he => he) (fun _ => .inl) h.lin.tick
        ⟨id, hid, hwaiting.mono (fun _ => .inl) (Nat.le_succ _)⟩⟩
  | read t call hpc =>
      have hbusy : w.state.threads t ≠ .idle := by rw [hpc]; nofun
      obtain ⟨id, hid, hwaiting⟩ := heffect hpc
      by_cases hlimit : limitExceeded (w.state.users call.row).data call.transaction = true
      · -- the call is over the limit from here on, whatever the row becomes
        have htake := h.lin.take hwaiting.made (Nat.le_of_lt hwaiting.lt) hwaiting.new
        rw [serveOne_over hid hlimit] at htake
        refine ⟨_, h.move rfl rfl (fun _ _ => rfl) (fun _ => .inl ⟨hbusy, rfl⟩) hsame hkeep
          (fun e he => (hadded he).imp_right fun hcall => .inr ⟨hbusy, hcall⟩) htake ?_⟩
        simp only [Pc.Effect, hlimit, if_true]
        obtain ⟨e, he, hcall, hret, -⟩ := hlast
        exact ⟨e, he, hcall, hret⟩
      · refine ⟨order, h.move rfl rfl (fun _ _ => rfl) (fun _ => .inl ⟨hbusy, rfl⟩) hsame
          (fun _ he => he) (fun _ => .inl) h.lin.tick ?_⟩
        simp only [Pc.Effect, hlimit, Bool.false_eq_true, if_false]
        exact ⟨id, hid, hwaiting.mono (fun _ => .inl) (Nat.le_succ _)⟩
  | overLimit t call customer version hpc hlimit =>
      have hbusy : w.state.threads t ≠ .idle := by rw [hpc]; nofun
      have hwas := heffect hpc
      simp only [Pc.Effect, hlimit, if_true] at hwas
      exact ⟨order, h.move rfl rfl (fun _ _ => rfl) (fun _ => .inl ⟨hbusy, rfl⟩) hsame
        (fun _ he => he) (fun _ => .inl) h.lin.tick hwas⟩
  | underLimit t call customer version hpc hlimit =>
      have hbusy : w.state.threads t ≠ .idle := by rw [hpc]; nofun
      have hwas := heffect hpc
      simp only [Pc.Effect, hlimit, Bool.false_eq_true, if_false] at hwas
      obtain ⟨id, hid, hwaiting⟩ := hwas
      have hsound := hinv.threads t
      rw [hpc] at hsound
      exact ⟨order, h.move rfl rfl (fun _ _ => rfl) (fun _ => .inl ⟨hbusy, rfl⟩) hsame
        (fun _ he => he) (fun _ => .inl) h.lin.tick
        ⟨⟨id, hid, hwaiting.mono (fun _ => .inl) (Nat.le_succ _)⟩, customer, hlimit, hsound.2, rfl⟩⟩
  | written t call customer version hpc hv =>
      have hbusy : w.state.threads t ≠ .idle := by rw [hpc]; nofun
      obtain ⟨⟨id, hid, hwaiting⟩, seen, hlimit, hseen, rfl⟩ := heffect hpc
      -- the version still matches, so what was read is the row
      have hnow : (⟨seen, version⟩ : Row) = w.state.users call.row := by
        rw [hinv.rows]
        exact hseen.current (hfew call.row) (by rw [← hinv.rows]; exact hv)
      have hdata : (w.state.users call.row).data = seen := by rw [← hnow]
      have htake := h.lin.take hwaiting.made (Nat.le_of_lt hwaiting.lt) hwaiting.new
      rw [serveOne_under (version + 1) hid (by rw [hdata]; exact hlimit), hdata] at htake
      refine ⟨_, h.move rfl rfl (fun _ _ => rfl) (fun _ => .inl ⟨hbusy, rfl⟩)
        (fun _ _ _ hsnap => hsnap.record) hkeep
        (fun e he => (hadded he).imp_right fun hcall => .inr ⟨hbusy, hcall⟩) htake ?_⟩
      obtain ⟨e, he, hcall, hret, -⟩ := hlast
      exact ⟨e, he, hcall, hret⟩
  | stale t call customer version hpc =>
      have hbusy : w.state.threads t ≠ .idle := by rw [hpc]; nofun
      obtain ⟨⟨id, hid, hwaiting⟩, -⟩ := heffect hpc
      exact ⟨order, h.move rfl rfl (fun _ _ => rfl) (fun _ => .inl ⟨hbusy, rfl⟩) hsame
        (fun _ he => he) (fun _ => .inl) h.lin.tick
        ⟨id, hid, hwaiting.mono (fun _ => .inl) (Nat.le_succ _)⟩⟩
  | unlocked t call result customer hpc =>
      obtain ⟨e, he, hcall, hret⟩ := heffect hpc
      have hpoint := (h.lin.called e he).2.2
      exact ⟨order, h.move rfl rfl (fun _ _ => rfl) (fun hpc => absurd rfl hpc) hsame
        (fun _ he => he) (fun _ => .inl)
        (h.lin.tick.return ⟨e, he, hcall, hret, Nat.le_of_lt hpoint⟩) trivial⟩
  | got t row hpc =>
      have hbusy : w.state.threads t ≠ .idle := by rw [hpc]; nofun
      obtain ⟨id, hid, hwaiting⟩ := heffect hpc
      have htake := h.lin.take hwaiting.made (Nat.le_of_lt hwaiting.lt) hwaiting.new
      have hserve : serveOne (customers w.state.users) (.get id) =
          (customers w.state.users, .got (some (w.state.users row).data)) := by
        simp only [serveOne, hid, customers]
      rw [hserve] at htake
      exact ⟨_, h.move rfl rfl (fun _ _ => rfl) (fun hpc => absurd rfl hpc) hsame hkeep
        (fun e he => (hadded he).imp_right fun hcall => .inr ⟨hbusy, hcall⟩)
        (htake.return hlast) trivial⟩

/-! ## Every run -/

variable {as : List (Action Inst Worker)}

/-- The clock counts the steps. -/
theorem now_of_run (h : Lts.Run (Lts.ofFun Watched.step) (Watched.init users₀) as w) :
    w.now = as.length := by
  induction h with
  | nil => rfl
  | snoc hr hs ih =>
      obtain ⟨s, -, rfl⟩ := Option.map_eq_some_iff.mp hs
      rw [List.length_append, List.length_singleton, ← ih]

/-- And what is watched is the system. -/
theorem reachable_of_run (h : Lts.Run (Lts.ofFun Watched.step) (Watched.init users₀) as w) :
    Reachable users₀ w.state := by
  induction h with
  | nil => exact .refl
  | snoc hr hs ih =>
      obtain ⟨s, hstep, rfl⟩ := Option.map_eq_some_iff.mp hs
      exact ih.tail hstep

theorem watch_of_run (calls : ℕ → Option Op)
    (h : Lts.Run (Lts.ofFun Watched.step) (Watched.init users₀) as w)
    (hcalls : ∀ n a, as[n]? = some a → calls n = a.op?)
    (hfew : ∀ row, (w.state.commits row).length < 2 ^ 32) :
    ∃ order, Watch users₀ calls w order := by
  induction h with
  | nil => exact ⟨[], watch_init⟩
  | @snoc as a v u hr hs ih =>
      obtain ⟨s, hs', hu⟩ := Option.map_eq_some_iff.mp hs
      have hstate : u.state = s := by rw [← hu]
      have hfew' : ∀ row, (v.state.commits row).length < 2 ^ 32 := by
        intro row
        have hgrow := (commits_grow (stepped_of_step hs') row).length_le
        rw [← hstate] at hgrow
        exact Nat.lt_of_le_of_lt hgrow (hfew row)
      obtain ⟨order, hwatch⟩ := ih (fun n b hn => hcalls n b (by
        rw [List.getElem?_append_left (List.getElem?_eq_some_iff.mp hn).1]
        exact hn)) hfew'
      have hnow : calls v.now = a.op? := by
        rw [now_of_run hr]
        exact hcalls as.length a (by simp)
      exact hwatch.step (inv_of_reachable (reachable_of_run hr) hfew') hfew' hnow (moved_of_step hs)

/-- **The store is linearizable.** In every run of any instances and threads,
with fewer commits on each row than there are versions, the calls that
returned, and some of those that have not, have distinct moments, each
between the call and its return, such that the bank serving them one at a
time in that order hands back what they did, and ends with the customers
the table has. A call that returned before another was made is served
before it. -/
theorem linearized_of_run {users₀ : Users} {as : List (Action Inst Worker)}
    {w : Watched Inst Worker} (h : Lts.Run (Lts.ofFun Watched.step) (Watched.init users₀) as w)
    (hfew : ∀ row, (w.state.commits row).length < 2 ^ 32) :
    ∃ order, Linearized serveOne (customers users₀) (fun n => as[n]?.bind Action.op?) w.done order
        w.now (customers w.state.users) ∧
      ∀ d ∈ w.done, ∀ e' ∈ order, d.moment < e'.call →
        ∃ e, e.call = d.call ∧ e.ret = d.ret ∧
          ∃ before middle after, order = before ++ e :: middle ++ e' :: after := by
  obtain ⟨order, hwatch⟩ := watch_of_run (fun n => as[n]?.bind Action.op?) h
    (fun n a hn => by simp only [hn, Option.bind_some]) hfew
  exact ⟨order, hwatch.lin, fun d hd e' he' hlt => hwatch.lin.real_time hd he' hlt⟩

end Preservation

/-- A debit and a read by two threads of one instance. -/
theorem linearized_of_run_two : ∃ (w : Watched Unit Bool)
    (order : List (Linearizable.Entry Op Ret)),
    w.done.length = 2 ∧
      Linearized serveOne (customers fun row => ⟨kInitialCustomers row, 1⟩)
        (fun n => ([.execute ((), false) 1 { Transaction.zero with value := -7 },
          .advance ((), false), .getCustomer ((), true) 1, .advance ((), false),
          .advance ((), false), .advance ((), false), .advance ((), true),
          .advance ((), false)] : List (Action Unit Bool))[n]?.bind Action.op?)
        w.done order w.now (customers w.state.users) := by
  obtain ⟨w, hs, hlen, hfew⟩ : ∃ w : Watched Unit Bool,
      Lts.exec Watched.step (Watched.init fun row => ⟨kInitialCustomers row, 1⟩)
        [.execute ((), false) 1 { Transaction.zero with value := -7 },
          .advance ((), false), .getCustomer ((), true) 1, .advance ((), false),
          .advance ((), false), .advance ((), false), .advance ((), true),
          .advance ((), false)] = some w ∧
        w.done.length = 2 ∧ ∀ row, (w.state.commits row).length < 2 ^ 32 :=
    ⟨_, rfl, by decide, by decide⟩
  obtain ⟨order, hlin, -⟩ := linearized_of_run (Lts.run_of_exec hs) hfew
  exact ⟨w, order, hlen, hlin⟩

end Workers
end Rinha
