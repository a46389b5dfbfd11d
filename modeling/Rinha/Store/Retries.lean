import Mathlib.Algebra.BigOperators.Group.Finset.Basic
import Mathlib.Algebra.Group.Action.Defs
import Mathlib.Data.List.FinRange
import Mathlib.Algebra.Order.BigOperators.Group.Finset
import Rinha.Store.Numbering
/-!
# What the retry loops cost

A write that modifies nothing found a version other than the one it read.
Between the two another instance committed, since the mutex keeps the
threads of this one out; and the next read starts a window of its own. So
an instance fails no more often than the others commit (`Paid`), and the
passes of the retry loops are bounded by the calls made (`attempts_le`).
-/

namespace Rinha
namespace Workers

variable {Inst Worker : Type} [DecidableEq Inst] [DecidableEq Worker]
variable {s s' : State Inst Worker} {t : Inst × Worker} {pc : Pc} {users : Users}

/-! ## Who holds the mutexes -/

/-- The call a thread holds its mutex for. -/
def Pc.holds? : Pc → Option Call
  | .idle | .getting _ | .locking _ => none
  | .reading call | .checking call _ _ | .writing call _ _ | .unlocking call _ _ => some call

theorem Pc.call?_of_holds? {pc : Pc} {call : Call} (h : pc.holds? = some call) :
    pc.call? = some call := by
  cases pc with
  | idle | getting | locking => cases h
  | reading | checking | writing | unlocking => exact h

/-- A mutex is held by the thread between taking and releasing it. -/
def Held (s : State Inst Worker) : Prop :=
  ∀ inst row worker, s.customerWriteMutexs inst row = some worker ↔
    ∃ call, (s.threads (inst, worker)).holds? = some call ∧ call.row = row

omit [DecidableEq Inst] [DecidableEq Worker] in
theorem held_init : Held (State.init users : State Inst Worker) := by
  intro inst row worker
  constructor
  · intro h
    cases h
  · rintro ⟨call, h, -⟩
    cases h

omit [DecidableEq Inst] [DecidableEq Worker] in
/-- Two threads of an instance do not hold one row's mutex. -/
theorem Held.unique (h : Held s) {worker : Worker} {call call' : Call}
    (ht : (s.threads t).holds? = some call)
    (hw : (s.threads (t.1, worker)).holds? = some call') (hrow : call'.row = call.row) :
    (t.1, worker) = t := by
  have hmine := (h t.1 call.row t.2).mpr ⟨call, ht, rfl⟩
  have hother := (h t.1 call.row worker).mpr ⟨call', hw, hrow⟩
  rw [hmine] at hother
  rw [← Option.some.inj hother]

theorem Held.goto (h : Held s) (hpc : pc.holds? = (s.threads t).holds?) : Held (s.goto t pc) := by
  intro inst row worker
  by_cases ht : (inst, worker) = t
  · rw [ht, goto_threads_self, hpc, ← ht]
    exact h inst row worker
  · rw [goto_threads_of_ne ht]
    exact h inst row worker

omit [DecidableEq Worker] in
theorem setMutex_self (inst : Inst) (row : Fin 5) (holder : Option Worker) :
    (s.setMutex inst row holder).customerWriteMutexs inst row = holder := by
  simp [State.setMutex]

omit [DecidableEq Worker] in
theorem setMutex_of_ne {inst inst' : Inst} {row row' : Fin 5} (holder : Option Worker)
    (h : ¬(inst' = inst ∧ row' = row)) :
    (s.setMutex inst row holder).customerWriteMutexs inst' row' =
      s.customerWriteMutexs inst' row' := by
  by_cases hinst : inst' = inst
  · subst hinst
    have hrow : row' ≠ row := fun hrow => h ⟨rfl, hrow⟩
    simp [State.setMutex, hrow]
  · simp [State.setMutex, hinst]

/-- **A mutex changes hands.** No other thread of the instance held it, and
the one that moves has no other. -/
theorem Held.hand (h : Held s) {row : Fin 5} {holder : Option Worker}
    (hother : ∀ worker, s.customerWriteMutexs t.1 row = some worker → worker = t.2)
    (hbefore : ∀ call, (s.threads t).holds? = some call → call.row = row)
    (hafter : ∀ call, pc.holds? = some call → call.row = row)
    (hholder : ∀ worker, holder = some worker ↔ worker = t.2 ∧ ∃ call, pc.holds? = some call) :
    Held ((s.setMutex t.1 row holder).goto t pc) := by
  intro inst row' worker
  change (s.setMutex t.1 row holder).customerWriteMutexs inst row' = some worker ↔ _
  by_cases ht : (inst, worker) = t
  · subst ht
    rw [goto_threads_self]
    by_cases hrow : row' = row
    · subst hrow
      rw [setMutex_self, hholder, and_iff_right rfl]
      exact exists_congr fun call => (and_iff_left_of_imp (hafter call)).symm
    · rw [setMutex_of_ne _ fun hsame => hrow hsame.2, h]
      refine iff_of_false ?_ ?_
      · rintro ⟨call, hcall, hcrow⟩
        exact hrow (hcrow.symm.trans (hbefore call hcall))
      · rintro ⟨call, hcall, hcrow⟩
        exact hrow (hcrow.symm.trans (hafter call hcall))
  · rw [goto_threads_of_ne ht]
    change _ ↔ ∃ call, (s.threads (inst, worker)).holds? = some call ∧ call.row = row'
    rw [← h inst row' worker]
    by_cases hsame : inst = t.1 ∧ row' = row
    · obtain ⟨rfl, rfl⟩ := hsame
      have hne : worker ≠ t.2 := fun heq => ht (by rw [heq])
      rw [setMutex_self, hholder]
      exact iff_of_false (fun hself => hne hself.1) fun hheld => hne (hother worker hheld)
    · rw [setMutex_of_ne _ hsame]

/-- A thread takes the mutex of its row, which is free. -/
theorem Held.lock (h : Held s) {call : Call} (hpc : s.threads t = .locking call)
    (hfree : s.customerWriteMutexs t.1 call.row = none) :
    Held ((s.setMutex t.1 call.row (some t.2)).goto t (.reading call)) := by
  refine h.hand (fun worker hheld => ?_) (fun c hc => ?_) (fun c hc => ?_) fun worker => ?_
  · rw [hfree] at hheld
    cases hheld
  · rw [hpc] at hc
    cases hc
  · rw [← Option.some.inj hc]
  · exact ⟨fun heq => ⟨(Option.some.inj heq).symm, call, rfl⟩, fun heq => congrArg some heq.1.symm⟩

/-- And releases it. -/
theorem Held.unlock (h : Held s) {call : Call} {result : TransactionResult} {customer : Customer}
    (hpc : s.threads t = .unlocking call result customer) :
    Held ((s.setMutex t.1 call.row none).goto t .idle) := by
  have hmine := (h t.1 call.row t.2).mpr ⟨call, congrArg Pc.holds? hpc, rfl⟩
  refine h.hand (fun worker hheld => ?_) (fun c hc => ?_) nofun fun worker => ?_
  · exact (Option.some.inj (hmine.symm.trans hheld)).symm
  · rw [hpc] at hc
    rw [← Option.some.inj hc]
  · refine iff_of_false nofun ?_
    rintro ⟨-, c, hc⟩
    cases hc

theorem held_stepped (h : Held s) (hs : Stepped s s') : Held s' := by
  cases hs with
  | refused transaction => exact h
  | entered t row transaction hidle => exact h.goto (congrArg Pc.holds? hidle).symm
  | missed => exact h
  | asked t row hidle => exact h.goto (congrArg Pc.holds? hidle).symm
  | locked t call hpc hfree => exact h.lock hpc hfree
  | read t call hpc => exact h.goto (congrArg Pc.holds? hpc).symm
  | overLimit t call customer version hpc _ => exact h.goto (congrArg Pc.holds? hpc).symm
  | underLimit t call customer version hpc _ => exact h.goto (congrArg Pc.holds? hpc).symm
  | written t call customer version hpc _ =>
      exact Held.goto (s := s.commit t.1 call _) h (congrArg Pc.holds? hpc).symm
  | stale t call customer version hpc _ =>
      exact Held.goto (s := s.failWrite t.1 call.row) h (congrArg Pc.holds? hpc).symm
  | unlocked t call result customer hpc => exact h.unlock hpc
  | got t row hpc => exact h.goto (congrArg Pc.holds? hpc).symm

/-! ## Each failed write is paid for -/

/-- The commits of a row that other instances made. -/
def foreign (inst : Inst) (history : List (Commit Inst)) : ℕ :=
  history.countP fun e => e.inst ≠ inst

/-- The call a thread is in between its read and its write, and the version
it read. -/
def Pc.read? : Pc → Option (Call × Int32)
  | .checking call _ version | .writing call _ version => some (call, version)
  | _ => none

theorem Pc.holds?_of_read? {pc : Pc} {call : Call} {version : Int32}
    (h : pc.read? = some (call, version)) : pc.holds? = some call := by
  cases pc with
  | idle | locking | reading | unlocking | getting => cases h
  | checking | writing =>
      cases h
      rfl

/-- An instance has failed no more often than others have committed, and a
write that will fail has been paid for already. -/
structure Paid (s : State Inst Worker) : Prop where
  paid : ∀ inst row, s.failedWrites inst row ≤ foreign inst (s.commits row)
  owed : ∀ t call version, (s.threads t).read? = some (call, version) →
    (s.users call.row).version ≠ version →
    s.failedWrites t.1 call.row < foreign t.1 (s.commits call.row)

omit [DecidableEq Worker] in
theorem paid_init : Paid (State.init users : State Inst Worker) where
  paid _ _ := Nat.le_refl _
  owed _ _ _ h := by cases h

/-- A thread that moves owes nothing, or what it owed. -/
theorem Paid.goto (h : Paid s)
    (hread : ∀ call version, pc.read? = some (call, version) →
      (s.threads t).read? = some (call, version) ∨ (s.users call.row).version = version) :
    Paid (s.goto t pc) where
  paid := h.paid
  owed t' call version hr hne := by
    by_cases ht : t' = t
    · subst ht
      rw [goto_threads_self] at hr
      exact h.owed t' call version ((hread call version hr).resolve_right hne) hne
    · rw [goto_threads_of_ne ht] at hr
      exact h.owed t' call version hr hne

/-- A thread that is between its read and its write is where it was, if
another one has moved to where there is nothing read. -/
theorem read?_of_goto {t' : Inst × Worker} {read : Call × Int32} (hnone : pc.read? = none)
    (hr : ((s.goto t pc).threads t').read? = some read) :
    t' ≠ t ∧ (s.threads t').read? = some read := by
  by_cases ht : t' = t
  · rw [ht, goto_threads_self, hnone] at hr
    cases hr
  · rw [goto_threads_of_ne ht] at hr
    exact ⟨ht, hr⟩

omit [DecidableEq Inst] [DecidableEq Worker] in
/-- The mutex of a row has one holder in an instance. -/
theorem Held.inst_ne (h : Held s) {t' : Inst × Worker} {call call' : Call} {customer : Customer}
    {version version' : Int32} (hpc : s.threads t = .writing call customer version)
    (hr : (s.threads t').read? = some (call', version')) (ht : t' ≠ t)
    (hrow : call'.row = call.row) : t'.1 ≠ t.1 := by
  intro hinst
  obtain ⟨inst', worker'⟩ := t'
  obtain rfl : inst' = t.1 := hinst
  exact ht (h.unique (by rw [hpc]; rfl) (Pc.holds?_of_read? hr) hrow)

omit [DecidableEq Worker] in
theorem foreign_record (inst : Inst) (row row' : Fin 5) (e : Commit Inst) :
    foreign inst (record s.commits row e row') =
      foreign inst (s.commits row') + if row' = row ∧ e.inst ≠ inst then 1 else 0 := by
  by_cases hrow : row' = row
  · subst hrow
    by_cases hinst : e.inst = inst <;> simp [record, foreign, hinst]
  · simp [record, foreign, hrow]

/-- A write that takes effect pays for those of the other instances it
makes fail. Its own instance has no other between read and write. -/
theorem Paid.write (h : Paid s) (hheld : Held s) {call : Call} {customer : Customer}
    {version : Int32} (hpc : s.threads t = .writing call customer version) (value : Row) :
    Paid ((s.commit t.1 call (Function.update s.users call.row value)).goto t
      (.unlocking call .success customer)) where
  paid inst row := by
    change s.failedWrites inst row ≤ foreign inst (record s.commits call.row _ row)
    rw [foreign_record]
    exact Nat.le_add_right_of_le (h.paid inst row)
  owed t' call' version' hr hne := by
    change s.failedWrites t'.1 call'.row <
      foreign t'.1 (record s.commits call.row ⟨call.no, t.1, call.transaction⟩ call'.row)
    rw [foreign_record]
    obtain ⟨ht, hold⟩ := read?_of_goto rfl hr
    by_cases hrow : call'.row = call.row
    -- the one that fails is of another instance
    · rw [if_pos ⟨hrow, (hheld.inst_ne hpc hold ht hrow).symm⟩]
      exact Nat.lt_succ_of_le (h.paid _ _)
    · change (Function.update s.users call.row value call'.row).version ≠ version' at hne
      rw [Function.update_of_ne hrow] at hne
      exact Nat.lt_add_right _ (h.owed t' call' version' hold hne)

omit [DecidableEq Worker] in
theorem failWrite_self (inst : Inst) (row : Fin 5) :
    (s.failWrite inst row).failedWrites inst row = s.failedWrites inst row + 1 := by
  simp [State.failWrite]

omit [DecidableEq Worker] in
theorem failWrite_of_ne {inst inst' : Inst} {row row' : Fin 5} (h : ¬(inst' = inst ∧ row' = row)) :
    (s.failWrite inst row).failedWrites inst' row' = s.failedWrites inst' row' := by
  by_cases hinst : inst' = inst
  · subst hinst
    have hrow : row' ≠ row := fun hrow => h ⟨rfl, hrow⟩
    simp [State.failWrite, hrow]
  · simp [State.failWrite, hinst]

/-- A write that fails takes what it was owed. -/
theorem Paid.fail (h : Paid s) (hheld : Held s) {call : Call} {customer : Customer}
    {version : Int32} (hpc : s.threads t = .writing call customer version)
    (hne : (s.users call.row).version ≠ version) :
    Paid ((s.failWrite t.1 call.row).goto t (.reading call)) where
  paid inst row := by
    change (s.failWrite t.1 call.row).failedWrites inst row ≤ foreign inst (s.commits row)
    by_cases hsame : inst = t.1 ∧ row = call.row
    · obtain ⟨rfl, rfl⟩ := hsame
      rw [failWrite_self]
      exact h.owed t call version (by rw [hpc]; rfl) hne
    · rw [failWrite_of_ne hsame]
      exact h.paid inst row
  owed t' call' version' hr hne' := by
    change (s.failWrite t.1 call.row).failedWrites t'.1 call'.row <
      foreign t'.1 (s.commits call'.row)
    obtain ⟨ht, hold⟩ := read?_of_goto rfl hr
    rw [failWrite_of_ne fun hsame => hheld.inst_ne hpc hold ht hsame.2 hsame.1]
    exact h.owed t' call' version' hold hne'

/-- **Every step is paid for.** -/
theorem paid_stepped (h : Paid s) (hheld : Held s) (hs : Stepped s s') : Paid s' := by
  cases hs with
  | refused transaction => exact { h with }
  | entered t row transaction _ =>
      have hgo : Paid (s.goto t (.locking ⟨s.nextCall, row, transaction⟩)) := h.goto nofun
      exact { hgo with }
  | missed => exact h
  | asked t row _ => exact h.goto nofun
  | locked t call _ _ =>
      exact Paid.goto (s := s.setMutex t.1 call.row (some t.2)) { h with } nofun
  | read t call _ =>
      refine h.goto fun call' version hr => .inr ?_
      cases hr
      rfl
  | overLimit t call customer version _ _ => exact h.goto nofun
  | underLimit t call customer version hpc _ =>
      exact h.goto fun _ _ hr => .inl ((congrArg Pc.read? hpc).trans hr)
  | written t call customer version hpc _ => exact h.write hheld hpc _
  | stale t call customer version hpc hne => exact h.fail hheld hpc hne
  | unlocked t call result customer _ =>
      have hgo : Paid ((s.setMutex t.1 call.row none).goto t .idle) :=
        Paid.goto (s := s.setMutex t.1 call.row none) { h with } nofun
      exact { hgo with }
  | got t row _ =>
      have hgo : Paid (s.goto t .idle) := h.goto nofun
      exact { hgo with }

/-! ## The passes are counted -/

/-- The pass of the retry loop an action begins: the read of a call. -/
def attemptOf (s : State Inst Worker) : Action Inst Worker → List Call
  | .advance t =>
      match s.threads t with
      | .reading call => [call]
      | _ => []
  | _ => []

/-- The passes a run makes, each by its call. -/
def attempts (users : Users) (actions : List (Action Inst Worker)) : List Call :=
  Lts.trace State.step attemptOf (State.init users) actions

/-- An action begins a pass, or it is a step like any other. -/
theorem attempt_cases {a : Action Inst Worker} (h : s.step a = some s') :
    (attemptOf s a = [] ∧ Stepped s s') ∨
      ∃ t call, attemptOf s a = [call] ∧ s.threads t = .reading call ∧
        s' = s.goto t (.checking call (s.users call.row).data (s.users call.row).version) := by
  have hstepped := stepped_of_step h
  cases a with
  | execute => exact .inl ⟨rfl, hstepped⟩
  | getCustomer => exact .inl ⟨rfl, hstepped⟩
  | advance t =>
      cases hpc : s.threads t with
      | reading call =>
          simp only [State.step, State.advance, hpc] at h
          exact .inr ⟨t, call, by simp only [attemptOf, hpc], hpc, (Option.some.inj h).symm⟩
      | _ => exact .inl ⟨by simp only [attemptOf, hpc], hstepped⟩

/-- The call a thread is in before its next read. -/
def Pc.waits? : Pc → Option Call
  | .locking call | .reading call => some call
  | _ => none

/-- The passes of one call. -/
def passesOf (no : ℕ) (started : List Call) : ℕ := (started.map Call.no).count no

omit [DecidableEq Inst] [DecidableEq Worker] in
theorem passesOf_concat (no : ℕ) (started : List Call) (call : Call) :
    passesOf no (started ++ [call]) = passesOf no started + if call.no = no then 1 else 0 := by
  rw [passesOf, passesOf, List.map_append, List.count_append, List.map_singleton,
    List.count_singleton]
  simp only [beq_iff_eq]

/-- A call has made no more passes than its instance has failed writes of
the row, and the one it is in. -/
structure Counted (started : List Call) (s : State Inst Worker) : Prop where
  fresh : ∀ call ∈ started, call.no < s.nextCall
  waiting : ∀ t call, (s.threads t).waits? = some call →
    passesOf call.no started ≤ s.failedWrites t.1 call.row
  running : ∀ t call, (s.threads t).call? = some call →
    passesOf call.no started ≤ s.failedWrites t.1 call.row + 1
  all : ∀ no, passesOf no started = 0 ∨
    ∃ inst row, passesOf no started ≤ s.failedWrites inst row + 1

omit [DecidableEq Inst] [DecidableEq Worker] in
theorem counted_init : Counted [] (State.init users : State Inst Worker) where
  fresh := nofun
  waiting _ _ h := by cases h
  running _ _ h := by cases h
  all _ := .inl rfl

section

variable {started : List Call} {call : Call} {customer : Customer} {version : Int32}

omit [DecidableEq Inst] [DecidableEq Worker] in
/-- A number that is not taken has made no pass. -/
theorem Counted.passesOf_of_ge (h : Counted started s) {no : ℕ} (hno : s.nextCall ≤ no) :
    passesOf no started = 0 := by
  refine List.count_eq_zero.mpr fun hmem => ?_
  obtain ⟨call, hcall, rfl⟩ := List.mem_map.mp hmem
  have := h.fresh call hcall
  omega

theorem Pc.call?_of_waits? {pc : Pc} (h : pc.waits? = some call) : pc.call? = some call := by
  cases pc with
  | idle | checking | writing | unlocking | getting => cases h
  | locking | reading => exact h

/-- A thread moves on in its call without a pass, or out of it. -/
theorem Counted.goto (h : Counted started s)
    (hwait : ∀ call, pc.waits? = some call →
      passesOf call.no started ≤ s.failedWrites t.1 call.row)
    (hcall : ∀ call, pc.call? = some call →
      passesOf call.no started ≤ s.failedWrites t.1 call.row + 1) :
    Counted started (s.goto t pc) where
  fresh := h.fresh
  waiting t' call hc := by
    by_cases ht : t' = t
    · subst ht
      exact hwait call (by simpa using hc)
    · rw [goto_threads_of_ne ht] at hc
      exact h.waiting t' call hc
  running t' call hc := by
    by_cases ht : t' = t
    · subst ht
      exact hcall call (by simpa using hc)
    · rw [goto_threads_of_ne ht] at hc
      exact h.running t' call hc
  all := h.all

/-- A call that starts has made no pass. -/
theorem Counted.enter (h : Counted started s) (row : Fin 5) (transaction : Transaction) :
    Counted started { s.goto t (.locking ⟨s.nextCall, row, transaction⟩) with
      nextCall := s.nextCall + 1 } := by
  have hnone := h.passesOf_of_ge (Nat.le_refl _)
  have hgo : Counted started (s.goto t (.locking ⟨s.nextCall, row, transaction⟩)) := by
    refine h.goto (fun call hc => ?_) fun call hc => ?_
    · rw [← Option.some.inj hc, hnone]
      exact Nat.zero_le _
    · rw [← Option.some.inj hc, hnone]
      exact Nat.zero_le _
  exact { hgo with fresh := fun call hcall => Nat.lt_succ_of_lt (h.fresh call hcall) }

omit [DecidableEq Worker] in
theorem failedWrites_le_failWrite (inst inst' : Inst) (row row' : Fin 5) :
    s.failedWrites inst' row' ≤ (s.failWrite inst row).failedWrites inst' row' := by
  by_cases hsame : inst' = inst ∧ row' = row
  · obtain ⟨rfl, rfl⟩ := hsame
    rw [failWrite_self]
    exact Nat.le_succ _
  · rw [failWrite_of_ne hsame]

omit [DecidableEq Worker] in
/-- One more failed write leaves room for one more pass. -/
theorem Counted.failWrite (h : Counted started s) (inst : Inst) (row : Fin 5) :
    Counted started (s.failWrite inst row) where
  fresh := h.fresh
  waiting t call hc := (h.waiting t call hc).trans (failedWrites_le_failWrite _ _ _ _)
  running t call hc := (h.running t call hc).trans
    (Nat.succ_le_succ (failedWrites_le_failWrite _ _ _ _))
  all no := (h.all no).imp id fun ⟨inst', row', hle⟩ =>
    ⟨inst', row', hle.trans (Nat.succ_le_succ (failedWrites_le_failWrite _ _ _ _))⟩

/-- **A pass** is the one its call had not made yet. -/
theorem Counted.attempt (h : Counted started s) (hn : Numbered s)
    (hpc : s.threads t = .reading call) :
    Counted (started ++ [call]) (s.goto t (.checking call customer version)) := by
  have hcall : (s.threads t).call? = some call := by rw [hpc]; rfl
  have hwait := h.waiting t call (by rw [hpc]; rfl)
  -- the pass is counted for one call, and every other thread is in another
  have hother : ∀ t' call', t' ≠ t → (s.threads t').call? = some call' →
      passesOf call'.no (started ++ [call]) = passesOf call'.no started := by
    intro t' call' ht hc
    have hne : call.no ≠ call'.no := fun hno => ht (hn.active_inj t' t call' call hc hcall hno.symm)
    rw [passesOf_concat, if_neg hne, Nat.add_zero]
  have hself : passesOf call.no (started ++ [call]) ≤ s.failedWrites t.1 call.row + 1 := by
    rw [passesOf_concat, if_pos rfl]
    exact Nat.succ_le_succ hwait
  constructor
  case fresh =>
    intro c hc
    rcases List.mem_append.mp hc with hc | hc
    · exact h.fresh c hc
    · rw [List.mem_singleton.mp hc]
      exact hn.active_lt t call hcall
  case waiting =>
    intro t' call' hc
    by_cases ht : t' = t
    · subst ht
      rw [goto_threads_self] at hc
      cases hc
    · rw [goto_threads_of_ne ht] at hc
      rw [hother t' call' ht (Pc.call?_of_waits? hc)]
      exact h.waiting t' call' hc
  case running =>
    intro t' call' hc
    by_cases ht : t' = t
    · subst ht
      rw [goto_threads_self] at hc
      rw [← Option.some.inj hc]
      exact hself
    · rw [goto_threads_of_ne ht] at hc
      rw [hother t' call' ht hc]
      exact h.running t' call' hc
  case all =>
    intro no
    by_cases hno : call.no = no
    · subst hno
      exact .inr ⟨t.1, call.row, hself⟩
    · rw [passesOf_concat, if_neg hno, Nat.add_zero]
      exact h.all no

/-- A step that begins no pass. -/
theorem counted_stepped (h : Counted started s) (hs : Stepped s s') : Counted started s' := by
  cases hs with
  | refused transaction =>
      exact { h with fresh := fun call hcall => Nat.lt_succ_of_lt (h.fresh call hcall) }
  | entered t row transaction _ => exact h.enter row transaction
  | missed => exact h
  | asked t row _ => exact h.goto nofun nofun
  | locked t call hpc _ =>
      exact Counted.goto (s := s.setMutex t.1 call.row (some t.2)) { h with }
        (fun c hc => h.waiting t c ((congrArg Pc.waits? hpc).trans hc))
        fun c hc => h.running t c ((congrArg Pc.call? hpc).trans hc)
  | read t call hpc =>
      exact h.goto nofun fun c hc => h.running t c ((congrArg Pc.call? hpc).trans hc)
  | overLimit t call customer version hpc _ =>
      exact h.goto nofun fun c hc => h.running t c ((congrArg Pc.call? hpc).trans hc)
  | underLimit t call customer version hpc _ =>
      exact h.goto nofun fun c hc => h.running t c ((congrArg Pc.call? hpc).trans hc)
  | written t call customer version hpc _ =>
      exact Counted.goto (s := s.commit t.1 call _) { h with } nofun
        fun c hc => h.running t c ((congrArg Pc.call? hpc).trans hc)
  | stale t call customer version hpc _ =>
      have hrun := h.running t call (by rw [hpc]; rfl)
      rw [← failWrite_self] at hrun
      refine (h.failWrite t.1 call.row).goto (fun c hc => ?_) fun c hc => ?_
      · obtain rfl := Option.some.inj hc
        exact hrun
      · obtain rfl := Option.some.inj hc
        exact Nat.le_succ_of_le hrun
  | unlocked t call result customer _ =>
      have hgo : Counted started ((s.setMutex t.1 call.row none).goto t .idle) :=
        Counted.goto (s := s.setMutex t.1 call.row none) { h with } nofun nofun
      exact { hgo with }
  | got t row _ =>
      have hgo : Counted started (s.goto t .idle) := h.goto nofun nofun
      exact { hgo with }

/-! ## Every run -/

/-- The calls of `MariaDbExecuteTransaction` among the actions. -/
def callsIn (actions : List (Action Inst Worker)) : ℕ :=
  actions.countP fun
    | .execute _ _ _ => true
    | _ => false

/-- A call takes a number, and nothing else does. -/
theorem nextCall_step {a : Action Inst Worker} (h : s.step a = some s') :
    s'.nextCall = s.nextCall + callsIn [a] := by
  cases a with
  | execute t id transaction =>
      simp only [State.step] at h
      split at h
      · split at h <;> obtain rfl := Option.some.inj h <;> rfl
      · cases h
  | getCustomer t id =>
      simp only [State.step] at h
      split at h
      · split at h <;> obtain rfl := Option.some.inj h <;> rfl
      · cases h
  | advance t =>
      simp only [State.step, State.advance] at h
      repeat' split at h
      all_goals cases h
      all_goals rfl

variable {actions : List (Action Inst Worker)}

theorem nextCall_of_run (h : Lts.Run (Lts.ofFun State.step) (State.init users) actions s) :
    s.nextCall = callsIn actions := by
  induction h with
  | nil => rfl
  | snoc _ hs ih => rw [nextCall_step hs, ih, callsIn, callsIn, callsIn, List.countP_append]

theorem counted_of_run (h : Lts.Run (Lts.ofFun State.step) (State.init users) actions s) :
    Counted (attempts users actions) s := by
  have hboth : Counted (attempts users actions) s ∧ Numbered s := by
    refine h.invariant_trace (I := fun started s => Counted started s ∧ Numbered s)
      ⟨counted_init, numbered_init users⟩ fun {started x a y} hx hs => ?_
    have hn := numbered_stepped hx.2 (stepped_of_step hs)
    rcases attempt_cases hs with ⟨hnone, hstepped⟩ | ⟨t, call, hone, hpc, rfl⟩
    · rw [hnone, List.append_nil]
      exact ⟨counted_stepped hx.1 hstepped, hn⟩
    · rw [hone]
      exact ⟨hx.1.attempt hx.2 hpc, hn⟩
  exact hboth.1

theorem paid_of_reachable (h : Reachable users s) : Paid s ∧ Held s :=
  Lts.Reachable.invariant (I := fun s => Paid s ∧ Held s) h ⟨paid_init, held_init⟩ fun hx hs =>
    ⟨paid_stepped hx.1 hx.2 (stepped_of_step hs), held_stepped hx.2 (stepped_of_step hs)⟩

/-- A list over `n` numbers, none of them more than `b` times. -/
theorem length_le_of_count {l : List ℕ} {n b : ℕ} (hlt : ∀ x ∈ l, x < n)
    (hcount : ∀ x, l.count x ≤ b) : l.length ≤ n * b := by
  have hsub : l.toFinset ⊆ Finset.range n := fun x hx =>
    Finset.mem_range.mpr (hlt x (List.mem_toFinset.mp hx))
  calc l.length = ∑ x ∈ l.toFinset, l.count x := (List.sum_toFinset_count_eq_length l).symm
    _ ≤ l.toFinset.card • b := Finset.sum_le_card_nsmul _ _ _ fun x _ => hcount x
    _ ≤ n * b := by
      rw [smul_eq_mul]
      exact Nat.mul_le_mul_right b ((Finset.card_le_card hsub).trans (Finset.card_range n).le)

/-- **The passes are bounded by the calls.** -/
theorem attempts_le (h : Lts.Run (Lts.ofFun State.step) (State.init users) actions s) :
    (attempts users actions).length ≤ callsIn actions * (callsIn actions + 1) := by
  have hreach : Reachable users s := ⟨actions, h⟩
  obtain ⟨hpaid, -⟩ := paid_of_reachable hreach
  have hn := numbered_of_reachable hreach
  have hcounted := counted_of_run h
  have hpasses : ∀ no, passesOf no (attempts users actions) ≤ s.nextCall + 1 := by
    intro no
    rcases hcounted.all no with hnone | ⟨inst, row, hle⟩
    · rw [hnone]
      exact Nat.zero_le _
    -- a call passes once more than its instance failed, which the commits bound
    · have hforeign : foreign inst (s.commits row) ≤ (s.commits row).length :=
        List.countP_le_length
      have hfailed := hpaid.paid inst row
      have hcommits := hn.length_commits_le row
      omega
  rw [← nextCall_of_run h, ← List.length_map Call.no]
  refine length_le_of_count (fun no hno => ?_) hpasses
  obtain ⟨call, hcall, rfl⟩ := List.mem_map.mp hno
  exact hcounted.fresh call hcall

/-- As many places of a list as have a property, one for each. -/
theorem exists_places {α : Type} {l : List α} {p : α → Bool} {k : ℕ} (h : k ≤ l.countP p) :
    ∃ place : Fin k → Fin l.length, Function.Injective place ∧
      ∀ i, p (l.get (place i)) = true := by
  have hcount : ((List.finRange l.length).filter fun i => p (l.get i)).length = l.countP p := by
    conv_rhs => rw [← List.map_get_finRange l]
    rw [List.countP_map, List.countP_eq_length_filter]
    rfl
  refine ⟨fun i => ((List.finRange l.length).filter fun i => p (l.get i)).get
    ⟨i, by rw [hcount]; omega⟩, fun i j hij => ?_, fun i => ?_⟩
  · have hnodup := (List.nodup_finRange l.length).filter fun i => p (l.get i)
    have hval := hnodup.get_inj_iff.mp hij
    exact Fin.ext (Fin.mk.inj hval)
  · have hmem := List.get_mem ((List.finRange l.length).filter fun i => p (l.get i))
      ⟨i, by rw [hcount]; omega⟩
    exact (List.mem_filter.mp hmem).2

/-- **Retries are paid for.** In every run, an instance has written to a row
in vain no more often than the other instances have committed to it, each
time for a commit of its own; the passes of all retry loops together are
bounded by the calls made; and a mutex is held only by a thread in a call
on its row that has not returned. -/
theorem retries_paid (h : Lts.Run (Lts.ofFun State.step) (State.init users) actions s) :
    (∀ inst row, s.failedWrites inst row ≤ foreign inst (s.commits row) ∧
      ∃ payer : Fin (s.failedWrites inst row) → Fin (s.commits row).length,
        Function.Injective payer ∧ ∀ i, ((s.commits row).get (payer i)).inst ≠ inst) ∧
    (attempts users actions).length ≤ callsIn actions * (callsIn actions + 1) ∧
    ∀ inst row worker, s.customerWriteMutexs inst row = some worker →
      ∃ call, (s.threads (inst, worker)).call? = some call ∧ call.row = row ∧
        ∀ r ∈ s.returns, r.no ≠ call.no := by
  have hreach : Reachable users s := ⟨actions, h⟩
  obtain ⟨hpaid, hheld⟩ := paid_of_reachable hreach
  refine ⟨fun inst row => ⟨hpaid.paid inst row, ?_⟩, attempts_le h,
    fun inst row worker hmutex => ?_⟩
  · obtain ⟨payer, hinj, hpayer⟩ := exists_places (hpaid.paid inst row)
    exact ⟨payer, hinj, fun i => of_decide_eq_true (hpayer i)⟩
  · obtain ⟨call, hholds, hrow⟩ := (hheld inst row worker).mp hmutex
    have hcall := Pc.call?_of_holds? hholds
    exact ⟨call, hcall, hrow, (numbered_of_reachable hreach).active_open _ _ hcall⟩

theorem retries_paid_race :
    ∃ s : State Bool Unit, s.failedWrites true 0 = 1 ∧
      s.failedWrites true 0 ≤ foreign true (s.commits 0) ∧
      (attempts (fun row => ⟨kInitialCustomers row, 1⟩) race).length = 3 ∧
      (attempts (fun row => ⟨kInitialCustomers row, 1⟩) race).length ≤ 2 * 3 := by
  obtain ⟨s, hs, hfail⟩ : ∃ s : State Bool Unit,
      Lts.exec State.step (State.init fun row => ⟨kInitialCustomers row, 1⟩) race = some s ∧
        s.failedWrites true 0 = 1 := ⟨_, rfl, by decide⟩
  have hpaid := retries_paid (Lts.run_of_exec hs)
  exact ⟨s, hfail, (hpaid.1 true 0).1, rfl, hpaid.2.1⟩

end

end Workers
end Rinha
