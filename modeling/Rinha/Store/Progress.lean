import Rinha.Common.Threads
import Rinha.Store.Retries
/-!
# Every call returns

No schedule keeps a call from returning. A pass of the retry loop is three
steps, a call needs three more, and the passes are bounded by the calls
made; so runs are bounded, whoever is chosen to move. And where some thread
is in a call, some thread can move: a mutex it waits for is held by one that
is past its lock. A run that cannot go on has therefore returned from every
call, once, with every mutex free (`all_return`).
-/

namespace Rinha
namespace Workers

variable {Inst Worker : Type} [DecidableEq Inst] [DecidableEq Worker]
variable {s s' : State Inst Worker} {t : Inst × Worker} {pc : Pc} {users : Users}
variable {actions : List (Action Inst Worker)}

/-! ## The steps of a run -/

/-- The steps a thread has left in its call but for the passes it has not
begun, each of which is three more. -/
def Pc.owed : Pc → ℕ
  | .idle => 0
  | .getting _ | .reading _ | .unlocking _ _ _ => 1
  | .locking _ | .writing _ _ _ => 2
  | .checking _ _ _ => 3

/-- What some threads have left together. -/
def owedBy (threads : Finset (Inst × Worker)) (s : State Inst Worker) : ℕ :=
  ∑ t ∈ threads, (s.threads t).owed

/-- The calls of `MariaDbGetCustomer` among the actions. -/
def readsIn (actions : List (Action Inst Worker)) : ℕ :=
  actions.countP fun
    | .getCustomer _ _ => true
    | _ => false

/-- One thread moves, and the others have left what they had. -/
theorem owedBy_goto {threads : Finset (Inst × Worker)} (ht : t ∈ threads)
    (s : State Inst Worker) (pc : Pc) :
    owedBy threads (s.goto t pc) + (s.threads t).owed = owedBy threads s + pc.owed :=
  Threads.sum_update ht Pc.owed s.threads pc

/-- **One step.** A call brings three steps or two, a pass three, and every
step takes one off. -/
theorem owedBy_step {threads : Finset (Inst × Worker)} {a : Action Inst Worker}
    (h : s.step a = some s') (ha : a.thread ∈ threads) :
    owedBy threads s' + 1 ≤
      owedBy threads s + 3 * callsIn [a] + 2 * readsIn [a] + 3 * (attemptOf s a).length := by
  cases a with
  | execute t id transaction =>
      have hcost : 3 * callsIn [Action.execute t id transaction] = 3 := rfl
      simp only [State.step] at h
      split at h
      · rename_i hidle
        split at h <;> obtain rfl := Option.some.inj h
        · change owedBy threads s + 1 ≤ _
          omega
        · rename_i row hrow
          have hgo := owedBy_goto ha s (.locking ⟨s.nextCall, row, transaction⟩)
          simp only [Action.thread, hidle, Pc.owed] at hgo
          change owedBy threads (s.goto t (.locking ⟨s.nextCall, row, transaction⟩)) + 1 ≤ _
          omega
      · cases h
  | getCustomer t id =>
      have hcost : 2 * readsIn [Action.getCustomer t id] = 2 := rfl
      simp only [State.step] at h
      split at h
      · rename_i hidle
        split at h <;> obtain rfl := Option.some.inj h
        · omega
        · rename_i row hrow
          have hgo := owedBy_goto ha s (.getting row)
          simp only [Action.thread, hidle, Pc.owed] at hgo
          omega
      · cases h
  | advance t =>
      have hgo := owedBy_goto ha
      simp only [Action.thread] at hgo
      simp only [State.step, State.advance] at h
      unfold attemptOf
      split at h
      · cases h
      · rename_i call hpc
        split at h
        · obtain rfl := Option.some.inj h
          have := hgo (s.setMutex t.1 call.row (some t.2)) (.reading call)
          change owedBy threads _ + (s.threads t).owed = owedBy threads s + _ at this
          simp only [hpc, Pc.owed] at this ⊢
          omega
        · cases h
      · rename_i call hpc
        obtain rfl := Option.some.inj h
        have := hgo s (.checking call (s.users call.row).data (s.users call.row).version)
        simp only [hpc, Pc.owed, List.length_singleton] at this ⊢
        omega
      · rename_i call customer version hpc
        split at h <;> obtain rfl := Option.some.inj h
        · have := hgo s (.unlocking call .limitExceeded customer)
          simp only [hpc, Pc.owed] at this ⊢
          omega
        · have := hgo s (.writing call (applyTransaction customer call.transaction) version)
          simp only [hpc, Pc.owed] at this ⊢
          omega
      · rename_i call customer version hpc
        split at h <;> obtain rfl := Option.some.inj h
        · rename_i written hwritten
          have := hgo (s.commit t.1 call written) (.unlocking call .success customer)
          change owedBy threads _ + (s.threads t).owed = owedBy threads s + _ at this
          simp only [hpc, Pc.owed] at this ⊢
          omega
        · have := hgo (s.failWrite t.1 call.row) (.reading call)
          change owedBy threads _ + (s.threads t).owed = owedBy threads s + _ at this
          simp only [hpc, Pc.owed] at this ⊢
          omega
      · rename_i call result customer hpc
        obtain rfl := Option.some.inj h
        have := hgo (s.setMutex t.1 call.row none) .idle
        change owedBy threads _ + (s.threads t).owed = owedBy threads s + _ at this
        change owedBy threads ((s.setMutex t.1 call.row none).goto t .idle) + 1 ≤ _
        simp only [hpc, Pc.owed] at this ⊢
        omega
      · rename_i row hpc
        obtain rfl := Option.some.inj h
        have := hgo s .idle
        change owedBy threads (s.goto t .idle) + 1 ≤ _
        simp only [hpc, Pc.owed] at this ⊢
        omega

/-- **Every run.** -/
theorem length_add_owedBy_le (threads : Finset (Inst × Worker))
    (h : Lts.Run (Lts.ofFun State.step) (State.init users) actions s)
    (hactors : ∀ a ∈ actions, a.thread ∈ threads) :
    actions.length + owedBy threads s ≤
      3 * callsIn actions + 2 * readsIn actions + 3 * (attempts users actions).length := by
  induction h with
  | nil =>
      have hnone : owedBy threads (State.init users : State Inst Worker) = 0 :=
        Finset.sum_eq_zero fun _ _ => rfl
      rw [hnone]
      exact Nat.zero_le _
  | @snoc as a x y hr hs ih =>
      have hbefore := ih fun b hb => hactors b (List.mem_append_left _ hb)
      have hstep := owedBy_step hs (hactors a (List.mem_append_right _ (List.mem_singleton_self a)))
      have hcalls : callsIn (as ++ [a]) = callsIn as + callsIn [a] := List.countP_append
      have hreads : readsIn (as ++ [a]) = readsIn as + readsIn [a] := List.countP_append
      have hattempts : attempts users (as ++ [a]) = attempts users as ++ attemptOf x a :=
        Lts.trace_concat hr
      rw [hcalls, hreads, hattempts, List.length_append, List.length_append, List.length_singleton]
      omega

/-- **A run is no longer than its calls allow.** -/
theorem length_le (h : Lts.Run (Lts.ofFun State.step) (State.init users) actions s) :
    actions.length ≤
      3 * callsIn actions + 2 * readsIn actions + 3 * (callsIn actions * (callsIn actions + 1)) := by
  have hsteps := length_add_owedBy_le (actions.map Action.thread).toFinset h
    fun a ha => List.mem_toFinset.mpr (List.mem_map_of_mem ha)
  have hpasses := attempts_le h
  omega

/-! ## Someone can move -/

/-- A thread past its lock can take its next step. -/
theorem advance_isSome {call : Call} (h : (s.threads t).holds? = some call) :
    (s.advance t).isSome = true := by
  unfold State.advance
  cases hpc : s.threads t with
  | idle | getting | locking =>
      rw [hpc] at h
      cases h
  | reading | unlocking => rfl
  | checking call customer version =>
      simp only
      split <;> rfl
  | writing call customer version =>
      simp only
      split <;> rfl

/-- **No deadlock.** Where a thread is in a call, a thread can move. -/
theorem Held.exists_advance (h : Held s) (hbusy : s.threads t ≠ .idle) :
    ∃ t', (s.advance t').isSome = true := by
  cases hpc : s.threads t with
  | idle => exact absurd hpc hbusy
  | getting row => exact ⟨t, by unfold State.advance; rw [hpc]; rfl⟩
  | locking call =>
      cases hmutex : s.customerWriteMutexs t.1 call.row with
      | none =>
          refine ⟨t, ?_⟩
          unfold State.advance
          simp only [hpc, if_pos hmutex, Option.isSome_some]
      -- the one it waits for is past its own lock
      | some worker =>
          obtain ⟨held, hholds, -⟩ := (h t.1 call.row worker).mp hmutex
          exact ⟨(t.1, worker), advance_isSome hholds⟩
  | reading call =>
      have hholds : (s.threads t).holds? = some call := by rw [hpc]; rfl
      exact ⟨t, advance_isSome hholds⟩
  | checking call customer version =>
      have hholds : (s.threads t).holds? = some call := by rw [hpc]; rfl
      exact ⟨t, advance_isSome hholds⟩
  | writing call customer version =>
      have hholds : (s.threads t).holds? = some call := by rw [hpc]; rfl
      exact ⟨t, advance_isSome hholds⟩
  | unlocking call result customer =>
      have hholds : (s.threads t).holds? = some call := by rw [hpc]; rfl
      exact ⟨t, advance_isSome hholds⟩

/-- Where none can, all are idle, and the mutexes free. -/
theorem Held.idle_of_rest (h : Held s) (hrest : ∀ t, s.step (.advance t) = none) :
    (∀ t, s.threads t = .idle) ∧ ∀ inst row, s.customerWriteMutexs inst row = none := by
  have hidle : ∀ t, s.threads t = .idle := by
    intro t
    by_contra hbusy
    obtain ⟨t', hmove⟩ := h.exists_advance hbusy
    rw [show s.advance t' = none from hrest t'] at hmove
    cases hmove
  refine ⟨hidle, fun inst row => ?_⟩
  cases hmutex : s.customerWriteMutexs inst row with
  | none => rfl
  | some worker =>
      obtain ⟨call, hholds, -⟩ := (h inst row worker).mp hmutex
      rw [hidle] at hholds
      cases hholds

/-! ## What has been called returns, once -/

/-- A number that was taken is some thread's, or has returned, once. -/
structure Accounted (s : State Inst Worker) : Prop where
  nodup : (s.returns.map Return.no).Nodup
  taken : ∀ no < s.nextCall, no ∈ s.returns.map Return.no ∨
    ∃ t call, (s.threads t).call? = some call ∧ call.no = no

omit [DecidableEq Inst] [DecidableEq Worker] in
theorem accounted_init : Accounted (State.init users : State Inst Worker) :=
  ⟨List.nodup_nil, fun no hno => absurd hno (Nat.not_lt_zero no)⟩

/-- A thread moves on in its call, or has none. -/
theorem Accounted.goto (h : Accounted s) (hpc : pc.call? = (s.threads t).call?) :
    Accounted (s.goto t pc) where
  nodup := h.nodup
  taken no hno := by
    rcases h.taken no hno with hreturned | ⟨t', call, hcall, heq⟩
    · exact .inl hreturned
    · refine .inr ⟨t', call, ?_, heq⟩
      by_cases ht : t' = t
      · rw [ht, goto_threads_self, hpc, ← ht]
        exact hcall
      · rw [goto_threads_of_ne ht]
        exact hcall

omit [DecidableEq Inst] [DecidableEq Worker] in
/-- A return is of a number that has not returned. -/
theorem Accounted.nodup_concat (h : Accounted s) {r : Return}
    (hnew : ∀ r' ∈ s.returns, r'.no ≠ r.no) : ((s.returns ++ [r]).map Return.no).Nodup := by
  rw [List.map_append, List.nodup_append]
  refine ⟨h.nodup, List.nodup_singleton _, fun no hno no' hno' => ?_⟩
  obtain ⟨r', hr', rfl⟩ := List.mem_map.mp hno
  rw [List.mem_singleton.mp hno']
  exact hnew r' hr'

/-- **Every step accounts for the calls.** -/
theorem accounted_stepped (h : Accounted s) (hn : Numbered s) (hs : Stepped s s') :
    Accounted s' := by
  cases hs with
  | refused transaction =>
      refine ⟨h.nodup_concat fun r hr => Nat.ne_of_lt (hn.returns_lt r hr), fun no hno => ?_⟩
      rcases Nat.lt_succ_iff_lt_or_eq.mp hno with hlt | rfl
      · refine (h.taken no hlt).imp_left fun hreturned => ?_
        rw [List.map_append]
        exact List.mem_append_left _ hreturned
      · exact .inl (by simp)
  | entered t row transaction hidle =>
      refine ⟨h.nodup, fun no hno => ?_⟩
      rcases Nat.lt_succ_iff_lt_or_eq.mp hno with hlt | rfl
      · refine (h.taken no hlt).imp_right fun ⟨t', call, hcall, heq⟩ => ⟨t', call, ?_, heq⟩
        change ((s.goto t (.locking ⟨s.nextCall, row, transaction⟩)).threads t').call? = _
        have ht : t' ≠ t := by
          rintro rfl
          rw [hidle] at hcall
          cases hcall
        rw [goto_threads_of_ne ht]
        exact hcall
      · refine .inr ⟨t, ⟨s.nextCall, row, transaction⟩, ?_, rfl⟩
        change ((s.goto t (.locking ⟨s.nextCall, row, transaction⟩)).threads t).call? = _
        rw [goto_threads_self]
        rfl
  | missed => exact h
  | asked t row hidle => exact h.goto (congrArg Pc.call? hidle).symm
  | locked t call hpc _ =>
      exact Accounted.goto (s := s.setMutex t.1 call.row (some t.2)) { h with }
        (congrArg Pc.call? hpc).symm
  | read t call hpc => exact h.goto (congrArg Pc.call? hpc).symm
  | overLimit t call customer version hpc _ => exact h.goto (congrArg Pc.call? hpc).symm
  | underLimit t call customer version hpc _ => exact h.goto (congrArg Pc.call? hpc).symm
  | written t call customer version hpc _ =>
      exact Accounted.goto (s := s.commit t.1 call _) { h with } (congrArg Pc.call? hpc).symm
  | stale t call customer version hpc _ =>
      exact Accounted.goto (s := s.failWrite t.1 call.row) { h with } (congrArg Pc.call? hpc).symm
  | unlocked t call result customer hpc =>
      have hcall : (s.threads t).call? = some call := by rw [hpc]; rfl
      refine ⟨h.nodup_concat (hn.active_open t call hcall), fun no hno => ?_⟩
      rw [List.map_append]
      rcases h.taken no hno with hreturned | ⟨t', call', hcall', rfl⟩
      · exact .inl (List.mem_append_left _ hreturned)
      · by_cases ht : t' = t
        · subst ht
          obtain rfl := Option.some.inj (hcall.symm.trans hcall')
          exact .inl (List.mem_append_right _ (List.mem_singleton_self _))
        · refine .inr ⟨t', call', ?_, rfl⟩
          change (((s.setMutex t.1 call.row none).goto t .idle).threads t').call? = _
          rw [goto_threads_of_ne ht]
          exact hcall'
  | got t row hpc =>
      have hgo : Accounted (s.goto t .idle) := h.goto (congrArg Pc.call? hpc).symm
      exact { hgo with }

theorem accounted_of_reachable (h : Reachable users s) : Accounted s ∧ Numbered s :=
  Lts.Reachable.invariant (I := fun s => Accounted s ∧ Numbered s) h
    ⟨accounted_init, numbered_init users⟩ fun hx hs =>
      ⟨accounted_stepped hx.1 hx.2 (stepped_of_step hs), numbered_stepped hx.2 (stepped_of_step hs)⟩

omit [DecidableEq Inst] [DecidableEq Worker] in
/-- With every thread idle, the returns are the calls. -/
theorem Accounted.returns_perm (h : Accounted s) (hn : Numbered s)
    (hidle : ∀ t, s.threads t = .idle) :
    (s.returns.map Return.no).Perm (List.range s.nextCall) := by
  refine (List.perm_ext_iff_of_nodup h.nodup List.nodup_range).mpr fun no => ?_
  rw [List.mem_range]
  constructor
  · intro hno
    obtain ⟨r, hr, rfl⟩ := List.mem_map.mp hno
    exact hn.returns_lt r hr
  · intro hno
    rcases h.taken no hno with hreturned | ⟨t, call, hcall, -⟩
    · exact hreturned
    · rw [hidle t] at hcall
      cases hcall

/-! ## Every schedule -/

omit [DecidableEq Inst] [DecidableEq Worker] in
/-- No call is made while threads only go on. -/
theorem calls_append {moves : List (Action Inst Worker)}
    (hmoves : ∀ a ∈ moves, ∃ t, a = .advance t) :
    callsIn (actions ++ moves) = callsIn actions ∧
      readsIn (actions ++ moves) = readsIn actions := by
  unfold callsIn readsIn
  rw [List.countP_append, List.countP_append, Nat.add_eq_left, Nat.add_eq_left,
    List.countP_eq_zero, List.countP_eq_zero]
  constructor
  all_goals
    intro a ha
    obtain ⟨t, rfl⟩ := hmoves a ha
    nofun

/-- **Every call returns.** A run with `n` calls of
`MariaDbExecuteTransaction` and `m` of `MariaDbGetCustomer` has at most
`3 n (n + 2) + 2 m` steps; one in which no thread can move has left every
call, has every mutex free and has returned from each of the `n` calls
once; and every run comes to that if its threads go on, in any order. -/
theorem all_return (h : Lts.Run (Lts.ofFun State.step) (State.init users) actions s) :
    actions.length ≤ 3 * (callsIn actions * (callsIn actions + 2)) + 2 * readsIn actions ∧
    ((∀ t, s.step (.advance t) = none) →
      (∀ t, s.threads t = .idle) ∧ (∀ inst row, s.customerWriteMutexs inst row = none) ∧
        (s.returns.map Return.no).Perm (List.range (callsIn actions))) ∧
    ∃ moves s', Lts.Run (Lts.ofFun State.step) s moves s' ∧
      (∀ a ∈ moves, ∃ t, a = .advance t) ∧ ∀ t, s'.step (.advance t) = none := by
  have hreach : Reachable users s := ⟨actions, h⟩
  have hbound : ∀ {actions : List (Action Inst Worker)} {s : State Inst Worker},
      Lts.Run (Lts.ofFun State.step) (State.init users) actions s →
      actions.length ≤
        3 * (callsIn actions * (callsIn actions + 2)) + 2 * readsIn actions := by
    intro actions s h
    have hlength := length_le h
    rw [Nat.mul_add] at hlength ⊢
    omega
  refine ⟨hbound h, fun hrest => ?_, ?_⟩
  · obtain ⟨hidle, hfree⟩ := (paid_of_reachable hreach).2.idle_of_rest hrest
    obtain ⟨haccounted, hnumbered⟩ := accounted_of_reachable hreach
    rw [← nextCall_of_run h]
    exact ⟨hidle, hfree, haccounted.returns_perm hnumbered hidle⟩
  · obtain ⟨moves, s', hrun, hmoves, hrest⟩ := Lts.Run.exists_rest
      (s := s) (P := fun a => ∃ t, a = .advance t)
      (n := 3 * (callsIn actions * (callsIn actions + 2)) + 2 * readsIn actions + 1)
      fun moves s' (hrun : Lts.Run (Lts.ofFun State.step) s moves s') hmoves => by
        have hlength := hbound (h.append hrun)
        rw [(calls_append hmoves).1, (calls_append hmoves).2, List.length_append] at hlength
        omega
    refine ⟨moves, s', hrun, hmoves, fun t => ?_⟩
    cases hstep : s'.step (.advance t) with
    | none => rfl
    | some u => exact absurd hstep (hrest (.advance t) u ⟨t, rfl⟩)

/-- Two credits of one customer, each in its last step. -/
theorem all_return_race :
    ∃ s : State Bool Unit, race.length ≤ 3 * (2 * 4) ∧ s.returns = [] ∧
      ∃ moves s', Lts.Run (Lts.ofFun State.step) s moves s' ∧
        (∀ a ∈ moves, ∃ t, a = .advance t) ∧ ∀ t, s'.step (.advance t) = none := by
  obtain ⟨s, hs, hnone⟩ : ∃ s : State Bool Unit,
      Lts.exec State.step (State.init fun row => ⟨kInitialCustomers row, 1⟩) race = some s ∧
        s.returns = [] := ⟨_, rfl, rfl⟩
  have hreturn := all_return (Lts.run_of_exec hs)
  exact ⟨s, hreturn.1, hnone, hreturn.2.2⟩

end Workers
end Rinha
