import Mathlib.Tactic.Common
/-!
# Runs of a labelled transition relation

A machine is a relation `step : σ → α → σ → Prop`: from a state, by an
action, to a state. `Run step s as t` says the actions `as`, taken in
order, lead from `s` to `t`. Runs grow at the end, so an induction over
one hands a proof the state before the last step.

`Guarded` cuts a machine down to the steps that meet a condition on the
state before them, which is how a law that needs one is stated over whole
runs.
-/

namespace Lts

variable {σ α : Type*} {step : σ → α → σ → Prop} {s t u : σ} {as bs : List α} {a : α}

/-- The actions `as` lead from `s` to the final state. -/
inductive Run (step : σ → α → σ → Prop) (s : σ) : List α → σ → Prop
  | nil : Run step s [] s
  | snoc {as : List α} {a : α} {t u : σ} : Run step s as t → step t a u → Run step s (as ++ [a]) u

/-- The states some run leads to. -/
def Reachable (step : σ → α → σ → Prop) (s t : σ) : Prop := ∃ as, Run step s as t

/-- The steps that meet `guard`, a condition on the state before the step. -/
def Guarded (guard : σ → α → Prop) (step : σ → α → σ → Prop) : σ → α → σ → Prop :=
  fun t a u => guard t a ∧ step t a u

/-! ## The invariant rule -/

/-- **The invariant rule.** What holds at the start and survives every
step holds at the end of every run. -/
theorem Run.invariant {I : σ → Prop} (h : Run step s as t) (hinit : I s)
    (hstep : ∀ {t a u}, I t → step t a u → I u) : I t := by
  induction h with
  | nil => exact hinit
  | snoc _ hs ih => exact hstep ih hs

/-- The invariant rule, for reachable states. -/
theorem Reachable.invariant {I : σ → Prop} (h : Reachable step s t) (hinit : I s)
    (hstep : ∀ {t a u}, I t → step t a u → I u) : I t := by
  obtain ⟨as, hr⟩ := h
  exact hr.invariant hinit hstep

/-- **The rule under a bound.** The invariant may be owed only while the
bound `B` holds, provided no step re-establishes a bound that was lost. -/
theorem Reachable.invariant_of_bound {I B : σ → Prop} (h : Reachable step s t)
    (hinit : I s) (hback : ∀ {t a u}, step t a u → B u → B t)
    (hstep : ∀ {t a u}, B u → I t → step t a u → I u) (ht : B t) : I t := by
  refine h.invariant (I := fun x => B x → I x) (fun _ => hinit) ?_ ht
  intro x a y ih hs hy
  exact hstep hy (ih (hback hs hy)) hs

/-! ## Composition -/

theorem Reachable.refl : Reachable step s s := ⟨[], .nil⟩

theorem Reachable.tail (h : Reachable step s t) (hs : step t a u) : Reachable step s u := by
  obtain ⟨as, hr⟩ := h
  exact ⟨as ++ [a], hr.snoc hs⟩

theorem Run.append (h : Run step s as t) (h' : Run step t bs u) : Run step s (as ++ bs) u := by
  induction h' with
  | nil => simpa using h
  | snoc _ hs ih => rw [← List.append_assoc]; exact ih.snoc hs

theorem Reachable.trans (h : Reachable step s t) (h' : Reachable step t u) :
    Reachable step s u := by
  obtain ⟨as, hr⟩ := h
  obtain ⟨bs, hr'⟩ := h'
  exact ⟨as ++ bs, hr.append hr'⟩

theorem Run.single (h : step s a t) : Run step s [a] t := Run.nil.snoc h

/-- A run of one machine is a run of any that takes its steps. -/
theorem Run.mono {step' : σ → α → σ → Prop} (h : Run step s as t)
    (hstep : ∀ {t a u}, step t a u → step' t a u) : Run step' s as t := by
  induction h with
  | nil => exact .nil
  | snoc _ hs ih => exact ih.snoc (hstep hs)

theorem Run.of_guarded {guard : σ → α → Prop} (h : Run (Guarded guard step) s as t) :
    Run step s as t := h.mono And.right

/-- **A machine with bounded runs comes to rest.** Where every run over some
actions is shorter than a bound, one of them ends in a state from which
none of these actions leads on. -/
theorem Run.exists_rest {P : α → Prop} {n : ℕ}
    (hbound : ∀ as t, Run step s as t → (∀ a ∈ as, P a) → as.length < n) :
    ∃ as t, Run step s as t ∧ (∀ a ∈ as, P a) ∧ ∀ a u, P a → ¬step t a u := by
  induction n generalizing s with
  | zero => exact absurd (hbound [] s .nil nofun) (Nat.not_lt_zero _)
  | succ n ih =>
      by_cases hrest : ∀ a u, P a → ¬step s a u
      · exact ⟨[], s, .nil, nofun, hrest⟩
      · push Not at hrest
        obtain ⟨a, u, ha, hstep⟩ := hrest
        obtain ⟨as, t, hrun, has, hrest⟩ := ih (s := u) fun as t hrun has => by
          have hlt := hbound (a :: as) t ((Run.single hstep).append hrun)
            (List.forall_mem_cons.mpr ⟨ha, has⟩)
          rw [List.length_cons] at hlt
          omega
        exact ⟨a :: as, t, (Run.single hstep).append hrun, List.forall_mem_cons.mpr ⟨ha, has⟩,
          hrest⟩

/-! ## Executable machines

A partial function is a machine, and folding it over the actions either
gets stuck or exhibits a run. -/

/-- The machine of a partial step function. -/
def ofFun (f : σ → α → Option σ) : σ → α → σ → Prop := fun t a u => f t a = some u

/-- Runs the actions one after the other. -/
def exec (f : σ → α → Option σ) : σ → List α → Option σ
  | s, [] => some s
  | s, a :: as => (f s a).bind fun t => exec f t as

/-- What `exec` returns, a run reaches. -/
theorem run_of_exec {f : σ → α → Option σ} (h : exec f s as = some t) :
    Run (ofFun f) s as t := by
  induction as generalizing s with
  | nil => rw [← Option.some.inj h]; exact .nil
  | cons a as ih =>
      obtain ⟨r, hr, hx⟩ := Option.bind_eq_some_iff.mp h
      exact (Run.single hr).append (ih hx)

theorem reachable_of_exec {f : σ → α → Option σ} (h : exec f s as = some t) :
    Reachable (ofFun f) s t := ⟨as, run_of_exec h⟩

/-- A partial step function cut down to the steps that meet `guard`. -/
def guardedFun (guard : σ → α → Prop) [∀ s a, Decidable (guard s a)] (f : σ → α → Option σ)
    (s : σ) (a : α) : Option σ :=
  if guard s a then f s a else none

theorem run_of_exec_guarded {f : σ → α → Option σ} {guard : σ → α → Prop}
    [∀ s a, Decidable (guard s a)] (h : exec (guardedFun guard f) s as = some t) :
    Run (Guarded guard (ofFun f)) s as t := by
  induction as generalizing s with
  | nil => rw [← Option.some.inj h]; exact .nil
  | cons a as ih =>
      obtain ⟨r, hr, hx⟩ := Option.bind_eq_some_iff.mp h
      unfold guardedFun at hr
      split at hr
      · rename_i hguard
        exact (Run.single ⟨hguard, hr⟩).append (ih hx)
      · cases hr

/-! ## What is noted along a run -/

section Trace

variable {β : Type*} {f : σ → α → Option σ} {note : σ → α → List β}

/-- Runs the actions one after the other and keeps what is noted of each
step, from the state before it. -/
def trace (f : σ → α → Option σ) (note : σ → α → List β) : σ → List α → List β
  | _, [] => []
  | s, a :: as => note s a ++ (f s a).elim [] fun t => trace f note t as

/-- What a run reaches, `exec` returns. -/
theorem exec_of_run (h : Run (ofFun f) s as t) : exec f s as = some t := by
  have happend : ∀ {s : σ} {as : List α} {t : σ} {a : α}, exec f s as = some t →
      exec f s (as ++ [a]) = f t a := by
    intro s as t a hexec
    induction as generalizing s with
    | nil =>
        rw [← Option.some.inj hexec]
        exact Option.bind_fun_some _
    | cons b as ih =>
        obtain ⟨r, hr, hrest⟩ := Option.bind_eq_some_iff.mp hexec
        rw [List.cons_append, exec, hr, Option.bind_some]
        exact ih hrest
  induction h with
  | nil => rfl
  | snoc _ hs ih => exact (happend ih).trans hs

/-- One more step, one more note. -/
theorem trace_concat (h : Run (ofFun f) s as t) :
    trace f note s (as ++ [a]) = trace f note s as ++ note t a := by
  have hexec := exec_of_run h
  clear h
  induction as generalizing s with
  | nil =>
      rw [← Option.some.inj hexec, List.nil_append, trace, trace, List.nil_append]
      cases f s a with
      | none => exact List.append_nil _
      | some r => exact List.append_nil _
  | cons b as ih =>
      obtain ⟨r, hr, hrest⟩ := Option.bind_eq_some_iff.mp hexec
      rw [List.cons_append, trace, trace, hr, List.append_assoc]
      exact congrArg (note s b ++ ·) (ih hrest)

/-- **The invariant rule with notes.** -/
theorem Run.invariant_trace {I : List β → σ → Prop} (h : Run (ofFun f) s as t) (hinit : I [] s)
    (hstep : ∀ {notes t a u}, I notes t → f t a = some u → I (notes ++ note t a) u) :
    I (trace f note s as) t := by
  induction h with
  | nil => exact hinit
  | snoc hr hs ih =>
      rw [trace_concat hr]
      exact hstep ih hs

end Trace

end Lts
