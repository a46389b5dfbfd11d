import Mathlib.Algebra.Order.BigOperators.Group.List
import Mathlib.Algebra.Order.Group.Nat
import Mathlib.Algebra.Ring.Nat
import Mathlib.Data.List.Perm.Subperm
import Mathlib.Tactic.Common
/-!
# Linearizability

Operations on a shared object are called and return at moments of a run,
and an operation is named by the moment of its call. A history is
linearizable when the operations that returned, and some of those still
running, can be given distinct points, each between its call and its
return, at which a sequential object taking them one by one would have
returned the same. An operation that returned before another was called
then comes before it (`Linearized.real_time`).

A linearization grows with its run: what a moment of the run adds is no
operation, one that takes effect, or the return of one that has.
-/

namespace Linearizable

variable {σ Op Ret : Type*}

/-- An operation that took effect: when it was called, what it was, what it
returns and when that was settled. -/
structure Entry (Op Ret : Type*) where
  call : ℕ
  op : Op
  ret : Ret
  point : ℕ

/-- An operation that returned. -/
structure Done (Ret : Type*) where
  call : ℕ
  ret : Ret
  moment : ℕ

variable {apply : σ → Op → σ × Ret} {s₀ s : σ} {calls : ℕ → Option Op}
variable {done : List (Done Ret)} {order : List (Entry Op Ret)} {now : ℕ}

/-- The entries are what the sequential object makes of their operations. -/
inductive Legal (apply : σ → Op → σ × Ret) (s₀ : σ) : List (Entry Op Ret) → σ → Prop
  | nil : Legal apply s₀ [] s₀
  | snoc {order : List (Entry Op Ret)} {s : σ} {e : Entry Op Ret} : Legal apply s₀ order s →
      e.ret = (apply s e.op).2 → Legal apply s₀ (order ++ [e]) (apply s e.op).1

/-- `order` linearizes the history of a run up to a moment: `calls` says
which operation, if any, was called at each moment, and `done` what
returned. -/
structure Linearized (apply : σ → Op → σ × Ret) (s₀ : σ) (calls : ℕ → Option Op)
    (done : List (Done Ret)) (order : List (Entry Op Ret)) (now : ℕ) (s : σ) : Prop where
  legal : Legal apply s₀ order s
  increasing : order.Pairwise fun e e' => e.point < e'.point
  nodup : (order.map Entry.call).Nodup
  called : ∀ e ∈ order, calls e.call = some e.op ∧ e.call ≤ e.point ∧ e.point < now
  complete : ∀ d ∈ done, ∃ e ∈ order, e.call = d.call ∧ e.ret = d.ret ∧ e.point ≤ d.moment

/-- **Real time is kept.** Where an operation returned before another was
called, its entry stands before the other's. -/
theorem Linearized.real_time (h : Linearized apply s₀ calls done order now s) {d : Done Ret}
    {e' : Entry Op Ret} (hd : d ∈ done) (he' : e' ∈ order) (hbefore : d.moment < e'.call) :
    ∃ e, e.call = d.call ∧ e.ret = d.ret ∧
      ∃ before middle after, order = before ++ e :: middle ++ e' :: after := by
  obtain ⟨e, he, hcall, hret, hpoint⟩ := h.complete d hd
  have hlt : e.point < e'.point := by
    have := (h.called e' he').2.1
    omega
  refine ⟨e, hcall, hret, ?_⟩
  obtain ⟨before, after, rfl⟩ := List.append_of_mem he
  rcases List.mem_append.mp he' with hfront | hback
  · have := (List.pairwise_append.mp h.increasing).2.2 e' hfront e List.mem_cons_self
    omega
  · rcases List.mem_cons.mp hback with rfl | hback
    · omega
    · obtain ⟨middle, after, rfl⟩ := List.append_of_mem hback
      exact ⟨before, middle, after, by simp⟩

/-- **No call is taken twice**: whatever the operations weigh, they weigh no
more than the calls that were made. -/
theorem Linearized.sum_le {α : Type*} {as : List α} {op? : α → Option Op}
    (h : Linearized apply s₀ (fun n => as[n]?.bind op?) done order now s) (weight : Op → ℕ) :
    (order.map fun e => weight e.op).sum ≤ (as.map fun a => (op? a).elim 0 weight).sum := by
  let weightAt : ℕ → ℕ := fun n => (as[n]?.bind op?).elim 0 weight
  have horder : (order.map fun e => weight e.op) = (order.map Entry.call).map weightAt := by
    rw [List.map_map]
    refine List.map_congr_left fun e he => ?_
    have hcall := (h.called e he).1
    simp only [Function.comp_apply, weightAt, hcall, Option.elim_some]
  have hall : (as.map fun a => (op? a).elim 0 weight) = (List.range as.length).map weightAt := by
    refine List.ext_getElem (by simp) fun n hn _ => ?_
    have hlt : n < as.length := by simpa using hn
    simp [weightAt, hlt]
  have hsub : order.map Entry.call ⊆ List.range as.length := fun n hn => by
    obtain ⟨e, he, rfl⟩ := List.mem_map.mp hn
    obtain ⟨a, ha, -⟩ := Option.bind_eq_some_iff.mp (h.called e he).1
    exact List.mem_range.mpr (List.getElem?_eq_some_iff.mp ha).1
  obtain ⟨kept, hperm, hkept⟩ := h.nodup.subperm hsub
  rw [horder, hall, ← (hperm.map weightAt).sum_eq]
  exact (hkept.map weightAt).sum_le_sum fun _ _ => Nat.zero_le _

/-! ## As the run goes on -/

/-- Nothing happens. -/
theorem Linearized.tick (h : Linearized apply s₀ calls done order now s) :
    Linearized apply s₀ calls done order (now + 1) s where
  legal := h.legal
  increasing := h.increasing
  nodup := h.nodup
  called := fun e he => by
    have := h.called e he
    exact ⟨this.1, this.2.1, by omega⟩
  complete := h.complete

/-- An operation takes effect. -/
theorem Linearized.take (h : Linearized apply s₀ calls done order now s) {call : ℕ} {op : Op}
    (hcall : calls call = some op) (hle : call ≤ now) (hnew : ∀ e ∈ order, e.call ≠ call) :
    Linearized apply s₀ calls done (order ++ [⟨call, op, (apply s op).2, now⟩]) (now + 1)
      (apply s op).1 where
  legal := h.legal.snoc rfl
  increasing := by
    rw [List.pairwise_append]
    refine ⟨h.increasing, List.pairwise_singleton _ _, fun e he e' he' => ?_⟩
    rw [List.mem_singleton.mp he']
    exact (h.called e he).2.2
  nodup := by
    rw [List.map_append, List.nodup_append]
    refine ⟨h.nodup, List.pairwise_singleton _ _, fun a ha b hb => ?_⟩
    obtain ⟨e, he, rfl⟩ := List.mem_map.mp ha
    rw [List.mem_singleton.mp hb]
    exact hnew e he
  called := fun e he => by
    rcases List.mem_append.mp he with he | he
    · have := h.called e he
      exact ⟨this.1, this.2.1, by omega⟩
    · rw [List.mem_singleton.mp he]
      exact ⟨hcall, hle, Nat.lt_succ_self _⟩
  complete := fun d hd => by
    obtain ⟨e, he, hrest⟩ := h.complete d hd
    exact ⟨e, List.mem_append_left _ he, hrest⟩

/-- One that has returns. -/
theorem Linearized.return (h : Linearized apply s₀ calls done order now s) {d : Done Ret}
    (hd : ∃ e ∈ order, e.call = d.call ∧ e.ret = d.ret ∧ e.point ≤ d.moment) :
    Linearized apply s₀ calls (done ++ [d]) order now s where
  legal := h.legal
  increasing := h.increasing
  nodup := h.nodup
  called := h.called
  complete := fun d' hd' => by
    rcases List.mem_append.mp hd' with hd' | hd'
    · exact h.complete d' hd'
    · rw [List.mem_singleton.mp hd']
      exact hd

theorem linearized_nil : Linearized apply s₀ calls [] [] 0 s₀ :=
  ⟨.nil, .nil, List.nodup_nil, nofun, nofun⟩

end Linearizable
