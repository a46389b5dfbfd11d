import Mathlib.Tactic.Common
/-!
# One stateful program for another

A program that may fail implements one that may not, under a relation of
their states: from related states it does not fail, returns the same and
ends in related states. The rules follow the programs' structure, so a
program written over some calls implements itself over other ones as soon
as each call does.
-/

universe u

variable {X Y ε α β γ : Type u} {R : X → Y → Prop}

/-- A program whose first part does not fail goes on from where it ends. -/
theorem Implements.bind_ok {f : StateT X (Except ε) α} {k : α → StateT X (Except ε) β} {x x' : X} {a : α}
    (h : f x = .ok (a, x')) : (f >>= k) x = k a x' := by
  change (f x >>= fun out => k out.1 out.2) = _
  rw [h]
  rfl

/-- `f` does what `g` does, on states related by `R`. -/
def Implements (R : X → Y → Prop) (f : StateT X (Except ε) α) (g : StateM Y α) : Prop :=
  ∀ x y, R x y → ∃ x', f x = .ok ((g y).1, x') ∧ R x' (g y).2

namespace Implements

variable {f : StateT X (Except ε) α} {g : StateM Y α}

theorem pure (a : α) : Implements (ε := ε) R (Pure.pure a) (Pure.pure a) := fun x _ h =>
  ⟨x, rfl, h⟩

/-- Sequences. -/
theorem bind {k : α → StateT X (Except ε) β} {k' : α → StateM Y β} (h : Implements R f g)
    (hk : ∀ a, Implements R (k a) (k' a)) : Implements R (f >>= k) (g >>= k') := by
  intro x y hxy
  obtain ⟨x', hf, hxy'⟩ := h x y hxy
  obtain ⟨x'', hk, hxy''⟩ := hk (g y).1 x' (g y).2 hxy'
  exact ⟨x'', (bind_ok hf).trans hk, hxy''⟩

/-- Branches. -/
theorem ite {c : Prop} [Decidable c] {f' : StateT X (Except ε) α} {g' : StateM Y α}
    (h : Implements R f g) (h' : Implements R f' g') :
    Implements R (if c then f else f') (if c then g else g') := by
  split
  · exact h
  · exact h'

/-- One program after the other over a list, with the results. -/
theorem mapM {f : γ → StateT X (Except ε) α} {g : γ → StateM Y α}
    (h : ∀ c, Implements R (f c) (g c)) (cs : List γ) :
    Implements R (cs.mapM f) (cs.mapM g) := by
  induction cs with
  | nil => exact pure _
  | cons c cs ih =>
      rw [List.mapM_cons, List.mapM_cons]
      exact (h c).bind fun a => ih.bind fun as => pure _

end Implements
