import Mathlib.Algebra.BigOperators.Group.Finset.Basic
/-!
# Threads that move one at a time, and their lock

Two laws of a family of threads of which one moves. What they have together
changes by what the one had and what it has then, whatever is counted. And
a lock records who is in the section it guards: the one who enters a free
lock, until that one leaves.
-/

namespace Threads

variable {ι α M : Type*} [DecidableEq ι] {i j : ι}

/-- **One thread moves**, and the others have what they had. -/
theorem sum_update [AddCommMonoid M] {threads : Finset ι} (hi : i ∈ threads) (f : α → M)
    (g : ι → α) (a : α) :
    ∑ j ∈ threads, f (Function.update g i a j) + f (g i) = ∑ j ∈ threads, f (g j) + f a := by
  have hothers : ∑ j ∈ threads.erase i, f (Function.update g i a j) =
      ∑ j ∈ threads.erase i, f (g j) :=
    Finset.sum_congr rfl fun j hj => by
      rw [Function.update_of_ne (Finset.ne_of_mem_erase hj)]
  rw [← Finset.sum_erase_add threads _ hi, ← Finset.sum_erase_add threads _ hi, hothers,
    Function.update_self, add_assoc, add_assoc, add_comm (f a)]

/-- The lock names the thread inside, and no one while there is none. -/
def Exclusive (holder : Option ι) (inside : ι → Bool) : Prop :=
  ∀ i, inside i = true ↔ holder = some i

namespace Exclusive

variable {holder : Option ι} {inside : ι → Bool}

omit [DecidableEq ι] in
/-- **Mutual exclusion.** -/
theorem eq (h : Exclusive holder inside) (hi : inside i = true) (hj : inside j = true) : i = j :=
  Option.some.inj (((h i).mp hi).symm.trans ((h j).mp hj))

omit [DecidableEq ι] in
theorem free (h : Exclusive holder inside) (hnone : ∀ i, inside i = false) : holder = none := by
  cases hholder : holder with
  | none => rfl
  | some i =>
      have hin := (h i).mpr hholder
      rw [hnone i] at hin
      cases hin

/-- A thread takes the lock, which is free. -/
theorem enter (h : Exclusive holder inside) (hfree : holder = none) :
    Exclusive (some i) (Function.update inside i true) := by
  intro j
  by_cases hij : j = i
  · subst hij
    simp
  · rw [Function.update_of_ne hij, h j, hfree]
    simp [Ne.symm hij]

/-- The thread inside leaves. -/
theorem leave (h : Exclusive holder inside) (hi : inside i = true) :
    Exclusive none (Function.update inside i false) := by
  intro j
  by_cases hij : j = i
  · subst hij
    simp
  · rw [Function.update_of_ne hij]
    constructor
    · intro hj
      exact absurd (h.eq hj hi) hij
    · nofun

/-- A thread moves and is where it was, in or out. -/
theorem stay {b : Bool} (h : Exclusive holder inside) (hi : b = inside i) :
    Exclusive holder (Function.update inside i b) := by
  rw [hi, Function.update_eq_self]
  exact h

end Exclusive

end Threads
