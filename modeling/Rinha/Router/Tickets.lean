import Rinha.Common.TicketRing
import Rinha.Router.Model.Threads
import Rinha.Router.Orderly
/-!
# The rings under tickets

What the two rings hold while threads are on their way to a slot: each has
its number in the ring, and nobody else has (`Rings`). A ticket is taken, a
slot read, a connection given a number, a slot written, and each in time
keeps it.
-/

namespace Rinha
namespace Router

open TicketRing

/-! ## Who is on the way to a slot -/

/-- A thread is on the way to slot `n` of the ring. -/
def Bound (tickets : ℕ → Option (Side × ℕ)) (side : Side) (n : ℕ) : Prop :=
  ∃ fd, tickets fd = some (side, n)

/-- Each ticket is one thread's. -/
def Apart (tickets : ℕ → Option (Side × ℕ)) : Prop :=
  ∀ fd other ticket, tickets fd = some ticket → tickets other = some ticket → fd = other

variable {tickets : ℕ → Option (Side × ℕ)} {side side' : Side} {fd n m : ℕ}

theorem bound_update_some (hnone : tickets fd = none) (side side' : Side) (n m : ℕ) :
    Bound (Function.update tickets fd (some (side, n))) side' m ↔
      Bound tickets side' m ∨ side' = side ∧ m = n := by
  constructor
  · rintro ⟨other, hother⟩
    by_cases heq : other = fd
    · subst heq
      rw [Function.update_self] at hother
      cases hother
      exact .inr ⟨rfl, rfl⟩
    · rw [Function.update_of_ne heq] at hother
      exact .inl ⟨other, hother⟩
  · rintro (⟨other, hother⟩ | ⟨rfl, rfl⟩)
    · have heq : other ≠ fd := by
        rintro rfl
        rw [hnone] at hother
        cases hother
      exact ⟨other, by rw [Function.update_of_ne heq]; exact hother⟩
    · exact ⟨fd, Function.update_self _ _ _⟩

theorem bound_update_none (hfd : tickets fd = some (side, n)) (hapart : Apart tickets)
    (side' : Side) (m : ℕ) :
    Bound (Function.update tickets fd none) side' m ↔
      Bound tickets side' m ∧ ¬(side' = side ∧ m = n) := by
  constructor
  · rintro ⟨other, hother⟩
    have heq : other ≠ fd := by
      rintro rfl
      rw [Function.update_self] at hother
      cases hother
    rw [Function.update_of_ne heq] at hother
    refine ⟨⟨other, hother⟩, ?_⟩
    rintro ⟨rfl, rfl⟩
    exact heq (hapart _ _ _ hother hfd)
  · rintro ⟨⟨other, hother⟩, hne⟩
    have heq : other ≠ fd := by
      rintro rfl
      rw [hfd] at hother
      cases hother
      exact hne ⟨rfl, rfl⟩
    exact ⟨other, by rw [Function.update_of_ne heq]; exact hother⟩

/-- A ticket nobody has keeps them apart. -/
theorem Apart.update_some (h : Apart tickets) (hnew : ¬Bound tickets side n) :
    Apart (Function.update tickets fd (some (side, n))) := by
  intro x y ticket hx hy
  by_cases hxf : x = fd <;> by_cases hyf : y = fd
  · rw [hxf, hyf]
  · subst hxf
    rw [Function.update_self] at hx
    rw [Function.update_of_ne hyf, ← hx] at hy
    exact absurd ⟨y, hy⟩ hnew
  · subst hyf
    rw [Function.update_self] at hy
    rw [Function.update_of_ne hxf, ← hy] at hx
    exact absurd ⟨x, hx⟩ hnew
  · rw [Function.update_of_ne hxf] at hx
    rw [Function.update_of_ne hyf] at hy
    exact h _ _ _ hx hy

theorem Apart.update_none (h : Apart tickets) : Apart (Function.update tickets fd none) := by
  intro x y ticket hx hy
  by_cases hxf : x = fd
  · subst hxf
    rw [Function.update_self] at hx
    cases hx
  · by_cases hyf : y = fd
    · subst hyf
      rw [Function.update_self] at hy
      cases hy
    · rw [Function.update_of_ne hxf] at hx
      rw [Function.update_of_ne hyf] at hy
      exact h _ _ _ hx hy

/-! ## The rings -/

/-- The rings with this history, and the threads on the way to read and to
write their slots. -/
structure Rings (g : History) (available : Side → Ring) (takes returns : ℕ → Option (Side × ℕ)) :
    Prop where
  startIdx : ∀ side, (available side).startIdx = Int32.ofNat (g.popped side)
  endIdx : ∀ side, (available side).endIdx = Int32.ofNat (g.pushed side).length
  popped_le : ∀ side, g.popped side ≤ (g.pushed side).length
  length_le : ∀ side, (g.pushed side).length ≤ 2 ^ 31
  holds : ∀ side, Holds kMaxConnections (available side).slots (g.pushed side)
    (Bound returns side) fun n => g.popped side ≤ n ∨ Bound takes side n
  takes_lt : ∀ side n, Bound takes side n → n < g.popped side
  takes_apart : Apart takes
  returns_apart : Apart returns

variable {g : History} {available : Side → Ring} {takes returns : ℕ → Option (Side × ℕ)}

/-- A thread in a ring's slots leaves the other ring alone. -/
theorem holds_update {g' : History} {ring : Ring} {takes' returns' : ℕ → Option (Side × ℕ)}
    (h : Rings g available takes returns)
    (hring : Holds kMaxConnections ring.slots (g'.pushed side) (Bound returns' side)
      fun n => g'.popped side ≤ n ∨ Bound takes' side n)
    (hpushed : ∀ other, other ≠ side → g'.pushed other = g.pushed other)
    (hpopped : ∀ other, other ≠ side → g'.popped other = g.popped other)
    (htakes : ∀ other n, other ≠ side → (Bound takes' other n ↔ Bound takes other n))
    (hreturns : ∀ other n, other ≠ side → (Bound returns' other n ↔ Bound returns other n))
    (other : Side) :
    Holds kMaxConnections (Function.update available side ring other).slots (g'.pushed other)
      (Bound returns' other) fun n => g'.popped other ≤ n ∨ Bound takes' other n := by
  by_cases heq : other = side
  · subst heq
    rw [Function.update_self]
    exact hring
  · have hbound : Bound returns' other = Bound returns other :=
      funext fun n => propext (hreturns other n heq)
    have hunread : (fun n => g'.popped other ≤ n ∨ Bound takes' other n) =
        fun n => g.popped other ≤ n ∨ Bound takes other n :=
      funext fun n => by rw [hpopped other heq, propext (htakes other n heq)]
    rw [Function.update_of_ne heq, hbound, hunread, hpushed other heq]
    exact h.holds other

/-- **A ticket is taken**, of a window that is not empty. -/
theorem Rings.take (h : Rings g available takes returns) (hfd : takes fd = none)
    (hne : g.popped side < (g.pushed side).length) :
    Rings (g.pop side)
      (Function.update available side
        { available side with startIdx := (available side).startIdx + 1 })
      (Function.update takes fd (some (side, g.popped side))) returns := by
  have hbound := fun side' => bound_update_some hfd side side' (g.popped side)
  constructor
  case startIdx =>
    intro other
    by_cases heq : other = side
    · subst heq
      rw [Function.update_self, History.pop_popped_self, ← ofNat_succ, ← h.startIdx]
    · rw [Function.update_of_ne heq, History.pop_popped_of_ne heq]
      exact h.startIdx other
  case endIdx =>
    intro other
    by_cases heq : other = side
    · subst heq
      rw [Function.update_self]
      exact h.endIdx other
    · rw [Function.update_of_ne heq]
      exact h.endIdx other
  case popped_le =>
    intro other
    by_cases heq : other = side
    · subst heq
      rw [History.pop_popped_self]
      exact hne
    · rw [History.pop_popped_of_ne heq]
      exact h.popped_le other
  case length_le => exact h.length_le
  case holds =>
    refine holds_update h ?_ (fun _ _ => rfl) (fun other heq => History.pop_popped_of_ne heq)
      (fun other n heq => ?_) fun _ _ _ => Iff.rfl
    · -- the one that leaves the window has a ticket instead
      have hunread : (fun n => (g.pop side).popped side ≤ n ∨
          Bound (Function.update takes fd (some (side, g.popped side))) side n) =
          fun n => g.popped side ≤ n ∨ Bound takes side n := by
        funext n
        rw [hbound, History.pop_popped_self]
        apply propext
        constructor
        · rintro (hle | hbound | ⟨-, rfl⟩)
          · exact .inl (by omega)
          · exact .inr hbound
          · exact .inl (Nat.le_refl _)
        · rintro (hle | hbound)
          · rcases Nat.lt_or_eq_of_le hle with hlt | rfl
            · exact .inl hlt
            · exact .inr (.inr ⟨rfl, rfl⟩)
          · exact .inr (.inl hbound)
      rw [hunread]
      exact h.holds side
    · rw [hbound]
      exact or_iff_left fun hsame => heq hsame.1
  case takes_lt =>
    intro other n hn
    rcases (hbound other n).mp hn with hold | ⟨rfl, rfl⟩
    · have hlt := h.takes_lt other n hold
      by_cases heq : other = side
      · subst heq
        rw [History.pop_popped_self]
        omega
      · rwa [History.pop_popped_of_ne heq]
    · rw [History.pop_popped_self]
      exact Nat.lt_succ_self _
  case takes_apart =>
    exact h.takes_apart.update_some fun hold => Nat.lt_irrefl _ (h.takes_lt _ _ hold)
  case returns_apart => exact h.returns_apart

/-- **A slot is read**, once it has been written. -/
theorem Rings.read (h : Rings g available takes returns) (hfd : takes fd = some (side, n))
    (hwritten : ¬Bound returns side n) :
    ∃ hn : n < (g.pushed side).length,
      (available side).slots (n % kMaxConnections) = some (g.pushed side)[n] ∧
      Rings g available (Function.update takes fd none) returns := by
  have hlt := h.takes_lt side n ⟨fd, hfd⟩
  have hn := Nat.lt_of_lt_of_le hlt (h.popped_le side)
  have hbound := bound_update_none hfd h.takes_apart
  refine ⟨hn, (h.holds side).slot_of_unread hn hwritten (.inr ⟨fd, hfd⟩), ?_⟩
  refine { h with
    holds := fun other => ?_
    takes_lt := fun other m hm => h.takes_lt other m ((hbound other m).mp hm).1
    takes_apart := h.takes_apart.update_none }
  by_cases heq : other = side
  · subst heq
    have hunread : (fun m => g.popped other ≤ m ∨ Bound (Function.update takes fd none) other m) =
        fun m => (g.popped other ≤ m ∨ Bound takes other m) ∧ m ≠ n := by
      funext m
      rw [hbound]
      apply propext
      constructor
      · rintro (hle | ⟨hold, hne⟩)
        · exact ⟨.inl hle, by omega⟩
        · exact ⟨.inr hold, fun hm => hne ⟨rfl, hm⟩⟩
      · rintro ⟨hle | hold, hne⟩
        · exact .inl hle
        · exact .inr ⟨hold, fun hm => hne hm.2⟩
    rw [hunread]
    exact (h.holds other).read hwritten
  · have hunread : Bound (Function.update takes fd none) other = Bound takes other :=
      funext fun m => propext ((hbound other m).trans (and_iff_left fun hsame => heq hsame.1))
    rw [hunread]
    exact h.holds other

/-- **A connection is given a number**, short of the wrap. -/
theorem Rings.give (h : Rings g available takes returns) (hfd : returns fd = none) (unixFd : ℕ)
    (hlt : (g.pushed side).length < 2 ^ 31) :
    Rings (g.push side unixFd)
      (Function.update available side { available side with endIdx := (available side).endIdx + 1 })
      takes (Function.update returns fd (some (side, (g.pushed side).length))) := by
  have hbound := fun side' => bound_update_some hfd side side' (g.pushed side).length
  constructor
  case startIdx =>
    intro other
    by_cases heq : other = side
    · subst heq
      rw [Function.update_self]
      exact h.startIdx other
    · rw [Function.update_of_ne heq]
      exact h.startIdx other
  case endIdx =>
    intro other
    by_cases heq : other = side
    · subst heq
      rw [Function.update_self, History.push_pushed_self, List.length_append,
        List.length_singleton, ← ofNat_succ, ← h.endIdx]
    · rw [Function.update_of_ne heq, History.push_pushed_of_ne heq]
      exact h.endIdx other
  case popped_le =>
    intro other
    refine (h.popped_le other).trans ?_
    by_cases heq : other = side
    · subst heq
      rw [History.push_pushed_self, List.length_append]
      exact Nat.le_add_right _ _
    · rw [History.push_pushed_of_ne heq]
  case length_le =>
    intro other
    by_cases heq : other = side
    · subst heq
      rw [History.push_pushed_self, List.length_append, List.length_singleton]
      exact hlt
    · rw [History.push_pushed_of_ne heq]
      exact h.length_le other
  case holds =>
    refine holds_update h ?_ (fun other heq => History.push_pushed_of_ne heq) (fun _ _ => rfl)
      (fun _ _ _ => Iff.rfl) fun other n heq => ?_
    · have hpending : Bound (Function.update returns fd (some (side, (g.pushed side).length)))
          side = fun n => Bound returns side n ∨ n = (g.pushed side).length := by
        funext n
        rw [hbound]
        exact propext (or_congr_right (and_iff_right rfl))
      rw [hpending, History.push_pushed_self]
      exact (h.holds side).reserve unixFd (.inl (h.popped_le side))
    · rw [hbound]
      exact or_iff_left fun hsame => heq hsame.1
  case takes_lt => exact h.takes_lt
  case takes_apart => exact h.takes_apart
  case returns_apart =>
    exact h.returns_apart.update_some fun hold =>
      Nat.lt_irrefl _ ((h.holds side).pending_lt _ hold)

/-- **A slot is written**, once what was in it has been read. -/
theorem Rings.put (h : Rings g available takes returns) (hfd : returns fd = some (side, n))
    {unixFd : ℕ} (hentry : (g.pushed side)[n]? = some unixFd)
    (htime : ∀ m, m + kMaxConnections = n → g.popped side ≤ m ∨ Bound takes side m → False) :
    Rings g
      (Function.update available side
        { available side with
          slots := Function.update (available side).slots (n % kMaxConnections) (some unixFd) })
      takes (Function.update returns fd none) := by
  have hbound := bound_update_none hfd h.returns_apart
  refine { h with
    startIdx := fun other => ?_
    endIdx := fun other => ?_
    holds := holds_update h ?_ (fun _ _ => rfl) (fun _ _ => rfl) (fun _ _ _ => Iff.rfl)
      fun other m heq => (hbound other m).trans (and_iff_left fun hsame => heq hsame.1)
    returns_apart := h.returns_apart.update_none }
  · by_cases heq : other = side
    · subst heq
      rw [Function.update_self]
      exact h.startIdx other
    · rw [Function.update_of_ne heq]
      exact h.startIdx other
  · by_cases heq : other = side
    · subst heq
      rw [Function.update_self]
      exact h.endIdx other
    · rw [Function.update_of_ne heq]
      exact h.endIdx other
  · have hpending : Bound (Function.update returns fd none) side =
        fun m => Bound returns side m ∧ m ≠ n := by
      funext m
      rw [hbound]
      exact propext (and_congr_right fun _ => not_congr (and_iff_right rfl))
    obtain ⟨hn, rfl⟩ := List.getElem?_eq_some_iff.mp hentry
    rw [hpending]
    exact (h.holds side).write (by decide) ⟨fd, hfd⟩ htime

end Router
end Rinha
