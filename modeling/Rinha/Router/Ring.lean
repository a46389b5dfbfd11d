import Mathlib.Algebra.Group.Nat.Defs
import Rinha.Common.RingLog
import Rinha.Router.Model.Router
/-!
# The rings of available connections

A ring against the list of everything ever put in it: `pushed` in order,
of which the first `popped` have been taken out again. The counters are
32 bits wide. Up to `2 ^ 31` they count what they should, and there the
remainder turns negative and the next index is outside the array, so no
ring lives past it.
-/

namespace Rinha
namespace Router

variable {ring ring' : Ring} {pushed : List ℕ} {popped unixFd n : ℕ}

/-! ## The counters -/

theorem ofNat_succ (n : ℕ) : Int32.ofNat n + 1 = Int32.ofNat (n + 1) :=
  (Int32.ofNat_add n 1).symm

theorem slotIndex_ofNat (h : n < 2 ^ 31) :
    slotIndex (Int32.ofNat n) = .ok (n % kMaxConnections) := by
  have hmod : (Int32.ofNat n % Int32.ofNat kMaxConnections).toInt = ((n % 1000 : ℕ) : ℤ) := by
    rw [Int32.toInt_mod, Int32.toInt_ofNat_of_lt h,
      show (Int32.ofNat kMaxConnections).toInt = 1000 from rfl,
      Int.tmod_eq_emod_of_nonneg (by omega)]
    omega
  have hneg : ¬Int32.ofNat n % Int32.ofNat kMaxConnections < 0 := by
    rw [Int32.lt_iff_toInt_lt, hmod, show (0 : Int32).toInt = 0 from rfl]
    omega
  simp only [slotIndex, if_neg hneg, Int32.toNatClampNeg, hmod, Int.toNat_natCast]
  rfl

theorem slotIndex_wrapped : slotIndex (Int32.ofNat (2 ^ 31)) = .error .outOfBounds := by
  decide +kernel

/-- The round robin goes by the parity of the count, which the wrap does
not change. -/
theorem sideOf_ofNat (n : ℕ) : sideOf (Int32.ofNat n) = if n % 2 = 0 then .one else .two := by
  have hvalue : (Int32.ofNat n).toInt = (n : ℤ).bmod (2 ^ 32) := BitVec.toInt_ofNat' n
  have hiff : Int32.ofNat n % 2 = 0 ↔ n % 2 = 0 := by
    rw [← Int32.toInt_inj, Int32.toInt_mod, hvalue, show (2 : Int32).toInt = 2 from rfl,
      show (0 : Int32).toInt = 0 from rfl, ← Int.dvd_iff_tmod_eq_zero,
      Int.bmod_def]
    split <;> omega
  simp only [sideOf, hiff]

/-- A counter is below `kMaxConnections` when its count is. -/
theorem counter_lt_iff (h : n ≤ 2 ^ 31) :
    (0 ≤ Int32.ofNat n ∧ Int32.ofNat n < Int32.ofNat kMaxConnections) ↔ n < kMaxConnections := by
  rcases Nat.lt_or_eq_of_le h with hlt | rfl
  · rw [Int32.le_iff_toInt_le, Int32.lt_iff_toInt_lt, Int32.toInt_ofNat_of_lt hlt,
      show (0 : Int32).toInt = 0 from rfl,
      show (Int32.ofNat kMaxConnections).toInt = 1000 from rfl, kMaxConnections]
    omega
  · decide +kernel

/-! ## A ring and its history -/

/-- The ring has had `pushed` put in it, and the first `popped` of them
taken out. -/
structure Ring.Follows (ring : Ring) (pushed : List ℕ) (popped : ℕ) : Prop where
  startIdx : ring.startIdx = Int32.ofNat popped
  endIdx : ring.endIdx = Int32.ofNat pushed.length
  popped_le : popped ≤ pushed.length
  length_le : pushed.length ≤ 2 ^ 31
  queue : RingLog.Queue kMaxConnections ring.slots pushed

theorem Ring.follows_blank : Ring.Follows ⟨fun _ => none, 0, 0⟩ [] 0 where
  startIdx := rfl
  endIdx := rfl
  popped_le := Nat.le_refl 0
  length_le := Nat.zero_le _
  queue := .nil

/-- A connection in the slot behind the last entry is the next entry. -/
theorem Ring.Follows.put (h : ring.Follows pushed popped) (unixFd : ℕ)
    (hlt : pushed.length < 2 ^ 31) :
    Ring.Follows { ring with
      slots := Function.update ring.slots (pushed.length % kMaxConnections) (some unixFd)
      endIdx := ring.endIdx + 1 } (pushed ++ [unixFd]) popped where
  startIdx := h.startIdx
  endIdx := by rw [List.length_append, List.length_singleton, ← ofNat_succ, ← h.endIdx]
  popped_le := by
    rw [List.length_append]
    exact Nat.le_add_right_of_le h.popped_le
  length_le := by
    rw [List.length_append, List.length_singleton]
    exact hlt
  queue := h.queue.push

/-- At start-up the index is the counter itself. -/
theorem Ring.Follows.add (h : ring.Follows pushed popped) (hlt : pushed.length < kMaxConnections) :
    (ring.add unixFd).Follows (pushed ++ [unixFd]) popped := by
  have hlen : pushed.length < 2 ^ 31 := Nat.lt_trans hlt (by decide)
  have hend : ring.endIdx.toNatClampNeg = pushed.length % kMaxConnections := by
    rw [h.endIdx, Int32.toNatClampNeg, Int32.toInt_ofNat_of_lt hlen, Int.toNat_natCast,
      Nat.mod_eq_of_lt hlt]
  rw [Ring.add, hend]
  exact h.put unixFd hlen

/-- **A push lands behind the last entry.** -/
theorem Ring.Follows.push (h : ring.Follows pushed popped) (unixFd : ℕ)
    (hlt : pushed.length < 2 ^ 31) :
    ∃ ring', ring.push unixFd = .ok ring' ∧ ring'.Follows (pushed ++ [unixFd]) popped := by
  refine ⟨_, ?_, h.put unixFd hlt⟩
  rw [Ring.push, h.endIdx, slotIndex_ofNat hlt]
  rfl

/-- What a push that succeeds has done. -/
theorem Ring.Follows.of_push (h : ring.Follows pushed popped)
    (hok : ring.push unixFd = .ok ring') : ring'.Follows (pushed ++ [unixFd]) popped := by
  rcases Nat.lt_or_eq_of_le h.length_le with hlt | heq
  · obtain ⟨r, hr, hfollows⟩ := h.push unixFd hlt
    obtain rfl : r = ring' := Except.ok.inj (hr.symm.trans hok)
    exact hfollows
  · rw [Ring.push, h.endIdx, heq, slotIndex_wrapped] at hok
    cases hok

/-- What the slot at `start_idx` holds, short of the wrap. -/
theorem Ring.Follows.pop_eq (h : ring.Follows pushed popped) (hlt : popped < 2 ^ 31) :
    ring.pop = .ok (ring.slots (popped % kMaxConnections),
      { ring with startIdx := ring.startIdx + 1 }) := by
  rw [Ring.pop, h.startIdx, slotIndex_ofNat hlt]
  rfl

/-- **A pop hands out the oldest entry**, while at most a lap of them wait. -/
theorem Ring.Follows.pop (h : ring.Follows pushed popped) (hlt : popped < pushed.length)
    (hlap : pushed.length ≤ popped + kMaxConnections) :
    ∃ ring', ring.pop = .ok (some pushed[popped], ring') ∧ ring'.Follows pushed (popped + 1) := by
  have hlen := h.length_le
  refine ⟨_, by rw [h.pop_eq (by omega), h.queue.slot hlt hlap], ?_⟩
  exact {
    startIdx := by rw [← ofNat_succ, ← h.startIdx]
    endIdx := h.endIdx
    popped_le := hlt
    length_le := hlen
    queue := h.queue }

/-! ## Popping a ring that is empty -/

/-- On the first lap the slot is blank. -/
theorem Ring.Follows.pop_empty_first (h : ring.Follows pushed popped)
    (hempty : popped = pushed.length) (hlap : pushed.length < kMaxConnections) :
    ring.pop = .ok (none, { ring with startIdx := ring.startIdx + 1 }) := by
  rw [h.pop_eq (by rw [hempty]; unfold kMaxConnections at hlap; omega), hempty,
    h.queue.slot_end_first hlap]

/-- **On every later lap the slot still holds** what was put there one lap
ago, and was taken out since. -/
theorem Ring.Follows.pop_empty_later (h : ring.Follows pushed popped)
    (hempty : popped = pushed.length) (hlap : kMaxConnections ≤ pushed.length)
    (hlt : pushed.length < 2 ^ 31) :
    ∃ stale ∈ pushed, ring.pop = .ok (some stale, { ring with startIdx := ring.startIdx + 1 }) := by
  have hpos : 0 < kMaxConnections := by decide
  refine ⟨pushed.get ⟨pushed.length - kMaxConnections, by omega⟩, List.getElem_mem _, ?_⟩
  rw [h.pop_eq (hempty ▸ hlt), hempty, h.queue.slot_end_later hpos hlap]

/-- At the wrap the index is negative. -/
theorem Ring.Follows.pop_wrapped (h : ring.Follows pushed popped) (hwrap : popped = 2 ^ 31) :
    ring.pop = .error .outOfBounds := by
  rw [Ring.pop, h.startIdx, hwrap, slotIndex_wrapped]
  rfl

end Router
end Rinha
