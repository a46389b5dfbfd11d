import Mathlib.Data.List.Induction
import Mathlib.Data.List.Intervals
import Mathlib.Logic.Function.Basic
import Mathlib.Tactic.Common
/-!
# A ring that keeps the last entries of a log

Entry `n` of a log is written to slot `n % k` of `k` slots. `Holds` says
the slots hold the last `k` entries, each at its own place; writing keeps
it, and reading the slots downward from the one written last gives the
last entries, newest first.

`Queue` adds that the slots no entry has reached are blank, for a ring
that is read from the other end: the slot after the last entry is blank
on the first lap, and holds the entry of one lap ago ever after.

`lastAt` reads off the log what a slot is left with, and `occupied_eq`
counts the slots that have been reached.
-/

namespace RingLog

variable {α : Type*} {k : ℕ} {slots slots' : ℕ → α} {log : List α} {x : α}

/-- The slots hold the last `k` entries of the log. -/
def Holds (k : ℕ) (slots : ℕ → α) (log : List α) : Prop :=
  ∀ j (h : j < log.length), log.length ≤ j + k → slots (j % k) = log[j]

theorem Holds.nil : Holds k slots ([] : List α) := by
  intro j h
  simp at h

/-- Two entries less than `k` apart do not share a slot. -/
theorem mod_ne_of_lt {j n : ℕ} (hlt : j < n) (hnear : n < j + k) : j % k ≠ n % k := by
  intro heq
  have hdvd : k ∣ n - j := Nat.dvd_of_mod_eq_zero (Nat.sub_mod_eq_zero_of_mod_eq heq.symm)
  have := Nat.le_of_dvd (by omega) hdvd
  omega

/-- **Writing the next entry.** The slot it goes to held an entry that is
now too old. -/
theorem Holds.push (h : Holds k slots log) (hnew : slots' (log.length % k) = x)
    (hold : ∀ i, i ≠ log.length % k → slots' i = slots i) :
    Holds k slots' (log ++ [x]) := by
  intro j hj hnear
  rw [List.length_append, List.length_singleton] at hj hnear
  rcases Nat.lt_or_ge j log.length with hlt | hge
  · rw [List.getElem_append_left hlt, hold _ (mod_ne_of_lt hlt (by omega))]
    exact h j hlt (by omega)
  · obtain rfl : j = log.length := by omega
    simpa using hnew

/-- **Reading downward from the newest entry.** -/
theorem Holds.readBack (h : Holds k slots log) {m : ℕ} (hm : m ≤ log.length) (hk : m ≤ k) :
    (List.range m).map (fun d => slots ((log.length - 1 - d) % k)) = log.reverse.take m := by
  refine List.ext_getElem (by simp [hm]) fun d hd _ => ?_
  have hdm : d < m := by simpa using hd
  rw [List.getElem_map, List.getElem_range, List.getElem_take, List.getElem_reverse]
  exact h _ (by omega) (by omega)

/-! ## Rings read from the other end -/

section Queue

variable {slots : ℕ → Option α}

/-- The slots hold the last `k` entries of the log, and nothing else. -/
structure Queue (k : ℕ) (slots : ℕ → Option α) (log : List α) : Prop where
  holds : Holds k slots (log.map some)
  blank : ∀ i, log.length ≤ i → i < k → slots i = none

theorem Queue.nil : Queue k (fun _ => none) ([] : List α) :=
  ⟨.nil, fun _ _ _ => rfl⟩

theorem Queue.push (h : Queue k slots log) :
    Queue k (Function.update slots (log.length % k) (some x)) (log ++ [x]) := by
  constructor
  · rw [List.map_append, List.map_cons, List.map_nil]
    refine h.holds.push ?_ fun i hi => ?_
    · rw [List.length_map, Function.update_self]
    · rw [List.length_map] at hi
      rw [Function.update_of_ne hi]
  · intro i hlen hi
    rw [List.length_append, List.length_singleton] at hlen
    have hmod : log.length % k = log.length := Nat.mod_eq_of_lt (by omega)
    rw [hmod, Function.update_of_ne (by omega)]
    exact h.blank i (by omega) hi

/-- An entry of the last lap is in its slot. -/
theorem Queue.slot (h : Queue k slots log) {n : ℕ} (hn : n < log.length)
    (hlap : log.length ≤ n + k) : slots (n % k) = some log[n] := by
  have hlen : (log.map some).length = log.length := List.length_map some
  rw [h.holds n (by rwa [hlen]) (by rwa [hlen]), List.getElem_map]

/-- **The slot after the last entry** is blank on the first lap. -/
theorem Queue.slot_end_first (h : Queue k slots log) (hlap : log.length < k) :
    slots (log.length % k) = none := by
  rw [Nat.mod_eq_of_lt hlap]
  exact h.blank _ (Nat.le_refl _) hlap

/-- **The slot after the last entry** holds an old one on every later lap. -/
theorem Queue.slot_end_later (h : Queue k slots log) (hk : 0 < k) (hlap : k ≤ log.length) :
    slots (log.length % k) = some (log.get ⟨log.length - k, by omega⟩) := by
  have := h.slot (n := log.length - k) (by omega) (by omega)
  rwa [← Nat.add_mod_right, Nat.sub_add_cancel hlap] at this

end Queue

/-! ## The entry a slot is left with -/

section LastAt

variable {i : ℕ}

/-- The last entry whose number leaves the remainder `i`. -/
def lastAt (k : ℕ) (log : List α) (i : ℕ) : Option α :=
  ((log.zipIdx.filter fun entry => entry.2 % k = i).getLast?).map Prod.fst

/-- A new entry is the last one of its own slot, and of no other. -/
theorem lastAt_concat : lastAt k (log ++ [x]) i =
    if log.length % k = i then some x else lastAt k log i := by
  unfold lastAt
  rw [List.zipIdx_append, List.filter_append, List.zipIdx_singleton, Nat.zero_add]
  split
  · rename_i hi
    rw [List.filter_cons_of_pos (by simpa using hi), List.filter_nil, List.getLast?_concat]
    rfl
  · rename_i hi
    rw [List.filter_cons_of_neg (by simpa using hi), List.filter_nil, List.append_nil]

/-- It is one of the last lap. -/
theorem exists_of_lastAt (hk : 0 < k) (h : lastAt k log i = some x) :
    ∃ (j : ℕ) (hj : j < log.length), log.length ≤ j + k ∧ j % k = i ∧ log[j] = x := by
  induction log using List.reverseRecOn with
  | nil => cases h
  | append_singleton log y ih =>
      rw [lastAt_concat] at h
      split at h
      · rename_i hi
        exact ⟨log.length, by simp, by simp; omega, hi, by simpa using h⟩
      · rename_i hi
        obtain ⟨j, hj, hnear, hmod, hentry⟩ := ih h
        -- an entry a lap ago was in the slot that is written now
        have hne : j + k ≠ log.length := by
          rintro hlap
          rw [← hlap, Nat.add_mod_right] at hi
          exact hi hmod
        refine ⟨j, by simp; omega, by simp; omega, hmod, ?_⟩
        rw [List.getElem_append_left hj]
        exact hentry

/-- **A ring holds the last entry of each slot.** -/
theorem Holds.eq_of_lastAt (hk : 0 < k) (h : Holds k slots log)
    (hlast : lastAt k log i = some x) : slots i = x := by
  obtain ⟨j, hj, hnear, rfl, rfl⟩ := exists_of_lastAt hk hlast
  exact h j hj hnear

/-- A slot has an entry when the log has reached it. -/
theorem isSome_lastAt (hi : i < k) : (lastAt k log i).isSome = true ↔ i < log.length := by
  induction log using List.reverseRecOn with
  | nil => simp [lastAt]
  | append_singleton log y ih =>
      rw [lastAt_concat, List.length_append, List.length_singleton]
      split
      · rename_i hmod
        have hle := Nat.mod_le log.length k
        exact iff_of_true rfl (by omega)
      · rename_i hmod
        have hne : i ≠ log.length := by
          rintro rfl
          exact hmod (Nat.mod_eq_of_lt hi)
        rw [ih]
        omega

/-- **Nothing but entries** is in the slots of a queue. -/
theorem Queue.mem_of_slot {slots : ℕ → Option α} (h : Queue k slots log) (hi : i < k)
    (hslot : slots i = some x) : x ∈ log := by
  have hlt : i < (log.map some).length := by
    rw [List.length_map]
    by_contra hge
    rw [h.blank i (Nat.le_of_not_lt hge) hi] at hslot
    cases hslot
  obtain ⟨entry, hlast⟩ := Option.isSome_iff_exists.mp ((isSome_lastAt hi).mpr hlt)
  have hk := Nat.zero_lt_of_lt hi
  obtain ⟨j, hj, -, -, hentry⟩ := exists_of_lastAt hk hlast
  rw [h.holds.eq_of_lastAt hk hlast, ← hentry] at hslot
  exact List.mem_of_getElem (by simpa using hslot)

/-- The slots that have an entry. -/
def occupied (k : ℕ) (log : List α) : ℕ :=
  (List.range k).countP fun i => (lastAt k log i).isSome

/-- **As many slots are occupied** as there are entries, up to all of them. -/
theorem occupied_eq (k : ℕ) (log : List α) : occupied k log = min log.length k := by
  have hcount : occupied k log = (List.range k).countP fun i => decide (i < log.length) :=
    List.countP_congr fun i hi => by
      rw [isSome_lastAt (List.mem_range.mp hi), decide_eq_true_eq]
  rw [hcount, List.countP_eq_length_filter, ← List.Ico.zero_bot, List.Ico.filter_lt,
    List.Ico.length, Nat.sub_zero, Nat.min_comm]

end LastAt

end RingLog
