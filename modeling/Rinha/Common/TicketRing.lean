import Rinha.Common.RingLog
/-!
# A ring shared by tickets

Entry `n` of a log goes to slot `n % k` of `k` slots. Whoever adds an entry
takes its number first, as a ticket, and writes the slot later; whoever
takes one out takes a number too, and reads the slot later. Between the two
others come and go, so entries are written and read in any order.

`Holds` says what is in the slots all the same: `pending` are the numbers
that are not written yet, `unread` those not read. An entry is written in
time when the one a lap before has been read (`Holds.write`), and read in
time when it has been written (`Holds.slot_of_unread`).
-/

namespace TicketRing

variable {α : Type*} {k n : ℕ} {slots : ℕ → Option α} {log : List α} {pending unread : ℕ → Prop}

/-- What the slots hold, where every access was in time. -/
structure Holds (k : ℕ) (slots : ℕ → Option α) (log : List α) (pending unread : ℕ → Prop) :
    Prop where
  slot : ∀ n (h : n < log.length), ¬pending n → (n + k < log.length → pending (n + k)) →
    slots (n % k) = some log[n]
  blank : ∀ i < k, (i < log.length → pending i) → slots i = none
  lap : ∀ n, n + k < log.length → ¬pending (n + k) → ¬unread n
  pending_lt : ∀ n, pending n → n < log.length
  unread_of_pending : ∀ n, pending n → unread n

/-- **What is written was preceded by what has been read**, all the laps
before. -/
theorem Holds.read_of_written (h : Holds k slots log pending unread) (j : ℕ)
    (hn : n + (j + 1) * k < log.length) (hwritten : ¬pending (n + (j + 1) * k)) : ¬unread n := by
  induction j generalizing n with
  | zero =>
      rw [Nat.zero_add, Nat.one_mul] at hn hwritten
      exact h.lap n hn hwritten
  | succ j ih =>
      have hshift : n + (j + 1 + 1) * k = n + k + (j + 1) * k := by
        rw [Nat.add_one_mul (j + 1) k]
        omega
      rw [hshift] at hn hwritten
      have hread := ih hn hwritten
      exact h.lap n (by omega) fun hpending => hread (h.unread_of_pending _ hpending)

/-- Two numbers of one slot are laps apart. -/
theorem exists_laps {m n : ℕ} (hlt : m < n) (hmod : m % k = n % k) :
    ∃ j, n = m + (j + 1) * k := by
  obtain ⟨d, hd⟩ : k ∣ n - m :=
    Nat.dvd_of_mod_eq_zero (Nat.sub_mod_eq_zero_of_mod_eq hmod.symm)
  cases d with
  | zero => omega
  | succ j =>
      refine ⟨j, ?_⟩
      rw [Nat.mul_comm]
      omega

/-- **An entry that waits to be read is in its slot.** -/
theorem Holds.slot_of_unread (h : Holds k slots log pending unread) (hn : n < log.length)
    (hwritten : ¬pending n) (hunread : unread n) : slots (n % k) = some log[n] := by
  refine h.slot n hn hwritten fun hlap => ?_
  by_contra hnext
  exact h.lap n hlap hnext hunread

/-- **A slot whose first entry is written** has an entry. -/
theorem Holds.exists_entry (h : Holds k slots log pending unread) {i : ℕ} (hi : i < k)
    (hlt : i < log.length) (hwritten : ¬pending i) :
    ∃ m, ∃ hm : m < log.length, m % k = i ∧ ¬pending m ∧ slots i = some log[m] := by
  -- from the first entry on, some entry is written and the next is not
  have hlast : ∀ m (hm : m < log.length), m % k = i → ¬pending m →
      ∃ m, ∃ hm : m < log.length, m % k = i ∧ ¬pending m ∧ slots i = some log[m] := by
    intro m
    induction hd : log.length - m using Nat.strongRecOn generalizing m with
    | ind d ih =>
        intro hm hmod hwritten
        by_cases hnext : m + k < log.length → pending (m + k)
        · exact ⟨m, hm, hmod, hwritten, hmod ▸ h.slot m hm hwritten hnext⟩
        · push Not at hnext
          exact ih (log.length - (m + k)) (by omega) (m + k) rfl hnext.1
            (by rw [Nat.add_mod_right, hmod]) hnext.2
  exact hlast i hlt (Nat.mod_eq_of_lt hi) hwritten

/-- **A slot is blank** until its first entry is written. -/
theorem Holds.eq_none_iff (h : Holds k slots log pending unread) {i : ℕ} (hi : i < k) :
    slots i = none ↔ (i < log.length → pending i) := by
  refine ⟨fun hnone hlt => ?_, h.blank i hi⟩
  by_contra hwritten
  obtain ⟨m, hm, -, -, hentry⟩ := h.exists_entry hi hlt hwritten
  rw [hnone] at hentry
  cases hentry

/-- Nothing but entries is in the slots. -/
theorem Holds.mem_of_slot (h : Holds k slots log pending unread) {i : ℕ} {x : α} (hi : i < k)
    (hslot : slots i = some x) : x ∈ log := by
  have hsome : ¬slots i = none := by
    rw [hslot]
    nofun
  rw [h.eq_none_iff hi] at hsome
  push Not at hsome
  obtain ⟨m, hm, -, -, hentry⟩ := h.exists_entry hi hsome.1 hsome.2
  rw [hslot] at hentry
  rw [Option.some.inj hentry]
  exact List.getElem_mem hm

/-! ## Nobody on the way -/

/-- On the first lap, with nothing read. -/
theorem holds_of_queue (h : RingLog.Queue k slots log) (hlap : log.length ≤ k) :
    Holds k slots log (fun _ => False) unread where
  slot n hn _ _ := h.slot hn (by omega)
  blank i hi hpending := h.blank i (Nat.le_of_not_lt hpending) hi
  lap n hn := absurd hn (by omega)
  pending_lt _ := nofun
  unread_of_pending _ := nofun

/-- **With nothing pending the slots are those of a queue.** -/
theorem Holds.queue (h : Holds k slots log pending unread) (hnone : ∀ n, ¬pending n) :
    RingLog.Queue k slots log where
  holds n hn hlap := by
    rw [List.length_map] at hn hlap
    rw [List.getElem_map]
    exact h.slot n hn (hnone n) (fun hnext => absurd hnext (by omega))
  blank i hlen hi := h.blank i hi fun hlt => absurd hlt (by omega)

/-! ## The operations -/

/-- **A ticket is taken** for a new entry. -/
theorem Holds.reserve (h : Holds k slots log pending unread) (x : α)
    (hunread : unread log.length) :
    Holds k slots (log ++ [x]) (fun n => pending n ∨ n = log.length) unread where
  slot n hn hwritten hnext := by
    rw [List.length_append, List.length_singleton] at hn hnext
    have hold : n < log.length := by
      have : n ≠ log.length := fun heq => hwritten (.inr heq)
      omega
    rw [List.getElem_append_left hold]
    refine h.slot n hold (fun hpending => hwritten (.inl hpending)) fun hlap => ?_
    exact (hnext (by omega)).resolve_right (by omega)
  blank i hi hpending := by
    rw [List.length_append, List.length_singleton] at hpending
    refine h.blank i hi fun hlt => ?_
    exact (hpending (by omega)).resolve_right (by omega)
  lap n hlap hwritten := by
    rw [List.length_append, List.length_singleton] at hlap
    have hne : n + k ≠ log.length := fun heq => hwritten (.inr heq)
    exact h.lap n (by omega) fun hpending => hwritten (.inl hpending)
  pending_lt n hpending := by
    rw [List.length_append, List.length_singleton]
    rcases hpending with hpending | rfl
    · have := h.pending_lt n hpending
      omega
    · omega
  unread_of_pending n hpending := by
    rcases hpending with hpending | rfl
    · exact h.unread_of_pending n hpending
    · exact hunread

/-- **The slot is written**, in time: the entry a lap before has been
read. -/
theorem Holds.write (h : Holds k slots log pending unread) {c : ℕ} (hk : 0 < k)
    (hc : pending c) (htime : ∀ n, n + k = c → ¬unread n) :
    Holds k (Function.update slots (c % k) (some (log.get ⟨c, h.pending_lt c hc⟩))) log
      (fun n => pending n ∧ n ≠ c) unread := by
  have hlt := h.pending_lt c hc
  -- every entry of the slot before this one has been read
  have hbefore : ∀ n, n < c → n % k = c % k → ¬unread n := by
    intro n hn hmod
    obtain ⟨j, hj⟩ := exists_laps hn hmod
    have hlast : ¬unread (n + j * k) := htime _ (by rw [hj, Nat.add_one_mul]; omega)
    cases j with
    | zero => simpa using hlast
    | succ j =>
        have hle : n + (j + 1) * k < c := by
          rw [hj, Nat.add_one_mul (j + 1) k]
          omega
        exact h.read_of_written j (by omega) fun hpending =>
          hlast (h.unread_of_pending _ hpending)
  constructor
  case slot =>
    intro n hn hwritten hnext
    by_cases hself : n = c
    · subst hself
      rw [Function.update_self]
      rfl
    · have hold : ¬pending n := fun hpending => hwritten ⟨hpending, hself⟩
      have hmod : n % k ≠ c % k := by
        intro hmod
        rcases Nat.lt_or_gt_of_ne hself with hbelow | habove
        · obtain ⟨j, hj⟩ := exists_laps hbelow hmod
          have hle : n + k ≤ c := by
            rw [hj, Nat.add_one_mul]
            omega
          obtain ⟨hpending, hne⟩ := hnext (by omega)
          exact hbefore (n + k) (by omega) (by rw [Nat.add_mod_right, hmod])
            (h.unread_of_pending _ hpending)
        · obtain ⟨j, rfl⟩ := exists_laps habove hmod.symm
          exact h.read_of_written j hn hold (h.unread_of_pending c hc)
      rw [Function.update_of_ne hmod]
      exact h.slot n hn hold fun hlap => (hnext hlap).1
  case blank =>
    intro i hi hpending
    have hne : i ≠ c % k := by
      rintro rfl
      have hle := Nat.mod_le c k
      obtain ⟨hfirst, hself⟩ := hpending (by omega)
      exact hbefore (c % k) (by omega) (Nat.mod_mod c k) (h.unread_of_pending _ hfirst)
    rw [Function.update_of_ne hne]
    exact h.blank i hi fun hi => (hpending hi).1
  case lap =>
    intro n hlap hwritten
    by_cases hself : n + k = c
    · exact htime n hself
    · exact h.lap n hlap fun hpending => hwritten ⟨hpending, hself⟩
  case pending_lt => exact fun n hpending => h.pending_lt n hpending.1
  case unread_of_pending => exact fun n hpending => h.unread_of_pending n hpending.1

/-- **The slot is read**, in time: it has been written. -/
theorem Holds.read (h : Holds k slots log pending unread) (hwritten : ¬pending n) :
    Holds k slots log pending fun m => unread m ∧ m ≠ n where
  slot := h.slot
  blank := h.blank
  lap m hlap hnext hunread := h.lap m hlap hnext hunread.1
  pending_lt := h.pending_lt
  unread_of_pending m hpending :=
    ⟨h.unread_of_pending m hpending, fun heq => hwritten (heq ▸ hpending)⟩

end TicketRing
