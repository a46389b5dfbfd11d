import Mathlib.Data.List.Nodup
import Rinha.Store.Model.Workers
/-!
# The numbers of the calls

A call takes a number of its own when it starts, and keeps it to its
return. So no call commits twice, and one call's commit is never taken for
another's, in every interleaving and however often the versions wrap
(`numbered_of_reachable`).
-/

namespace Rinha
namespace Workers

variable {Inst Worker : Type}

/-- The call is in no row's history. -/
def Uncommitted (commits : Fin 5 → List (Commit Inst)) (no : ℕ) : Prop :=
  ∀ row, no ∉ (commits row).map Commit.no

/-- The call a thread is in. -/
def Pc.call? : Pc → Option Call
  | .idle | .getting _ => none
  | .locking call | .reading call | .checking call _ _ | .writing call _ _
  | .unlocking call _ _ => some call

/-- The call a thread is in, up to its write. -/
def Pc.open? : Pc → Option Call
  | .idle | .getting _ | .unlocking _ _ _ => none
  | .locking call | .reading call | .checking call _ _ | .writing call _ _ => some call

theorem Pc.call?_of_open? {pc : Pc} {call : Call} (h : pc.open? = some call) :
    pc.call? = some call := by
  cases pc with
  | idle | getting | unlocking => cases h
  | locking | reading | checking | writing => exact h

/-- Every number below the next one is taken once. -/
structure Numbered (s : State Inst Worker) : Prop where
  uncommitted : ∀ t call, (s.threads t).open? = some call → Uncommitted s.commits call.no
  nodup : ∀ row, ((s.commits row).map Commit.no).Nodup
  active_lt : ∀ t call, (s.threads t).call? = some call → call.no < s.nextCall
  active_inj : ∀ t t' call call', (s.threads t).call? = some call →
    (s.threads t').call? = some call' → call.no = call'.no → t = t'
  active_open : ∀ t call, (s.threads t).call? = some call → ∀ r ∈ s.returns, r.no ≠ call.no
  returns_lt : ∀ r ∈ s.returns, r.no < s.nextCall
  commits_lt : ∀ row, ∀ e ∈ s.commits row, e.no < s.nextCall

theorem numbered_init (users : Users) : Numbered (State.init users : State Inst Worker) where
  uncommitted _ _ h := by simp [State.init, Pc.open?] at h
  nodup _ := by simp [State.init]
  active_lt _ _ h := by simp [State.init, Pc.call?] at h
  active_inj _ _ _ _ h := by simp [State.init, Pc.call?] at h
  active_open _ _ h := by simp [State.init, Pc.call?] at h
  returns_lt := by simp [State.init]
  commits_lt := by simp [State.init]

/-- A call no one is in and no one has returned from is in no history. -/
theorem Numbered.uncommitted_nextCall {s : State Inst Worker} (h : Numbered s) :
    Uncommitted s.commits s.nextCall := by
  intro row hmem
  obtain ⟨e, he, hno⟩ := List.mem_map.mp hmem
  have := h.commits_lt row e he
  omega

/-- There are no more commits than calls. -/
theorem Numbered.length_commits_le {s : State Inst Worker} (h : Numbered s) (row : Fin 5) :
    (s.commits row).length ≤ s.nextCall := by
  have hsub : (s.commits row).map Commit.no ⊆ List.range s.nextCall := by
    intro no hno
    obtain ⟨e, he, rfl⟩ := List.mem_map.mp hno
    exact List.mem_range.mpr (h.commits_lt row e he)
  simpa using (h.nodup row).length_le_of_subset hsub

/-! ## The history of a row grows -/

section Record

/-- The history of one row grows by one commit. -/
def record (commits : Fin 5 → List (Commit Inst)) (row : Fin 5) (e : Commit Inst) :
    Fin 5 → List (Commit Inst) :=
  Function.update commits row (commits row ++ [e])

variable {commits : Fin 5 → List (Commit Inst)} {row row' : Fin 5} {e : Commit Inst} {no : ℕ}

theorem record_cases {P : List (Commit Inst) → Prop} (h : P (commits row'))
    (hgrow : row' = row → P (commits row ++ [e])) : P (record commits row e row') := by
  by_cases hrow : row' = row
  · subst hrow
    simpa [record] using hgrow rfl
  · simpa [record, hrow] using h

theorem Uncommitted.record (h : Uncommitted commits no) (hne : no ≠ e.no) :
    Uncommitted (record commits row e) no := by
  intro row'
  refine record_cases (P := fun history => no ∉ history.map Commit.no) (h row') fun _ => ?_
  simpa [hne] using h row

end Record

/-! ## Every step keeps the numbers apart -/

section Preservation

variable [DecidableEq Inst] [DecidableEq Worker]
variable {s s' : State Inst Worker} {t : Inst × Worker} {pc : Pc} {call : Call}
variable {customer : Customer} {version : Int32}

@[simp] theorem goto_threads_self : (s.goto t pc).threads t = pc := by
  simp [State.goto]

theorem goto_threads_of_ne {t' : Inst × Worker} (h : t' ≠ t) :
    (s.goto t pc).threads t' = s.threads t' := by
  simp [State.goto, h]

/-- Where one thread has moved, every thread is still in the call it was. -/
theorem call?_of_goto (hcall : ∀ call, pc.call? = some call → (s.threads t).call? = some call)
    {t' : Inst × Worker} {call : Call} (hc : ((s.goto t pc).threads t').call? = some call) :
    (s.threads t').call? = some call := by
  by_cases ht : t' = t
  · subst ht
    exact hcall call (by simpa using hc)
  · rwa [goto_threads_of_ne ht] at hc

/-- **Moving one thread** on in its call, or out of it. -/
theorem Numbered.goto (h : Numbered s)
    (hcall : ∀ call, pc.call? = some call → (s.threads t).call? = some call)
    (hopen : ∀ call, pc.open? = some call → Uncommitted s.commits call.no) :
    Numbered (s.goto t pc) := by
  refine { h with
    uncommitted := fun t' call hc => ?_
    active_lt := fun t' call hc => h.active_lt t' call (call?_of_goto hcall hc)
    active_inj := fun t₁ t₂ c₁ c₂ h₁ h₂ =>
      h.active_inj t₁ t₂ c₁ c₂ (call?_of_goto hcall h₁) (call?_of_goto hcall h₂)
    active_open := fun t' call hc => h.active_open t' call (call?_of_goto hcall hc) }
  by_cases ht : t' = t
  · subst ht
    exact hopen call (by simpa using hc)
  · rw [goto_threads_of_ne ht] at hc
    exact h.uncommitted t' call hc

/-- A call that starts takes the next number. -/
theorem Numbered.enter (h : Numbered s) (row : Fin 5) (transaction : Transaction) :
    Numbered { s.goto t (.locking ⟨s.nextCall, row, transaction⟩) with
      nextCall := s.nextCall + 1 } := by
  have hother : ∀ t' call, t' ≠ t →
      ((s.goto t (.locking ⟨s.nextCall, row, transaction⟩)).threads t').call? = some call →
      (s.threads t').call? = some call ∧ call.no < s.nextCall := by
    intro t' call ht hc
    rw [goto_threads_of_ne ht] at hc
    exact ⟨hc, h.active_lt t' call hc⟩
  have hself : ∀ call,
      ((s.goto t (.locking ⟨s.nextCall, row, transaction⟩)).threads t).call? = some call →
      call.no = s.nextCall := by
    intro call hc
    rw [goto_threads_self] at hc
    rw [← Option.some.inj hc]
  constructor
  case uncommitted =>
    intro t' call hc
    change ((s.goto t (.locking ⟨s.nextCall, row, transaction⟩)).threads t').open? = some call at hc
    by_cases ht : t' = t
    · subst ht
      rw [hself call (Pc.call?_of_open? hc)]
      exact h.uncommitted_nextCall
    · rw [goto_threads_of_ne ht] at hc
      exact h.uncommitted t' call hc
  case nodup => exact h.nodup
  case active_lt =>
    intro t' call hc
    change call.no < s.nextCall + 1
    by_cases ht : t' = t
    · subst ht
      have := hself call hc
      omega
    · have := (hother t' call ht hc).2
      omega
  case active_inj =>
    intro t₁ t₂ c₁ c₂ h₁ h₂ hno
    -- the new number is above every number in flight, so no other thread has it
    by_cases ht₁ : t₁ = t <;> by_cases ht₂ : t₂ = t
    · rw [ht₁, ht₂]
    · subst ht₁
      have := hself c₁ h₁
      have := (hother t₂ c₂ ht₂ h₂).2
      omega
    · subst ht₂
      have := hself c₂ h₂
      have := (hother t₁ c₁ ht₁ h₁).2
      omega
    · exact h.active_inj t₁ t₂ c₁ c₂ (hother t₁ c₁ ht₁ h₁).1 (hother t₂ c₂ ht₂ h₂).1 hno
  case active_open =>
    intro t' call hc r hr
    by_cases ht : t' = t
    · subst ht
      have := hself call hc
      -- what has returned had a number below the one just handed out
      have := h.returns_lt r hr
      omega
    · exact h.active_open t' call (hother t' call ht hc).1 r hr
  case returns_lt => exact fun r hr => Nat.lt_succ_of_lt (h.returns_lt r hr)
  case commits_lt => exact fun row e he => Nat.lt_succ_of_lt (h.commits_lt row e he)

/-- A call that writes was in no history before. -/
theorem Numbered.write (h : Numbered s) (hpc : s.threads t = .writing call customer version)
    (users : Users) :
    Numbered ((s.commit t.1 call users).goto t (.unlocking call .success customer)) := by
  have hcall : (s.threads t).call? = some call := by rw [hpc]; rfl
  have hopen : Uncommitted s.commits call.no := h.uncommitted t call (by rw [hpc]; rfl)
  -- the write leaves the threads in place, then this one moves on in the same call
  have hback : ∀ t' call', (((s.commit t.1 call users).goto t
      (.unlocking call .success customer)).threads t').call? = some call' →
      (s.threads t').call? = some call' :=
    fun t' call' => @call?_of_goto _ _ _ _ (s.commit t.1 call users) t
      (.unlocking call .success customer) (fun c hc => hcall.trans hc) t' call'
  constructor
  case uncommitted =>
    intro t' call' hc
    by_cases ht : t' = t
    · subst ht
      rw [goto_threads_self] at hc
      cases hc
    · rw [goto_threads_of_ne ht] at hc
      have hne : call'.no ≠ call.no := fun hno =>
        ht (h.active_inj t' t call' call (Pc.call?_of_open? hc) hcall hno)
      exact (h.uncommitted t' call' hc).record hne
  case nodup =>
    intro row
    refine record_cases (P := fun history => (history.map Commit.no).Nodup) (h.nodup row)
      fun _ => ?_
    rw [List.map_append, List.nodup_append]
    refine ⟨h.nodup _, by simp, fun a ha b hb => ?_⟩
    rw [List.map_singleton, List.mem_singleton] at hb
    rw [hb]
    rintro rfl
    exact hopen _ ha
  case active_lt => exact fun t' call' hc => h.active_lt t' call' (hback t' call' hc)
  case active_inj =>
    exact fun t₁ t₂ c₁ c₂ h₁ h₂ => h.active_inj t₁ t₂ c₁ c₂ (hback t₁ c₁ h₁) (hback t₂ c₂ h₂)
  case active_open => exact fun t' call' hc => h.active_open t' call' (hback t' call' hc)
  case returns_lt => exact h.returns_lt
  case commits_lt =>
    intro row
    refine record_cases (P := fun history => ∀ e ∈ history, e.no < s.nextCall)
      (h.commits_lt row) fun _ e he => ?_
    rcases List.mem_append.mp he with he | he
    · exact h.commits_lt _ e he
    · rw [List.mem_singleton.mp he]
      exact h.active_lt t call hcall

omit [DecidableEq Inst] [DecidableEq Worker] in
/-- A call that is refused takes a number and is in no history. -/
theorem Numbered.refuse (h : Numbered s) (transaction : Transaction) :
    Numbered { s with
      nextCall := s.nextCall + 1
      returns := s.returns ++ [⟨s.nextCall, none, transaction, .notFound, none⟩] } where
  uncommitted := h.uncommitted
  nodup := h.nodup
  active_lt t call hc := Nat.lt_succ_of_lt (h.active_lt t call hc)
  active_inj := h.active_inj
  active_open := by
    intro t call hc r hr
    rcases List.mem_append.mp hr with hr | hr
    · exact h.active_open t call hc r hr
    · have := h.active_lt t call hc
      rw [List.mem_singleton.mp hr]
      exact fun hno => absurd hno (by change s.nextCall ≠ call.no; omega)
  returns_lt := by
    intro r hr
    rcases List.mem_append.mp hr with hr | hr
    · exact Nat.lt_succ_of_lt (h.returns_lt r hr)
    · rw [List.mem_singleton.mp hr]
      exact Nat.lt_succ_self _
  commits_lt row e he := Nat.lt_succ_of_lt (h.commits_lt row e he)

/-- A call that returns leaves its place to the record of returns. -/
theorem Numbered.return {result : TransactionResult} (h : Numbered s)
    (hpc : s.threads t = .unlocking call result customer) :
    Numbered { s.goto t .idle with
      returns :=
        s.returns ++ [⟨call.no, some call.row, call.transaction, result, some customer⟩] } := by
  have hcall : (s.threads t).call? = some call := by rw [hpc]; rfl
  have hidle : Numbered (s.goto t .idle) := h.goto (by simp [Pc.call?]) (by simp [Pc.open?])
  refine { hidle with active_open := ?_, returns_lt := ?_ }
  · intro t' call' hc r hr
    rcases List.mem_append.mp hr with hr | hr
    · exact hidle.active_open t' call' hc r hr
    · rw [List.mem_singleton.mp hr]
      intro hno
      by_cases ht : t' = t
      · subst ht
        simp [State.goto, Pc.call?] at hc
      · change ((s.goto t .idle).threads t').call? = some call' at hc
        rw [goto_threads_of_ne ht] at hc
        exact ht (h.active_inj t' t call' call hc hcall hno.symm)
  · intro r hr
    rcases List.mem_append.mp hr with hr | hr
    · exact h.returns_lt r hr
    · rw [List.mem_singleton.mp hr]
      exact h.active_lt t call hcall

/-- **Every step keeps the numbers apart.** -/
theorem numbered_stepped (h : Numbered s) (hs : Stepped s s') : Numbered s' := by
  cases hs with
  | refused transaction => exact h.refuse transaction
  | entered t row transaction _ => exact h.enter row transaction
  | missed => exact h
  | asked t row _ => exact h.goto (by simp [Pc.call?]) (by simp [Pc.open?])
  | locked t call hpc _ =>
      exact Numbered.goto (s := s.setMutex t.1 call.row (some t.2)) { h with }
        (fun _ hc => (congrArg Pc.call? hpc).trans hc)
        fun c hc => h.uncommitted t c ((congrArg Pc.open? hpc).trans hc)
  | read t call hpc =>
      exact h.goto (fun _ hc => (congrArg Pc.call? hpc).trans hc)
        fun c hc => h.uncommitted t c ((congrArg Pc.open? hpc).trans hc)
  | overLimit t call customer version hpc _ =>
      exact h.goto (fun _ hc => (congrArg Pc.call? hpc).trans hc) (by simp [Pc.open?])
  | underLimit t call customer version hpc _ =>
      exact h.goto (fun _ hc => (congrArg Pc.call? hpc).trans hc)
        fun c hc => h.uncommitted t c ((congrArg Pc.open? hpc).trans hc)
  | written t call customer version hpc _ => exact h.write hpc _
  | stale t call customer version hpc _ =>
      exact Numbered.goto (s := s.failWrite t.1 call.row) { h with }
        (fun _ hc => (congrArg Pc.call? hpc).trans hc)
        fun c hc => h.uncommitted t c ((congrArg Pc.open? hpc).trans hc)
  | unlocked t call result customer hpc =>
      exact Numbered.return (s := s.setMutex t.1 call.row none) { h with } hpc
  | got t row _ =>
      have hidle : Numbered (s.goto t .idle) := h.goto (by simp [Pc.call?]) (by simp [Pc.open?])
      exact { hidle with }

theorem numbered_of_reachable {users : Users} (h : Reachable users s) : Numbered s :=
  Lts.Reachable.invariant h (numbered_init users) fun hx hs =>
    numbered_stepped hx (stepped_of_step hs)

end Preservation

/-- Two instances credit one customer, and the second has to read again. -/
def race : List (Action Bool Unit) :=
  [.execute (false, ()) 1 { Transaction.zero with value := 1 },
    .execute (true, ()) 1 { Transaction.zero with value := 2 }] ++
  List.replicate 3 (.advance (false, ())) ++ List.replicate 3 (.advance (true, ())) ++
  [.advance (false, ()), .advance (true, ()), .advance (true, ())]

end Workers
end Rinha
