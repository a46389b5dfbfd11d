import Rinha.Store.Execute
import Rinha.Store.Numbering
/-!
# The commit order of a customer

Optimistic writing makes the calls on one row atomic. A read is pinned to
a place in the row's history (`Snapshot`), and a write takes effect only
where that place is still its end, so each row is at every moment the
initial row with the committed transactions applied in the order of the
writes.
-/

namespace Rinha
namespace Workers

variable {Inst Worker : Type}

/-! ## What the history says of a row -/

/-- The row a history of commits leads to. -/
def rowAfter (users₀ : Users) (row : Fin 5) (history : List (Commit Inst)) : Row :=
  (users₀ row).after applyTransaction (history.map Commit.transaction)

/-- What a read handed back is the row at some place of its history. -/
def Snapshot (users₀ : Users) (row : Fin 5) (history : List (Commit Inst)) (customer : Customer)
    (version : Int32) : Prop :=
  ∃ k ≤ history.length, (⟨customer, version⟩ : Row) = rowAfter users₀ row (history.take k)

/-- The call is in the history, and `customer` is the row just after it. -/
def Committed (users₀ : Users) (row : Fin 5) (history : List (Commit Inst)) (no : ℕ)
    (transaction : Transaction) (customer : Customer) : Prop :=
  ∃ before inst later, history = before ++ ⟨no, inst, transaction⟩ :: later ∧
    customer = (rowAfter users₀ row (before ++ [⟨no, inst, transaction⟩])).data

section History

variable {users₀ : Users} {row : Fin 5} {history : List (Commit Inst)} {e : Commit Inst}
variable {customer : Customer} {version : Int32} {no : ℕ} {transaction : Transaction}

theorem rowAfter_concat :
    rowAfter users₀ row (history ++ [e]) =
      ⟨applyTransaction (rowAfter users₀ row history).data e.transaction,
        (rowAfter users₀ row history).version + 1⟩ := by
  simp only [rowAfter, List.map_append, List.map_cons, List.map_nil]
  exact Versioned.after_concat _ _ _ _

/-- A place in the history stays one as the history grows. -/
theorem Snapshot.concat (h : Snapshot users₀ row history customer version) :
    Snapshot users₀ row (history ++ [e]) customer version := by
  obtain ⟨k, hk, hrow⟩ := h
  refine ⟨k, by simp; omega, ?_⟩
  rw [List.take_append_of_le_length hk]
  exact hrow

/-- The row itself is the last place. -/
theorem Snapshot.last :
    Snapshot users₀ row history (rowAfter users₀ row history).data
      (rowAfter users₀ row history).version :=
  ⟨history.length, Nat.le_refl _, by rw [List.take_length]⟩

/-- **A snapshot whose version is current is the row.** -/
theorem Snapshot.current (h : Snapshot users₀ row history customer version)
    (hfew : history.length < 2 ^ 32)
    (hv : (rowAfter users₀ row history).version = version) :
    (⟨customer, version⟩ : Row) = rowAfter users₀ row history := by
  obtain ⟨k, hk, hrow⟩ := h
  have hver : version = (rowAfter users₀ row (history.take k)).version :=
    congrArg Versioned.version hrow
  have hlen : k = (history.map Commit.transaction).length := by
    refine Versioned.eq_length_of_version_eq applyTransaction (users₀ row)
      (by simpa using hk) (by simpa using hfew) ?_
    rw [← List.map_take]
    exact hv.trans hver
  rw [hrow, hlen, List.length_map, List.take_length]

theorem Committed.concat (h : Committed users₀ row history no transaction customer) :
    Committed users₀ row (history ++ [e]) no transaction customer := by
  obtain ⟨before, inst, later, hh, hc⟩ := h
  exact ⟨before, inst, later ++ [e], by simp [hh], hc⟩

/-- The end of a history is committed. -/
theorem Committed.last {inst : Inst} :
    Committed users₀ row (history ++ [⟨no, inst, transaction⟩]) no transaction
      (rowAfter users₀ row (history ++ [⟨no, inst, transaction⟩])).data :=
  ⟨history, inst, [], rfl, rfl⟩

theorem Committed.mem (h : Committed users₀ row history no transaction customer) :
    no ∈ history.map Commit.no := by
  obtain ⟨before, inst, later, hh, -⟩ := h
  simp [hh]

end History

/-! ## The invariant -/

/-- What a thread holds is true of the history: a customer that was read
is a snapshot, one that is about to be written is a snapshot with the
call's transaction applied, and the call is committed exactly once it is
on its way out with success. -/
def Pc.Sound (users₀ : Users) (commits : Fin 5 → List (Commit Inst)) : Pc → Prop
  | .idle | .getting _ => True
  | .locking call | .reading call => Uncommitted commits call.no
  | .checking call customer version =>
      Uncommitted commits call.no ∧
        Snapshot users₀ call.row (commits call.row) customer version
  | .writing call customer version =>
      Uncommitted commits call.no ∧
        ∃ seen, Snapshot users₀ call.row (commits call.row) seen version ∧
          customer = applyTransaction seen call.transaction
  | .unlocking call .success customer =>
      Committed users₀ call.row (commits call.row) call.no call.transaction customer
  | .unlocking call _ _ => Uncommitted commits call.no

/-- A thread whose call is in the history is on its way out with success. -/
theorem Pc.Sound.unlocking_of_mem {users₀ : Users} {commits : Fin 5 → List (Commit Inst)} {pc : Pc}
    {call : Call} {row : Fin 5} (h : pc.Sound users₀ commits) (hcall : pc.call? = some call)
    (hmem : call.no ∈ (commits row).map Commit.no) :
    ∃ customer, pc = .unlocking call .success customer := by
  have habsent : ¬ Uncommitted commits call.no := fun hopen => hopen row hmem
  cases pc with
  | idle | getting => cases hcall
  | locking c | reading c =>
      obtain rfl := Option.some.inj hcall
      exact absurd h habsent
  | checking c | writing c =>
      obtain rfl := Option.some.inj hcall
      exact absurd h.1 habsent
  | unlocking c result customer =>
      obtain rfl := Option.some.inj hcall
      cases result with
      | success => exact ⟨customer, rfl⟩
      | limitExceeded | notFound => exact absurd h habsent

/-- The same for a call that has returned. -/
def Return.Sound (users₀ : Users) (commits : Fin 5 → List (Commit Inst)) (r : Return) : Prop :=
  match r.result with
  | .success => ∃ row customer, r.row = some row ∧ r.customer = some customer ∧
      Committed users₀ row (commits row) r.no r.transaction customer
  | _ => Uncommitted commits r.no

/-- The invariant of every interleaving. The numbering of the calls keeps
one call's commit from being taken for another's. -/
structure Inv (users₀ : Users) (s : State Inst Worker) : Prop where
  rows : ∀ row, s.users row = rowAfter users₀ row (s.commits row)
  threads : ∀ t, (s.threads t).Sound users₀ s.commits
  returns : ∀ r ∈ s.returns, r.Sound users₀ s.commits
  reads : ∀ p ∈ s.reads, ∃ version, Snapshot users₀ p.1 (s.commits p.1) p.2 version
  nodup : ∀ row, ((s.commits row).map Commit.no).Nodup
  active_lt : ∀ t call, (s.threads t).call? = some call → call.no < s.nextCall
  active_inj : ∀ t t' call call', (s.threads t).call? = some call →
    (s.threads t').call? = some call' → call.no = call'.no → t = t'
  active_open : ∀ t call, (s.threads t).call? = some call → ∀ r ∈ s.returns, r.no ≠ call.no
  returns_lt : ∀ r ∈ s.returns, r.no < s.nextCall
  commits_lt : ∀ row, ∀ e ∈ s.commits row, e.no < s.nextCall

section Preservation

variable [DecidableEq Inst] [DecidableEq Worker]
variable {users₀ : Users} {s : State Inst Worker} {t : Inst × Worker} {pc : Pc}

omit [DecidableEq Inst] [DecidableEq Worker] in
/-- Beside the numbers, what a step has to keep. -/
theorem Inv.of_numbered (hn : Numbered s)
    (rows : ∀ row, s.users row = rowAfter users₀ row (s.commits row))
    (threads : ∀ t, (s.threads t).Sound users₀ s.commits)
    (returns : ∀ r ∈ s.returns, r.Sound users₀ s.commits)
    (reads : ∀ p ∈ s.reads, ∃ version, Snapshot users₀ p.1 (s.commits p.1) p.2 version) :
    Inv users₀ s where
  rows := rows
  threads := threads
  returns := returns
  reads := reads
  nodup := hn.nodup
  active_lt := hn.active_lt
  active_inj := hn.active_inj
  active_open := hn.active_open
  returns_lt := hn.returns_lt
  commits_lt := hn.commits_lt

omit [DecidableEq Inst] [DecidableEq Worker] in
theorem inv_init (users₀ : Users) : Inv users₀ (State.init users₀ : State Inst Worker) := by
  refine .of_numbered (numbered_init users₀) (fun row => ?_) (fun t => trivial) ?_ ?_
  · simp [State.init, rowAfter]
  · simp [State.init]
  · simp [State.init]

/-- Where one thread has moved, all hold what is true if it does. -/
theorem sound_goto (h : ∀ t, (s.threads t).Sound users₀ s.commits)
    (hsound : pc.Sound users₀ s.commits) (t' : Inst × Worker) :
    ((s.goto t pc).threads t').Sound users₀ s.commits := by
  by_cases ht : t' = t
  · subst ht
    rw [goto_threads_self]
    exact hsound
  · rw [goto_threads_of_ne ht]
    exact h t'

/-- **Moving one thread.** What the new place holds is true of the history. -/
theorem Inv.goto (h : Inv users₀ s) (hn : Numbered (s.goto t pc))
    (hsound : pc.Sound users₀ s.commits) : Inv users₀ (s.goto t pc) :=
  .of_numbered hn h.rows (sound_goto h.threads hsound) h.returns h.reads

section Record

variable {commits : Fin 5 → List (Commit Inst)} {row row' : Fin 5} {e : Commit Inst}
variable {customer : Customer} {version : Int32} {no : ℕ} {transaction : Transaction}

omit [DecidableEq Inst] [DecidableEq Worker]

theorem Snapshot.record (h : Snapshot users₀ row' (commits row') customer version) :
    Snapshot users₀ row' (record commits row e row') customer version :=
  record_cases (P := fun history => Snapshot users₀ row' history customer version) h
    fun hrow => by subst hrow; exact h.concat

theorem Committed.record (h : Committed users₀ row' (commits row') no transaction customer) :
    Committed users₀ row' (record commits row e row') no transaction customer :=
  record_cases (P := fun history => Committed users₀ row' history no transaction customer) h
    fun hrow => by subst hrow; exact h.concat

theorem Pc.Sound.record (h : pc.Sound users₀ commits)
    (hne : ∀ call, pc.call? = some call → call.no ≠ e.no) :
    pc.Sound users₀ (record commits row e) := by
  cases pc with
  | idle => trivial
  | getting => trivial
  | locking call => exact Uncommitted.record h (hne call rfl)
  | reading call => exact Uncommitted.record h (hne call rfl)
  | checking call customer version => exact ⟨h.1.record (hne call rfl), h.2.record⟩
  | writing call customer version =>
      obtain ⟨hopen, seen, hseen, hc⟩ := h
      exact ⟨hopen.record (hne call rfl), seen, hseen.record, hc⟩
  | unlocking call result customer =>
      cases result with
      | success => exact Committed.record h
      | limitExceeded => exact Uncommitted.record h (hne call rfl)
      | notFound => exact Uncommitted.record h (hne call rfl)

theorem Return.Sound.record {r : Return} (h : r.Sound users₀ commits) (hne : r.no ≠ e.no) :
    r.Sound users₀ (record commits row e) := by
  unfold Return.Sound at h ⊢
  split at h
  · obtain ⟨row, customer, hr, hc, hcom⟩ := h
    exact ⟨row, customer, hr, hc, hcom.record⟩
  · exact Uncommitted.record h hne

end Record

/-- **The write.** The version it names is the row's, so what it read is
the row, and what it leaves is the row with its transaction applied. -/
theorem Inv.write {call : Call} {customer : Customer} {version : Int32} (h : Inv users₀ s)
    (hn : Numbered s) (hpc : s.threads t = .writing call customer version)
    (hv : (s.users call.row).version = version)
    (hfew : (s.commits call.row).length < 2 ^ 32) :
    Inv users₀ ((s.commit t.1 call
      (Function.update s.users call.row ⟨customer, version + 1⟩)).goto t
        (.unlocking call .success customer)) := by
  have hsound := h.threads t
  rw [hpc] at hsound
  obtain ⟨hopen, seen, hseen, hcust⟩ := hsound
  -- the version still matches, so the snapshot is the row as it is now
  have hnow : (⟨seen, version⟩ : Row) = rowAfter users₀ call.row (s.commits call.row) :=
    hseen.current hfew (by rw [← h.rows]; exact hv)
  have hrow : (⟨customer, version + 1⟩ : Row) =
      rowAfter users₀ call.row (s.commits call.row ++ [⟨call.no, t.1, call.transaction⟩]) := by
    rw [rowAfter_concat, ← hnow, hcust]
  have hcall : (s.threads t).call? = some call := by rw [hpc]; rfl
  have hne : ∀ t' call', t' ≠ t → (s.threads t').call? = some call' → call'.no ≠ call.no :=
    fun t' call' ht hc hno => ht (h.active_inj t' t call' call hc hcall hno)
  refine .of_numbered (hn.write hpc _) ?rows ?threads ?returns ?reads
  case rows =>
    intro row
    change Function.update s.users call.row ⟨customer, version + 1⟩ row =
      rowAfter users₀ row (record s.commits call.row ⟨call.no, t.1, call.transaction⟩ row)
    by_cases hr : row = call.row
    · subst hr
      simpa [record] using hrow
    · simpa [record, hr] using h.rows row
  case threads =>
    intro t'
    by_cases ht : t' = t
    · subst ht
      rw [goto_threads_self]
      change Committed users₀ call.row
        (record s.commits call.row ⟨call.no, t'.1, call.transaction⟩ call.row) _ _ _
      have hdata : customer = (rowAfter users₀ call.row
          (s.commits call.row ++ [⟨call.no, t'.1, call.transaction⟩])).data :=
        congrArg Versioned.data hrow
      rw [record, Function.update_self, hdata]
      exact Committed.last
    · rw [goto_threads_of_ne ht]
      exact (h.threads t').record fun call' hc => hne t' call' ht hc
  case returns =>
    exact fun r hr => (h.returns r hr).record (h.active_open t call hcall r hr)
  case reads =>
    intro p hp
    obtain ⟨version, hsnap⟩ := h.reads p hp
    exact ⟨version, hsnap.record⟩

omit [DecidableEq Inst] [DecidableEq Worker] in
/-- What a call that returns leaves is true of the history. -/
theorem returns_concat {r : Return} (h : ∀ r ∈ s.returns, r.Sound users₀ s.commits)
    (hr : r.Sound users₀ s.commits) : ∀ r' ∈ s.returns ++ [r], r'.Sound users₀ s.commits := by
  intro r' hr'
  rcases List.mem_append.mp hr' with hr' | hr'
  · exact h r' hr'
  · rw [List.mem_singleton.mp hr']
    exact hr

/-- **Every step keeps the invariant**, while the versions of a row are
all different. -/
theorem inv_stepped {s' : State Inst Worker} (h : Inv users₀ s) (hn : Numbered s)
    (hs : Stepped s s') (hfew : ∀ row, (s.commits row).length < 2 ^ 32) : Inv users₀ s' := by
  have hn' := numbered_stepped hn hs
  -- the mutexes and the count of failed writes are not part of it
  cases hs with
  | refused transaction =>
      exact .of_numbered hn' h.rows h.threads (returns_concat h.returns hn.uncommitted_nextCall)
        h.reads
  | entered t row transaction _ =>
      exact .of_numbered hn' h.rows (sound_goto h.threads hn.uncommitted_nextCall) h.returns h.reads
  | missed => exact h
  | asked t row _ => exact h.goto hn' trivial
  | locked t call hpc _ =>
      have hsound := h.threads t
      rw [hpc] at hsound
      have hbase : Inv users₀ (s.setMutex t.1 call.row (some t.2)) := { h with }
      exact hbase.goto hn' hsound
  | read t call hpc =>
      have hsound := h.threads t
      rw [hpc] at hsound
      refine h.goto hn' ⟨hsound, ?_⟩
      rw [h.rows]
      exact Snapshot.last
  | overLimit t call customer version hpc _ =>
      have hsound := h.threads t
      rw [hpc] at hsound
      exact h.goto hn' hsound.1
  | underLimit t call customer version hpc _ =>
      have hsound := h.threads t
      rw [hpc] at hsound
      exact h.goto hn' ⟨hsound.1, customer, hsound.2, rfl⟩
  | written t call customer version hpc hv => exact h.write hn hpc hv (hfew call.row)
  | stale t call customer version hpc _ =>
      have hsound := h.threads t
      rw [hpc] at hsound
      have hbase : Inv users₀ (s.failWrite t.1 call.row) := { h with }
      exact hbase.goto hn' hsound.1
  | unlocked t call result customer hpc =>
      have hsound := h.threads t
      rw [hpc] at hsound
      have hreturn : Return.Sound users₀ s.commits
          ⟨call.no, some call.row, call.transaction, result, some customer⟩ := by
        cases result with
        | success => exact ⟨call.row, customer, rfl, rfl, hsound⟩
        | limitExceeded => exact hsound
        | notFound => exact hsound
      exact .of_numbered hn' h.rows (sound_goto h.threads trivial)
        (returns_concat h.returns hreturn) h.reads
  | got t row hpc =>
      refine .of_numbered hn' h.rows (sound_goto h.threads trivial) h.returns fun p hp => ?_
      rcases List.mem_append.mp hp with hp | hp
      · exact h.reads p hp
      · rw [List.mem_singleton.mp hp, h.rows]
        exact ⟨_, Snapshot.last⟩

/-! ## Every interleaving -/

/-- Histories only grow. -/
theorem commits_grow {s' : State Inst Worker} (hs : Stepped s s') (row : Fin 5) :
    s.commits row <+: s'.commits row := by
  cases hs with
  | written t call customer version hpc hv =>
      exact record_cases (P := fun history => s.commits row <+: history) (List.prefix_refl _)
        fun hrow => by subst hrow; exact List.prefix_append _ _
  | _ => exact List.prefix_refl _

/-- **The invariant of every reachable state** with fewer commits on each
row than there are versions. -/
theorem inv_of_reachable (h : Reachable users₀ s)
    (hfew : ∀ row, (s.commits row).length < 2 ^ 32) : Inv users₀ s := by
  have hboth : Inv users₀ s ∧ Numbered s := by
    refine Lts.Reachable.invariant_of_bound h (I := fun s => Inv users₀ s ∧ Numbered s)
      (B := fun s => ∀ row, (s.commits row).length < 2 ^ 32)
      ⟨inv_init users₀, numbered_init users₀⟩ ?_ ?_ hfew
    · intro x a y hs hy row
      exact Nat.lt_of_le_of_lt (commits_grow (stepped_of_step hs) row).length_le (hy row)
    · intro x a y hy hx hs
      have hstepped := stepped_of_step hs
      refine ⟨inv_stepped hx.1 hx.2 hstepped fun row => ?_, numbered_stepped hx.2 hstepped⟩
      exact Nat.lt_of_le_of_lt (commits_grow hstepped row).length_le (hy row)
  exact hboth.1

end Preservation

/-- What it is for `order` to be the commit order of a row: the row is
the initial row with the order's transactions applied and counted, each
applied once to what the ones before it left, and the balance their sum; a
call that returned success is in it once and was handed the `Customer` its
own commit left, one that was refused is not in it, a call still running is
in it only once it has written, and a read handed back the row at some
place of it. -/
structure CommitOrder (users₀ : Users) (s : State Inst Worker) (row : Fin 5)
    (order : List (Commit Inst)) : Prop where
  version : (s.users row).version = (users₀ row).version + Int32.ofNat order.length
  version_exact : (users₀ row).version.toInt + order.length < 2 ^ 31 →
    (s.users row).version.toInt = (users₀ row).version.toInt + order.length
  data : (s.users row).data =
    (order.map Commit.transaction).foldl applyTransaction (users₀ row).data
  applied : ∀ before e later, order = before ++ e :: later →
    AppliedOnce e.transaction
      ((before.map Commit.transaction).foldl applyTransaction (users₀ row).data)
      (((before ++ [e]).map Commit.transaction).foldl applyTransaction (users₀ row).data)
  balance : (s.users row).data.balance =
    (order.map fun e => e.transaction.value).foldl (· + ·) (users₀ row).data.balance
  success : ∀ r ∈ s.returns, r.row = some row → r.result = .success →
    (order.map Commit.no).count r.no = 1 ∧
      ∃ before inst later, order = before ++ ⟨r.no, inst, r.transaction⟩ :: later ∧
        r.customer = some (((before ++ [⟨r.no, inst, r.transaction⟩]).map
          Commit.transaction).foldl applyTransaction (users₀ row).data)
  refused : ∀ r ∈ s.returns, r.result ≠ .success → r.no ∉ order.map Commit.no
  running : ∀ t call, (s.threads t).call? = some call → call.no ∈ order.map Commit.no →
    ∃ customer, s.threads t = .unlocking call .success customer
  reads : ∀ customer, (row, customer) ∈ s.reads → ∃ k ≤ order.length,
    customer = ((order.take k).map Commit.transaction).foldl applyTransaction (users₀ row).data

variable [DecidableEq Inst] [DecidableEq Worker]

/-- **One commit order for each customer.** At every moment of every
interleaving, the modifying writes of a row in the order they happened
are its commit order. -/
theorem commitOrder_of_reachable {users₀ : Users} {s : State Inst Worker}
    (h : Reachable users₀ s) (hfew : ∀ row, (s.commits row).length < 2 ^ 31) (row : Fin 5) :
    CommitOrder users₀ s row (s.commits row) := by
  have hinv : Inv users₀ s :=
    inv_of_reachable h fun row => Nat.lt_trans (hfew row) (by decide)
  have hrow := hinv.rows row
  constructor
  case version =>
    rw [hrow]
    simp [rowAfter, Versioned.after]
  case version_exact =>
    intro hlt
    rw [hrow]
    simpa [rowAfter] using
      Versioned.toInt_after_version applyTransaction (users₀ row)
        ((s.commits row).map Commit.transaction) (by simpa using hlt)
  case data =>
    rw [hrow]
    rfl
  case applied =>
    intro before e later _
    rw [List.map_append, List.foldl_append]
    exact appliedOnce _ _
  case balance =>
    rw [hrow, rowAfter, Versioned.after_data, balance_foldl, List.map_map]
    rfl
  case success =>
    intro r hr hrr hres
    have hsound := hinv.returns r hr
    simp only [Return.Sound, hres] at hsound
    obtain ⟨row', customer, hr', hc, hcom⟩ := hsound
    obtain rfl : row' = row := Option.some.inj (hr'.symm.trans hrr)
    have hmem := hcom.mem
    obtain ⟨before, inst, later, horder, hcust⟩ := hcom
    exact ⟨List.count_eq_one_of_mem (hinv.nodup _) hmem, before, inst, later, horder,
      by rw [hc, hcust]; rfl⟩
  case refused =>
    intro r hr hres
    have hsound := hinv.returns r hr
    unfold Return.Sound at hsound
    split at hsound
    · contradiction
    · exact hsound row
  case running =>
    exact fun t call hcall hmem => (hinv.threads t).unlocking_of_mem hcall hmem
  case reads =>
    intro customer hr
    obtain ⟨version, k, hk, hsnap⟩ := hinv.reads _ hr
    exact ⟨k, hk, congrArg Versioned.data hsnap⟩

/-- In the race both credits are committed, the second on its second write,
and a reader sees what the first left. -/
theorem commitOrder_race : ∃ s : State Bool Unit,
    Reachable (fun row => ⟨kInitialCustomers row, 1⟩) s ∧
      (s.commits 0).map (fun e => (e.inst, e.transaction.value)) = [(false, 1), (true, 2)] ∧
      s.failedWrites true 0 = 1 ∧
      s.returns.map Return.result = [.success, .success] ∧ s.reads.length = 1 ∧
      CommitOrder (fun row => ⟨kInitialCustomers row, 1⟩) s 0 (s.commits 0) := by
  obtain ⟨s, hs, hcommits, hfail, hreturns, hreads, hfew⟩ : ∃ s : State Bool Unit,
      Lts.exec State.step (State.init fun row => ⟨kInitialCustomers row, 1⟩)
        (race ++ [.advance (false, ()), .getCustomer (false, ()) 1, .advance (false, ())] ++
          List.replicate 3 (.advance (true, ()))) = some s ∧
        (s.commits 0).map (fun e => (e.inst, e.transaction.value)) = [(false, 1), (true, 2)] ∧
        s.failedWrites true 0 = 1 ∧ s.returns.map Return.result = [.success, .success] ∧
        s.reads.length = 1 ∧ ∀ row, (s.commits row).length < 2 ^ 31 :=
    ⟨_, rfl, by decide, by decide, by decide, by decide, by decide⟩
  have hreach := Lts.reachable_of_exec hs
  exact ⟨s, hreach, hcommits, hfail, hreturns, hreads, commitOrder_of_reachable hreach hfew 0⟩

end Workers
end Rinha
