import Rinha.Store.Acknowledge
/-!
# Staying in step

A call that is told of an error leaves the response it was told it in, and
the client takes no further request. On a connection that stays open the
clients so keep in step up to the first error reply, and a transaction
whose read meets one loops for ever with its mutex held, however well the
store is afterwards.
-/

namespace Rinha

/-! ## Replies -/

/-- The reply has a response code other than zero. -/
def IsError (o : Outcome) : Prop :=
  ∃ code numFlds fields, o = .reply code numFlds fields ∧ code ≠ 0

/-- A reply to a read: an error, or a row whose numbers parse. -/
def ReadReply (o : Outcome) : Prop :=
  IsError o ∨ ∀ behind out, (delivered behind o out).isSome = true

/-- A reply to a write: an error, or numbers of modified rows. -/
def WriteReply (o : Outcome) : Prop := IsError o ∨ (answered o).isSome = true

/-- The server keeps both connections open and answers every request before
its time is out. -/
structure Answering (clients : Clients) : Prop where
  read : ∀ i, ReadReply (clients.readPtr.outcomes i)
  write : ∀ i, WriteReply (clients.writePtr.outcomes i)

/-- From some exchange on it is healthy, and no one else writes. -/
def EventuallyHealthy (clients : Clients) : Prop :=
  ∃ n, ∀ i, n ≤ i →
    (∀ behind out, (delivered behind (clients.readPtr.outcomes i) out).isSome = true) ∧
    answered (clients.writePtr.outcomes i) = some true

/-! ## Calls on one thread -/

/-- A call of `handler_socket.h`. A read has its out-parameters. -/
inductive HsCall
  | read (out : Customer × Int32)
  | write

/-- The clients after a call. -/
def HsCall.after (behind : Behind) (clients : Clients) : HsCall → Except Halt Clients
  | .read out => (readCustomerHs behind out.1 out.2 clients).map Prod.snd
  | .write => (writeCustomerHs clients).map Prod.snd

/-- The clients after the calls, one after the other. -/
def afterCalls (behind : Behind) : List HsCall → Clients → Except Halt Clients
  | [], clients => .ok clients
  | call :: calls, clients => do afterCalls behind calls (← call.after behind clients)

/-- The requests the calls make, of each client. -/
def readsOf (calls : List HsCall) : ℕ := calls.countP fun call => call matches .read _
def writesOf (calls : List HsCall) : ℕ := calls.countP fun call => call matches .write

/-- After the calls both clients are in step, and each call has reached the
server. -/
structure InStep (clients : Clients) (calls : List HsCall) (clients' : Clients) : Prop where
  read : clients'.readPtr.Ready
  write : clients'.writePtr.Ready
  reads : clients'.readPtr.exchanges = clients.readPtr.exchanges + readsOf calls
  writes : clients'.writePtr.exchanges = clients.writePtr.exchanges + writesOf calls

/-- The clients are in step after each call. -/
def StaysInStep (behind : Behind) (clients : Clients) (calls : List HsCall) : Prop :=
  ∀ before after, calls = before ++ after →
    ∃ clients', afterCalls behind before clients = .ok clients' ∧ InStep clients before clients'

/-- Some call of the sequence is answered with an error. Outcome `i` of the
reads and `j` of the writes come next. -/
def MeetsError (reads writes : ℕ → Outcome) : ℕ → ℕ → List HsCall → Prop
  | _, _, [] => False
  | i, j, .read _ :: calls => IsError (reads i) ∨ MeetsError reads writes (i + 1) j calls
  | i, j, .write :: calls => IsError (writes j) ∨ MeetsError reads writes i (j + 1) calls

variable {behind : Behind} {clients clients' : Clients} {o : Outcome}
variable {calls : List HsCall} {call : HsCall}

theorem IsError.broken (h : IsError o) : Broken o := .inr h

theorem delivered_of_not_error (h : ReadReply o) (hok : ¬IsError o) (behind : ℕ → ℕ → UInt8)
    (out : Customer × Int32) : ∃ out', delivered behind o out = some out' :=
  Option.isSome_iff_exists.mp (h.resolve_left hok behind out)

theorem answered_of_not_error (h : WriteReply o) (hok : ¬IsError o) :
    ∃ modified, answered o = some modified :=
  Option.isSome_iff_exists.mp (h.resolve_left hok)

/-! ## A sequence of calls -/

theorem InStep.refl (hread : clients.readPtr.Ready) (hwrite : clients.writePtr.Ready) :
    InStep clients [] clients := ⟨hread, hwrite, rfl, rfl⟩

/-- A call that meets no error keeps in step. -/
theorem HsCall.after_ok (call : HsCall) (hanswering : Answering clients)
    (hread : clients.readPtr.Ready) (hwrite : clients.writePtr.Ready)
    (hok : ¬MeetsError clients.readPtr.outcomes clients.writePtr.outcomes
      clients.readPtr.exchanges clients.writePtr.exchanges [call]) :
    ∃ clients', call.after behind clients = .ok clients' ∧ InStep clients [call] clients' ∧
      clients'.readPtr.outcomes = clients.readPtr.outcomes ∧
      clients'.writePtr.outcomes = clients.writePtr.outcomes := by
  cases call with
  | read out =>
      obtain ⟨out', hout⟩ := delivered_of_not_error (hanswering.read _) (fun h => hok (.inl h))
        (behind clients.readPtr.exchanges) out
      obtain ⟨c, hready, houts, hexch, hrun⟩ := read_of_delivered hread hout
      exact ⟨{ clients with readPtr := c }, by simp only [HsCall.after, hrun]; rfl,
        ⟨hready, hwrite, hexch, rfl⟩, houts, rfl⟩
  | write =>
      obtain ⟨modified, hmodified⟩ :=
        answered_of_not_error (hanswering.write _) fun h => hok (.inl h)
      obtain ⟨c, hready, houts, hexch, hrun⟩ := write_of_answered clients hwrite hmodified
      exact ⟨{ clients with writePtr := c }, by simp only [HsCall.after, hrun]; rfl,
        ⟨hread, hready, rfl, hexch⟩, rfl, houts⟩

/-- One that meets an error leaves its client out of step. -/
theorem HsCall.after_error (call : HsCall) (behind : Behind)
    (hread : clients.readPtr.Ready)
    (hwrite : clients.writePtr.Ready)
    (herr : MeetsError clients.readPtr.outcomes clients.writePtr.outcomes
      clients.readPtr.exchanges clients.writePtr.exchanges [call]) :
    ∃ clients', call.after behind clients = .ok clients' ∧
      ¬(clients'.readPtr.Ready ∧ clients'.writePtr.Ready) := by
  cases call with
  | read out =>
      have herr' : IsError clients.readPtr.outcome := herr.resolve_right id
      obtain ⟨c, hdead, hrun⟩ := read_of_broken behind hread herr'.broken out
      exact ⟨{ clients with readPtr := c }, by simp only [HsCall.after, hrun]; rfl,
        fun h => h.1.not_dead hdead⟩
  | write =>
      have herr' : IsError clients.writePtr.outcome := herr.resolve_right id
      obtain ⟨c, hdead, -, hrun⟩ := write_of_broken clients hwrite herr'.broken
      exact ⟨{ clients with writePtr := c }, by simp only [HsCall.after, hrun]; rfl,
        fun h => h.2.not_dead hdead⟩

theorem meetsError_cons {reads writes : ℕ → Outcome} {i j : ℕ} :
    MeetsError reads writes i j (call :: calls) ↔
      MeetsError reads writes i j [call] ∨
        MeetsError reads writes (i + readsOf [call]) (j + writesOf [call]) calls := by
  cases call with
  | read out => exact or_congr_left (or_false _).symm.to_iff
  | write => exact or_congr_left (or_false _).symm.to_iff

theorem staysInStep_cons (hread : clients.readPtr.Ready) (hwrite : clients.writePtr.Ready)
    (hafter : call.after behind clients = .ok clients') (hstep : InStep clients [call] clients') :
    StaysInStep behind clients (call :: calls) ↔ StaysInStep behind clients' calls := by
  have hrun : ∀ before,
      afterCalls behind (call :: before) clients = afterCalls behind before clients' := by
    intro before
    rw [afterCalls, hafter]
    rfl
  have hreads : ∀ before, readsOf (call :: before) = readsOf [call] + readsOf before :=
    fun before => @List.countP_append _ _ [call] before
  have hwrites : ∀ before, writesOf (call :: before) = writesOf [call] + writesOf before :=
    fun before => @List.countP_append _ _ [call] before
  constructor
  · rintro h before after rfl
    obtain ⟨clients'', hok, hin⟩ := h (call :: before) after rfl
    rw [hrun] at hok
    refine ⟨clients'', hok, hin.read, hin.write, ?_, ?_⟩
    · rw [hin.reads, hreads, hstep.reads, Nat.add_assoc]
    · rw [hin.writes, hwrites, hstep.writes, Nat.add_assoc]
  · intro h before after heq
    cases before with
    | nil => exact ⟨clients, rfl, .refl hread hwrite⟩
    | cons first before =>
        obtain ⟨rfl, hrest⟩ := List.cons.inj heq
        obtain ⟨clients'', hok, hin⟩ := h before after hrest
        refine ⟨clients'', (hrun before).trans hok, hin.read, hin.write, ?_, ?_⟩
        · rw [hin.reads, hreads, hstep.reads, Nat.add_assoc]
        · rw [hin.writes, hwrites, hstep.writes, Nat.add_assoc]

/-- **The clients keep in step** up to the first error reply. -/
theorem staysInStep_iff (hanswering : Answering clients) (hread : clients.readPtr.Ready)
    (hwrite : clients.writePtr.Ready) :
    StaysInStep behind clients calls ↔
      ¬MeetsError clients.readPtr.outcomes clients.writePtr.outcomes
        clients.readPtr.exchanges clients.writePtr.exchanges calls := by
  induction calls generalizing clients with
  | nil =>
      refine iff_of_true (fun before after h => ?_) id
      obtain ⟨rfl, -⟩ := List.append_eq_nil_iff.mp h.symm
      exact ⟨clients, rfl, .refl hread hwrite⟩
  | cons call calls ih =>
      rw [meetsError_cons]
      by_cases herr : MeetsError clients.readPtr.outcomes clients.writePtr.outcomes
        clients.readPtr.exchanges clients.writePtr.exchanges [call]
      · refine iff_of_false (fun h => ?_) (not_not_intro (.inl herr))
        obtain ⟨clients', hafter, hout⟩ := call.after_error behind hread hwrite herr
        obtain ⟨clients'', hok, hin⟩ := h [call] calls rfl
        rw [afterCalls, hafter] at hok
        cases hok
        exact hout ⟨hin.read, hin.write⟩
      · obtain ⟨clients', hafter, hstep, hreads, hwrites⟩ :=
          call.after_ok hanswering hread hwrite herr
        have hanswering' : Answering clients' :=
          ⟨fun i => hreads ▸ hanswering.read i, fun i => hwrites ▸ hanswering.write i⟩
        -- the rest of the calls starts from where this one left the clients
        rw [staysInStep_cons hread hwrite hafter hstep, ih hanswering' hstep.read hstep.write,
          hreads, hwrites, hstep.reads, hstep.writes, or_iff_right herr]

/-! ## A transaction -/

/-- Some read of the call meets an error: the attempts before it read a
customer within the limit and modified no row. Outcome `i` of the reads
and `j` of the writes come next. -/
inductive Stuck (behind : Behind) (transaction : Transaction) (version : Int32)
    (reads writes : ℕ → Outcome) : ℕ → ℕ → Customer → Prop
  | now {i j : ℕ} {customer : Customer} (herr : IsError (reads i)) :
      Stuck behind transaction version reads writes i j customer
  | later {i j : ℕ} {customer : Customer} {out : Customer × Int32}
      (hread : delivered (behind i) (reads i) (customer, version) = some out)
      (hlim : limitExceeded out.1 transaction = false) (hmissed : answered (writes j) = some false)
      (h : Stuck behind transaction version reads writes (i + 1) (j + 1)
        (applyTransaction out.1 transaction)) :
      Stuck behind transaction version reads writes i j customer

/-- The call returns, and its mutex is as free as before. -/
def ReturnsUnlocked (behind : Behind) (clients : Clients) (id : Int32)
    (transaction : Transaction) (customer : Customer) (version : Int32) (mutexes : Mutexes) :
    Prop :=
  ∃ passes result clients',
    mariaDbExecuteTransactionLocked (wireSocket behind) passes id transaction customer version
      mutexes clients = .ok ((some result, mutexes), clients')

section

variable {row : Fin 5} {transaction : Transaction} {version : Int32} {customer : Customer}
variable {id : Int32} {mutexes : Mutexes}

theorem read_of_dead (behind : Behind) (hdead : clients.readPtr.Dead)
    (out : Customer × Int32) :
    ∃ c : Hstcpcli, c.Dead ∧
      readCustomerHs behind out.1 out.2 clients =
        .ok ((false, out), { clients with readPtr := c }) := by
  obtain ⟨he, hstill⟩ := hdead.requestSend
  exact ⟨_, hstill, by simp only [readCustomerHs, he, ne_eq, not_false_eq_true, if_true]⟩

/-- With a dead reader the loop does not end. -/
theorem executeLoop_of_dead (clients : Clients) (hdead : clients.readPtr.Dead) (passes : ℕ) :
    ∃ clients', executeLoop (wireSocket behind) row transaction version passes customer clients =
      .ok (none, clients') := by
  induction passes generalizing customer clients with
  | zero => exact ⟨clients, rfl⟩
  | succ passes ih =>
      obtain ⟨c, hdead', hrun⟩ := read_of_dead behind hdead (customer, version)
      rw [executeLoop_of_retry (attempt_of_readFailed hrun)]
      exact @ih _ { clients with readPtr := c } hdead'

/-- **A read that meets an error is never got over.** -/
theorem executeLoop_of_stuck (row : Fin 5) (clients : Clients) {reads writes : ℕ → Outcome}
    {i j : ℕ}
    (h : Stuck behind transaction version reads writes i j customer)
    (hread : clients.readPtr.Ready) (hwrite : clients.writePtr.Ready)
    (hreads : clients.readPtr.outcomes = reads) (hwrites : clients.writePtr.outcomes = writes)
    (hi : clients.readPtr.exchanges = i) (hj : clients.writePtr.exchanges = j) (passes : ℕ) :
    ∃ clients', executeLoop (wireSocket behind) row transaction version passes customer clients =
      .ok (none, clients') := by
  -- along the passes that missed, to the read that meets the error
  induction h generalizing clients passes with
  | now herr =>
      cases passes with
      | zero => exact ⟨clients, rfl⟩
      | succ passes =>
          rw [← hreads, ← hi] at herr
          obtain ⟨c, hdead, hrun⟩ := read_of_broken behind hread herr.broken (_, version)
          rw [executeLoop_of_retry (attempt_of_readFailed hrun)]
          exact executeLoop_of_dead { clients with readPtr := c } hdead passes
  | later hout hlim hmissed _ ih =>
      cases passes with
      | zero => exact ⟨clients, rfl⟩
      | succ passes =>
          rw [← hreads, ← hi] at hout
          rw [← hwrites, ← hj] at hmissed
          obtain ⟨c, hready, houts, hexch, hrun⟩ := read_of_delivered hread hout
          obtain ⟨cw, hreadyw, houtsw, hexchw, hrunw⟩ :=
            write_of_answered { clients with readPtr := c } hwrite hmissed
          rw [executeLoop_of_retry (attempt_of_written hrun hlim hrunw)]
          exact ih ⟨c, cw⟩ hready hreadyw (houts.trans hreads) (houtsw.trans hwrites)
            (by rw [hexch, hi]) (by rw [hexchw, hj]) passes

/-- Where the read meets no error, an attempt ends the loop, or the write
modified no row and the clients are ready for the next one. -/
theorem attempt_of_no_error (row : Fin 5) (clients : Clients) (hanswering : Answering clients)
    (hread : clients.readPtr.Ready) (hwrite : clients.writePtr.Ready)
    (hok : ¬IsError clients.readPtr.outcome) :
    (∃ result left clients',
      attempt (wireSocket behind) row transaction customer version clients =
        .ok ((some result, left), clients')) ∨
    ∃ (out : Customer × Int32) (c cw : Hstcpcli),
      delivered (behind clients.readPtr.exchanges) clients.readPtr.outcome (customer, version) =
        some out ∧
      limitExceeded out.1 transaction = false ∧ answered clients.writePtr.outcome = some false ∧
      c.Ready ∧ c.outcomes = clients.readPtr.outcomes ∧
      c.exchanges = clients.readPtr.exchanges + 1 ∧
      cw.Ready ∧ cw.outcomes = clients.writePtr.outcomes ∧
      cw.exchanges = clients.writePtr.exchanges + 1 ∧
      attempt (wireSocket behind) row transaction customer version clients =
        .ok ((none, applyTransaction out.1 transaction), ⟨c, cw⟩) := by
  obtain ⟨out, hout⟩ := delivered_of_not_error (hanswering.read _) hok
    (behind clients.readPtr.exchanges) (customer, version)
  obtain ⟨c, hready, houts, hexch, hrun⟩ := read_of_delivered hread hout
  cases hlim : limitExceeded out.1 transaction with
  | true => exact .inl ⟨_, _, _, attempt_of_exceeded hrun hlim⟩
  | false =>
      by_cases herr : IsError clients.writePtr.outcome
      · -- told of an error, `WriteCustomerHs` reports a success
        obtain ⟨cw, -, -, hrunw⟩ :=
          write_of_broken { clients with readPtr := c } hwrite herr.broken
        exact .inl ⟨_, _, _, attempt_of_written hrun hlim hrunw⟩
      · obtain ⟨modified, hmodified⟩ := answered_of_not_error (hanswering.write _) herr
        obtain ⟨cw, hreadyw, houtsw, hexchw, hrunw⟩ :=
          write_of_answered { clients with readPtr := c } hwrite hmodified
        have hattempt : attempt (wireSocket behind) row transaction customer version clients = _ :=
          attempt_of_written hrun hlim hrunw
        cases modified with
        | true => exact .inl ⟨_, _, _, hattempt⟩
        | false =>
            exact .inr ⟨out, c, cw, hout, hlim, hmodified, hready, houts, hexch, hreadyw, houtsw,
              hexchw, hattempt⟩

/-- **Where no read does, the call returns** once the writes are confirmed:
`k` more of them may not be. -/
theorem executeLoop_returns (clients : Clients) (hanswering : Answering clients)
    (hread : clients.readPtr.Ready) (hwrite : clients.writePtr.Ready)
    (hstuck : ¬Stuck behind transaction version clients.readPtr.outcomes clients.writePtr.outcomes
      clients.readPtr.exchanges clients.writePtr.exchanges customer) (k : ℕ)
    (hhealthy : ∀ i, clients.writePtr.exchanges + k ≤ i →
      answered (clients.writePtr.outcomes i) = some true) :
    ∃ passes result clients',
      executeLoop (wireSocket behind) row transaction version passes customer clients =
        .ok (some result, clients') := by
  induction k generalizing clients customer with
  | zero =>
      rcases attempt_of_no_error row clients hanswering hread hwrite
          (fun h => hstuck (.now h)) with
        ⟨result, left, clients', hrun⟩ | ⟨-, -, -, -, -, hmissed, -⟩
      · exact ⟨1, _, _, executeLoop_of_result hrun⟩
      · have hconfirmed := hhealthy _ (Nat.le_refl _)
        rw [Nat.add_zero] at hconfirmed
        rw [Hstcpcli.outcome, hconfirmed] at hmissed
        cases hmissed
  | succ k ih =>
      rcases attempt_of_no_error row clients hanswering hread hwrite
          (fun h => hstuck (.now h)) with
        ⟨result, left, clients', hrun⟩ | ⟨out, c, cw, hout, hlim, hmissed, hready, houts, hexch,
          hreadyw, houtsw, hexchw, hrun⟩
      · exact ⟨1, _, _, executeLoop_of_result hrun⟩
      · obtain ⟨passes, result, clients', hloop⟩ := ih ⟨c, cw⟩
          ⟨fun i => houts ▸ hanswering.read i, fun i => houtsw ▸ hanswering.write i⟩ hready hreadyw
          (fun h => hstuck (.later hout hlim hmissed (by
            simpa only [houts, houtsw, hexch, hexchw] using h)))
          (fun i hi => by
            rw [houtsw]
            exact hhealthy i (by rw [hexchw] at hi; omega))
        exact ⟨passes + 1, result, clients', (executeLoop_of_retry hrun).trans hloop⟩

/-- The call with its mutex is the loop, if there is a row. -/
theorem returnsUnlocked_iff (hrow : rowIndex id = some row) (hfree : mutexes row = false) :
    ReturnsUnlocked behind clients id transaction customer version mutexes ↔
      ∃ passes result clients',
        executeLoop (wireSocket behind) row transaction version passes customer clients =
          .ok (some result, clients') := by
  -- locked and unlocked, the mutexes are what they were
  have hlock : Function.update (Function.update mutexes row true) row false = mutexes := by
    rw [Function.update_idem, ← hfree, Function.update_eq_self]
  unfold ReturnsUnlocked mariaDbExecuteTransactionLocked
  rw [hrow]
  constructor
  · rintro ⟨passes, result, clients', h⟩
    simp only [bind, StateT.bind] at h
    cases hloop :
      executeLoop (wireSocket behind) row transaction version passes customer clients with
    | error halt =>
        rw [hloop] at h
        cases h
    | ok p =>
        obtain ⟨returned, left⟩ := p
        rw [hloop] at h
        cases returned with
        | none => cases h
        | some result => exact ⟨passes, result, left, hloop⟩
  · rintro ⟨passes, result, clients', hloop⟩
    refine ⟨passes, result, clients', ?_⟩
    simp only [bind, StateT.bind, hloop, Except.bind]
    rw [hlock]
    rfl

end

/-- **Keeping in step with the server.** On connections that stay open the
clients are in step after each call of a sequence just where no call of it
is answered with an error; and with a store that is healthy in the end, a
transaction returns and frees its mutex just where none of its reads is. -/
theorem inStep_and_returns_iff (behind : Behind) (clients : Clients)
    (hanswering : Answering clients) (hread : clients.readPtr.Ready)
    (hwrite : clients.writePtr.Ready) :
    (∀ calls, StaysInStep behind clients calls ↔
      ¬MeetsError clients.readPtr.outcomes clients.writePtr.outcomes
        clients.readPtr.exchanges clients.writePtr.exchanges calls) ∧
    ∀ (id : Int32) (transaction : Transaction) (customer : Customer) (version : Int32)
      (mutexes : Mutexes), (∀ row, mutexes row = false) → EventuallyHealthy clients →
      (ReturnsUnlocked behind clients id transaction customer version mutexes ↔
        ¬((rowIndex id).isSome = true ∧
          Stuck behind transaction version clients.readPtr.outcomes clients.writePtr.outcomes
            clients.readPtr.exchanges clients.writePtr.exchanges customer)) := by
  refine ⟨fun calls => staysInStep_iff hanswering hread hwrite,
    fun id transaction customer version mutexes hfree hhealthy => ?_⟩
  cases hrow : rowIndex id with
  | none =>
      refine iff_of_true ⟨0, (.notFound, customer), clients, ?_⟩ (by simp)
      simp only [mariaDbExecuteTransactionLocked, hrow]
      rfl
  | some row =>
      rw [returnsUnlocked_iff hrow (hfree row), Option.isSome_some]
      simp only [true_and]
      constructor
      · rintro ⟨passes, result, clients', hloop⟩ hstuck
        obtain ⟨left, hnone⟩ := executeLoop_of_stuck row clients hstuck hread hwrite
          rfl rfl rfl rfl passes
        rw [hloop] at hnone
        cases hnone
      · intro hstuck
        obtain ⟨n, hn⟩ := hhealthy
        exact executeLoop_returns clients hanswering hread hwrite hstuck n
          fun i hi => (hn i (by omega)).2

/-! ## With and without an error -/

theorem not_meetsError {reads writes : ℕ → Outcome} (hreads : ∀ i, ¬IsError (reads i))
    (hwrites : ∀ i, ¬IsError (writes i)) {i j : ℕ} (calls : List HsCall) :
    ¬MeetsError reads writes i j calls := by
  induction calls generalizing i j with
  | nil => exact id
  | cons call calls ih =>
      cases call with
      | read out => exact fun h => h.elim (hreads i) ih
      | write => exact fun h => h.elim (hwrites j) ih

theorem not_stuck {transaction : Transaction} {version : Int32} {reads writes : ℕ → Outcome}
    (hreads : ∀ i, ¬IsError (reads i)) {i j : ℕ} {customer : Customer} :
    ¬Stuck behind transaction version reads writes i j customer := by
  intro h
  induction h with
  | now herr => exact hreads _ herr
  | later _ _ _ _ ih => exact ih

/-- The reply to a write that modified its row. -/
def oneModified : Outcome := .reply 0 1 [some (Text.bytes "1")]

theorem oneModified_answers : answered oneModified = some true := by decide

/-- The clients of a thread, the first read of which gets `first` and every
other request a healthy reply. -/
def freshClients (first : Outcome) : Clients where
  readPtr := openClient fun i => if i = 0 then first else rowReply
  writePtr := openClient fun _ => oneModified

theorem rowReply_delivers (behind : ℕ → ℕ → UInt8) (out : Customer × Int32) :
    (delivered behind rowReply out).isSome = true :=
  congrArg Option.isSome (delivered_rowReply behind out)

theorem not_isError_rowReply : ¬IsError rowReply := by
  rintro ⟨code, numFlds, fields, h, hcode⟩
  cases h
  exact hcode rfl

theorem answering_freshClients {first : Outcome} (h : ReadReply first) :
    Answering (freshClients first) where
  read i := by
    by_cases hi : i = 0
    · simpa [freshClients, openClient, hi] using h
    · simpa [freshClients, openClient, hi] using .inr rowReply_delivers
  write _ := .inr (congrArg Option.isSome oneModified_answers)

theorem eventuallyHealthy_freshClients (first : Outcome) :
    EventuallyHealthy (freshClients first) :=
  ⟨1, fun i hi => ⟨by
    have hne : i ≠ 0 := by omega
    simpa [freshClients, openClient, hne] using rowReply_delivers, oneModified_answers⟩⟩

/-- A debit on a healthy store. -/
theorem inStep_and_returns_debit :
    StaysInStep zeros (freshClients rowReply) [.read (initialCustomer 0, 0), .write] ∧
      ReturnsUnlocked zeros (freshClients rowReply) 1
        { Transaction.zero with value := -1 } (initialCustomer 0) 0 fun _ => false := by
  have hreads : ∀ i, ¬IsError ((freshClients rowReply).readPtr.outcomes i) := fun i => by
    simpa [freshClients, openClient] using not_isError_rowReply
  have hwrites : ∀ i, ¬IsError ((freshClients rowReply).writePtr.outcomes i) := by
    rintro i ⟨code, numFlds, fields, h, hcode⟩
    cases h
    exact hcode rfl
  have hiff := inStep_and_returns_iff zeros (freshClients rowReply)
    (answering_freshClients (.inr rowReply_delivers)) (ready_openClient _) (ready_openClient _)
  exact ⟨(hiff.1 _).mpr (not_meetsError hreads hwrites _),
    (hiff.2 1 _ _ 0 _ (fun _ => rfl) (eventuallyHealthy_freshClients _)).mpr
      fun h => not_stuck hreads h.2⟩

/-- **One error reply** to a read, and the store healthy ever after: the
reader is out of step, and the debit runs for ever with the first
customer's mutex held. -/
theorem not_returns_after_error :
    let clients := freshClients (.reply 1 1 [])
    Answering clients ∧ EventuallyHealthy clients ∧
      clients.readPtr.Ready ∧ clients.writePtr.Ready ∧
      (∃ clients', (HsCall.read (initialCustomer 0, 0)).after zeros clients = .ok clients' ∧
        clients'.readPtr.numReqRcvd = 1) ∧
      ∀ passes, ∃ clients',
        mariaDbExecuteTransactionLocked (wireSocket zeros) passes 1
            { Transaction.zero with value := -1 } (initialCustomer 0) 0 (fun _ => false) clients =
          .ok ((none, Function.update (fun _ => false) 0 true), clients') := by
  intro clients
  have herr : IsError (.reply 1 1 []) := ⟨1, 1, [], rfl, by decide⟩
  have hstuck : Stuck zeros { Transaction.zero with value := -1 } 0
      clients.readPtr.outcomes clients.writePtr.outcomes 0 0 (initialCustomer 0) := .now herr
  refine ⟨answering_freshClients (.inl herr), eventuallyHealthy_freshClients _, ready_openClient _,
    ready_openClient _, ?_, fun passes => ?_⟩
  · exact ⟨_, rfl, rfl⟩
  · obtain ⟨clients', hloop⟩ := executeLoop_of_stuck 0 clients hstuck
      (ready_openClient _) (ready_openClient _) rfl rfl rfl rfl passes
    refine ⟨clients', ?_⟩
    have hrow : rowIndex 1 = some 0 := by decide
    simp only [mariaDbExecuteTransactionLocked, hrow, bind, StateT.bind, hloop, Except.bind]
    rfl

end Rinha
