import Rinha.Dena.Table
/-!
# From the start

`InitializeHs` makes the clients the calls run on. Where the store opens
the indices, what runs afterwards is the program on the table
(`run_of_initializeHs`). But it also succeeds where a connection ends
before the answer: the code is then negative, and only a positive one is
taken for an error. On such a client every read fails, so a transaction
is tried for ever (`initializeHs_iff`).
-/

namespace Rinha
namespace Dena

open Dena.Hstcpcli

variable {σ : Type}

/-- What a client comes to that asks a store for its index. -/
def openingOf (net : Network σ) (connection : Connection) (r : OpenIndex) (peer : σ) : Opening :=
  let out := net.exchange (openText r) peer
  opening connection (openText r) out.1 out.2.1.bytes

/-! ## A store that opens -/

/-- A store that opens an index, and answers with no rows. -/
structure Opens (answer : Reader σ) (table : σ → Fin 5 → Bytes × Int32) (pstId : ℕ)
    (idx : String) : Prop where
  taken : ∀ s, sendCount (openText (openUsers pstId idx)).length
    (answer [.openIndex (some (openUsers pstId idx))] s).1 = (openText (openUsers pstId idx)).length
  bytes : ∀ s, ∃ numFlds,
    (answer [.openIndex (some (openUsers pstId idx))] s).2.1.bytes = responses [.rows numFlds []]
  ending : ∀ s, (answer [.openIndex (some (openUsers pstId idx))] s).2.1.ending = .eagain
  table : ∀ s, table (answer [.openIndex (some (openUsers pstId idx))] s).2.2 = table s

variable {answer : Reader σ} {table : σ → Fin 5 → Bytes × Int32} {readId writeId pstId : ℕ}
variable {idx : String} {connection : Connection} {peer : σ}

/-- The answer without rows is one line, and its code is 0. -/
theorem firstLine_noRows (numFlds : UInt32) :
    firstLine (responses [.rows numFlds []]) = some (Response.rows numFlds []).line ∧
      ((responses [.rows numFlds []]).dropWhile (· ≠ newline)).tail = [] ∧
      (readLine (Response.rows numFlds []).line).code = 0 := by
  have hvalid : (Response.rows numFlds []).Valid := ⟨nofun, fun _ => rfl⟩
  have hline := newline_notMem_line hvalid
  have htext : responses [.rows numFlds []] = (Response.rows numFlds []).line ++ [newline] := by
    simp [responses]
  have hplain : ∀ x ∈ (Response.rows numFlds []).line, decide (x ≠ newline) = true := by
    intro x hx
    have hne : x ≠ newline := by
      rintro rfl
      exact hline hx
    simpa using hne
  have hread : readLine (Response.rows numFlds []).line = ⟨0, numFlds, []⟩ :=
    readLine_intercalate nofun
  refine ⟨?_, ?_, by rw [hread]⟩
  · rw [firstLine, htext, if_pos (by simp), List.takeWhile_append_of_pos hplain]
    simp
  · rw [htext, List.dropWhile_append_of_pos hplain]
    simp

/-- **An index is opened** and its client idle, on the table as it was. -/
theorem Opens.openIndex (h : Opens answer table pstId idx) (hplain : (openUsers pstId idx).Plain)
    (hfailure : connection.failure = none) (hopen : connection.fdOpen = true) (peer : σ) :
    let opened := Dena.openIndex answer.network connection.create (openUsers pstId idx) peer
    opened.1 = true ∧ opened.2.1.Idle ∧ table opened.2.2 = table peer := by
  intro opened
  have hnet : answer.network.exchange (openText (openUsers pstId idx)) peer =
      answer [.openIndex (some (openUsers pstId idx))] peer :=
    congrArg (answer · peer) (readAsked_openText hplain)
  obtain ⟨numFlds, hbytes⟩ := h.bytes peer
  obtain ⟨hfirst, hrest, hcode⟩ := firstLine_noRows numFlds
  have hspec := openIndex_spec answer.network connection (openUsers pstId idx) peer
  have hready : opening connection (openText (openUsers pstId idx))
      (answer [.openIndex (some (openUsers pstId idx))] peer).1
      (answer [.openIndex (some (openUsers pstId idx))] peer).2.1.bytes = .ready := by
    rw [opening, if_neg (by simp [hfailure, hopen]), if_neg (not_not_intro (h.taken peer)), hbytes,
      hfirst]
    simp only [hcode]
    rfl
  simp only [hnet, hready] at hspec
  obtain ⟨htrue, hpeer, hsendable, hresponse, hstream, hending⟩ := hspec
  rw [hbytes, hrest] at hstream
  rw [h.ending] at hending
  refine ⟨htrue, ⟨hsendable, hresponse, hstream, hending⟩, ?_⟩
  exact (congrArg table hpeer).trans (h.table peer)

/-- A connection that stands. -/
def standing : Connection where
  fdOpen := true
  failure := none
  memory := fun _ => 0

section Lost

variable {net : Network σ} {clients : Clients σ} {padding : ℕ → UInt8} {id : Fin 5}
variable {customer : Customer} {version : Int32} {transaction : Transaction}

/-- The client for reads has an error that no call clears. -/
def Lost (clients : Clients σ) : Prop := clients.readPtr.errorCode < 0

/-- What a call comes to where no read succeeds: no customer is found, and no
transaction on a row returns. -/
def unanswered : DbCall → DbAnswer
  | .execute id _ customer _ =>
      .executed (if rowIndex id = none then some (.notFound, customer) else none)
  | .get _ customer _ => .got false customer

/-- **A read fails**, and leaves the error. -/
theorem readCustomerHs_lost (net : Network σ) (id : Fin 5) (customer : Customer) (version : Int32)
    (h : Lost clients) : ∃ clients',
    readCustomerHs net id customer version clients = .ok ((false, customer, version), clients') ∧
      Lost clients' := by
  generalize hc : clients.readPtr.requestBufExecGeneric (findCustomer clients.readPtrId id) = c
  have herror : c.errorCode < 0 := by
    rw [← hc, requestBufExecGeneric]
    split
    · exact (by decide : (-1 : Int32) < 0)
    · exact h
  have hsend : requestSend net c clients.peer = ((c.errorCode, c), clients.peer) := by
    rw [requestSend, if_pos herror]
  have hne : c.errorCode ≠ 0 := by
    intro hzero
    rw [hzero] at herror
    exact absurd herror (by decide)
  refine ⟨{ clients with readPtr := c }, ?_, herror⟩
  simp only [readCustomerHs, hc, hsend, if_pos hne]

theorem attempt_lost (net : Network σ) (padding : ℕ → UInt8) (id : Fin 5)
    (transaction : Transaction) (customer : Customer) (version : Int32) (h : Lost clients) :
    ∃ clients',
    attempt (byteSocket net padding) id transaction customer version clients =
      .ok ((none, customer), clients') ∧ Lost clients' := by
  obtain ⟨clients', hread, hlost⟩ := readCustomerHs_lost net id customer version h
  exact ⟨clients', Implements.bind_ok hread, hlost⟩

/-- **A transaction is tried for ever.** -/
theorem executeLoop_lost (net : Network σ) (padding : ℕ → UInt8) (id : Fin 5)
    (transaction : Transaction) (customer : Customer) (version : Int32) (h : Lost clients)
    (passes : ℕ) : ∃ clients',
    executeLoop (byteSocket net padding) id transaction version passes customer clients =
      .ok (none, clients') ∧ Lost clients' := by
  induction passes generalizing clients with
  | zero => exact ⟨clients, rfl, h⟩
  | succ passes ih =>
      obtain ⟨clients', hattempt, hlost⟩ := attempt_lost net padding id transaction
        customer version h
      obtain ⟨clients'', hloop, hlost⟩ := ih hlost
      exact ⟨clients'', (Implements.bind_ok hattempt).trans hloop, hlost⟩

theorem run_lost (net : Network σ) (padding : ℕ → UInt8) (h : Lost clients) (passes : ℕ)
    (call : DbCall) : ∃ clients',
    call.run (byteSocket net padding) passes clients = .ok (unanswered call, clients') ∧
      Lost clients' := by
  cases call with
  | execute id transaction customer version =>
      cases hid : rowIndex id with
      | none =>
          refine ⟨clients, ?_, h⟩
          simp only [DbCall.run, unanswered, mariaDbExecuteTransaction, hid, if_true]
          rfl
      | some row =>
          obtain ⟨clients', hloop, hlost⟩ := executeLoop_lost net padding row transaction
            customer version h passes
          refine ⟨clients', ?_, hlost⟩
          simp only [DbCall.run, unanswered, mariaDbExecuteTransaction, hid]
          exact Implements.bind_ok hloop
  | get id customer version =>
      obtain ⟨clients', hget, hlost⟩ : ∃ clients',
          mariaDbGetCustomer (byteSocket net padding) id customer version clients =
            .ok ((false, customer), clients') ∧ Lost clients' := by
        unfold mariaDbGetCustomer
        cases rowIndex id with
        | none => exact ⟨clients, rfl, h⟩
        | some row =>
            obtain ⟨clients', hread, hlost⟩ := readCustomerHs_lost net row customer version h
            exact ⟨clients', Implements.bind_ok hread, hlost⟩
      exact ⟨clients', Implements.bind_ok hget, hlost⟩

theorem mapM_lost (h : Lost clients) (passes : ℕ) (calls : List DbCall) : ∃ clients',
    calls.mapM (DbCall.run (byteSocket net padding) passes) clients =
      .ok (calls.map unanswered, clients') := by
  induction calls generalizing clients with
  | nil => exact ⟨clients, rfl⟩
  | cons call calls ih =>
      obtain ⟨clients', hrun, hlost⟩ := run_lost net padding h passes call
      obtain ⟨clients'', hcalls⟩ := ih hlost
      refine ⟨clients'', ?_⟩
      rw [List.mapM_cons]
      exact (Implements.bind_ok hrun).trans (Implements.bind_ok hcalls)

/-- A client goes on unless it is refused. -/
theorem openIndex_true (net : Network σ) (connection : Connection) (r : OpenIndex) (peer : σ) :
    let opened := openIndex net connection.create r peer
    (opened.1 = true ↔ openingOf net connection r peer ≠ .refused) ∧
      (opened.1 = true → opened.2.2 = (net.exchange (openText r) peer).2.2) ∧
      (openingOf net connection r peer = .lost → opened.2.1.errorCode < 0) := by
  intro opened
  have hspec := openIndex_spec net connection r peer
  dsimp only at hspec
  rw [← openingOf] at hspec
  generalize openingOf net connection r peer = opening at hspec
  cases opening with
  | refused =>
      change opened.1 = false at hspec
      refine ⟨iff_of_false ?_ (not_not_intro rfl), fun htrue => ?_, by simp⟩
      · rw [hspec]
        decide
      · rw [hspec] at htrue
        cases htrue
  | ready => exact ⟨iff_of_true hspec.1 (by simp), fun _ => hspec.2.1, by simp⟩
  | lost => exact ⟨iff_of_true hspec.1 (by simp), fun _ => hspec.2.1, fun _ => hspec.2.2⟩

/-- **When `InitializeHs` succeeds, and what that is worth.** It returns true
exactly where neither client is refused; but a client is not refused where
its connection ends without an answer, and where that is the client for
reads, of all calls on the thread no statement finds its customer and no
transaction on a row ever returns. -/
theorem initializeHs_iff (net : Network σ) (read write : Connection) (readId writeId : ℕ)
    (clients : Clients σ) (padding : ℕ → UInt8) (calls : List DbCall) :
    let started := initializeHs net read write readId writeId clients
    let opened := openingOf net read (openUsers readId "handlers_index") clients.peer
    let peer := (net.exchange (openText (openUsers readId "handlers_index")) clients.peer).2.2
    (started.1 = true ↔
      opened ≠ .refused ∧
        openingOf net write (openUsers writeId "writers_index") peer ≠ .refused) ∧
    (started.1 = true → opened = .lost → ∀ passes, ∃ clients',
      calls.mapM (DbCall.run (byteSocket net padding) passes) started.2 =
        .ok (calls.map unanswered, clients')) := by
  intro started opened peer
  obtain ⟨hfirst, hpeer, hlost⟩ :=
    openIndex_true net read (openUsers readId "handlers_index") clients.peer
  obtain ⟨hsecond, -, -⟩ := openIndex_true net write (openUsers writeId "writers_index") peer
  simp only [started, initializeHs]
  generalize openIndex net read.create (openUsers readId "handlers_index") clients.peer = first
    at hfirst hpeer hlost ⊢
  obtain ⟨success, c, left⟩ := first
  cases success with
  | false =>
      have hrefused : opened = .refused := by
        by_contra hne
        exact Bool.false_ne_true (hfirst.mpr hne)
      refine ⟨iff_of_false Bool.false_ne_true fun h => h.1 hrefused, fun htrue => ?_⟩
      exact absurd htrue Bool.false_ne_true
  | true =>
      simp only [Bool.not_true, Bool.false_eq_true, if_false]
      rw [show left = peer from hpeer rfl]
      generalize openIndex net write.create (openUsers writeId "writers_index") peer = second
        at hsecond ⊢
      refine ⟨hsecond.trans (and_iff_right (hfirst.mp rfl)).symm, fun _ hopened passes => ?_⟩
      have hkept : Lost ⟨c, readId, second.2.1, writeId, second.2.2⟩ := hlost hopened
      exact mapM_lost hkept passes calls

end Lost

/-- A store that takes what it is sent, and hangs up. -/
def hangingUp : Network Unit :=
  ⟨fun bytes s => (.wrote bytes.length, ⟨[], .endOfFile, nil_nonempty⟩, s)⟩

/-- The start succeeds on it, and a statement finds no one. -/
theorem initializeHs_iff_hangingUp :
    let started := initializeHs hangingUp standing standing 0 1
      ⟨standing.create, 0, standing.create, 1, ()⟩
    started.1 = true ∧ ∃ clients,
      [DbCall.get 1 (initialCustomer 0) 0].mapM
        (DbCall.run (byteSocket hangingUp fun _ => 0) 1) started.2 =
        .ok ([.got false (initialCustomer 0)], clients) := by
  have hlost : ∀ pstId idx, openingOf hangingUp standing (openUsers pstId idx) () = .lost := by
    intro pstId idx
    have htaken : sendCount (openText (openUsers pstId idx)).length
        (.wrote (openText (openUsers pstId idx)).length) =
          (openText (openUsers pstId idx)).length := by simp [sendCount]
    simp only [openingOf, opening, hangingUp, htaken]
    rw [if_neg (by decide), if_neg (not_not_intro rfl)]
    rfl
  obtain ⟨htrue, hcalls⟩ := initializeHs_iff hangingUp standing standing 0 1
    ⟨standing.create, 0, standing.create, 1, ()⟩ (fun _ => 0) [.get 1 (initialCustomer 0) 0]
  have hsucceeds := htrue.mpr ⟨by rw [hlost]; simp, by rw [hlost]; simp⟩
  exact ⟨hsucceeds, hcalls hsucceeds (hlost _ _) 1⟩

end Dena
end Rinha
