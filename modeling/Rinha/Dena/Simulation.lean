import Rinha.Dena.Response
import Rinha.Store.Model.Hstcpcli
/-!
# The bytes and the counters

The store's calls were modelled over a client of counters, to which the
store's answers came as outcomes. The client of buffers runs the same: what
its peer does and what is read of it make an outcome for each exchange, and
on these the counters go through the same states, with the same answers
(`run_view`).
-/

namespace Rinha
namespace Dena
namespace Hstcpcli

/-- The client of counters, as this one shows it. -/
def view (c : Hstcpcli) (outcomes : ℕ → Outcome) (exchanges : ℕ) : Rinha.Hstcpcli where
  fdOpen := c.fdOpen
  responseEndOffset := decide (c.responseEndOffset ≠ 0)
  numFlds := c.numFlds
  numReqBufd := c.numReqBufd
  numReqSent := c.numReqSent
  numReqRcvd := c.numReqRcvd
  errorCode := c.errorCode
  flds := c.pending
  outcomes := outcomes
  exchanges := exchanges

/-- A call of the client. -/
inductive Call
  | buf (r : ExecGeneric)
  | openIndex (r : OpenIndex)
  | send
  | recv (numFlds : ℕ)
  | next
  | remove
  | close

/-- What it returns. A row is what its references point at. -/
inductive Answer
  | none
  | sent (e : Int32)
  | received (e : Int32) (numFlds : ℕ)
  | row (row : Option (List (Option Bytes)))
  deriving DecidableEq

variable {σ : Type} (net : Network σ)

/-- The call, on the buffers. -/
def Call.run (c : Hstcpcli) (peer : σ) : Call → Answer × Hstcpcli × σ
  | .buf r => (.none, c.requestBufExecGeneric r, peer)
  | .openIndex r => (.none, c.requestBufOpenIndex r, peer)
  | .send =>
      let ((e, c), peer) := requestSend net c peer
      (.sent e, c, peer)
  | .recv numFlds =>
      let (e, numFlds, c) := c.responseRecv numFlds
      (.received e numFlds, c, peer)
  | .next =>
      let (refs, c) := c.getNextRow
      (.row (refs.map c.deref), c, peer)
  | .remove => (.none, c.responseBufRemove, peer)
  | .close => (.none, c.close, peer)

/-- And on the counters, where the text of a request is nothing. -/
def Call.onCounters (c : Rinha.Hstcpcli) : Call → Answer × Rinha.Hstcpcli
  | .buf _ | .openIndex _ => (.none, c.requestBufExecGeneric)
  | .send => (.sent c.requestSend.1, c.requestSend.2)
  | .recv numFlds =>
      let (e, numFlds, c) := c.responseRecv numFlds
      (.received e numFlds, c)
  | .next => (.row c.getNextRow.1, c.getNextRow.2)
  | .remove => (.none, c.responseBufRemove)
  | .close => (.none, c.close)

/-- Calls, one after the other. -/
def run : List Call → Hstcpcli → σ → List Answer × Hstcpcli × σ
  | [], c, peer => ([], c, peer)
  | call :: calls, c, peer =>
      let (answer, c, peer) := call.run net c peer
      let (answers, c, peer) := run calls c peer
      (answer :: answers, c, peer)

def runCounters : List Call → Rinha.Hstcpcli → List Answer × Rinha.Hstcpcli
  | [], c => ([], c)
  | call :: calls, c =>
      let (answer, c) := call.onCounters c
      let (answers, c) := runCounters calls c
      (answer :: answers, c)

variable {c c' : Hstcpcli} {outcomes : ℕ → Outcome} {exchanges : ℕ} {net}

/-! ## One call -/

theorem pending_of_none (h : c.responseEndOffset = 0) : c.pending = [] := by
  rw [pending_eq_nil_iff, h]
  exact Nat.zero_le _

@[simp] theorem view_close : c.close.view outcomes exchanges = (c.view outcomes exchanges).close := by
  unfold view
  rw [pending_of_none rfl]
  rfl

@[simp] theorem view_setError {code : Int32} {str : String} :
    (c.setError code str).view outcomes exchanges =
      (c.view outcomes exchanges).setError code := rfl

theorem buffered_close : c.close.Buffered := ⟨Nat.zero_le _, Nat.zero_le _⟩

theorem buffered_failed {code : Int32} {str : String} : (c.close.setError code str).Buffered :=
  ⟨Nat.zero_le _, Nat.zero_le _⟩

theorem view_requestBuf {writebuf : StringBuffer} {str : String} :
    (if c.numReqSent > 0 ∨ c.numReqRcvd > 0 then c.close.setError (-1) str
      else { c with writebuf := writebuf, numReqBufd := c.numReqBufd + 1 } : Hstcpcli).view
        outcomes exchanges = (c.view outcomes exchanges).requestBufExecGeneric := by
  unfold Rinha.Hstcpcli.requestBufExecGeneric
  change _ = if c.numReqSent > 0 ∨ c.numReqRcvd > 0 then _ else _
  split
  · rw [view_setError, view_close]
  · rfl

theorem view_responseBufRemove : c.responseBufRemove.view outcomes exchanges =
    (c.view outcomes exchanges).responseBufRemove := by
  unfold Rinha.Hstcpcli.responseBufRemove responseBufRemove
  change _ = if decide (c.responseEndOffset ≠ 0) = false then _ else _
  by_cases h : c.responseEndOffset = 0
  · rw [if_pos h, if_pos (by simpa using h), view_setError, view_close]
  · rw [if_neg h, if_neg (by simpa using h)]
    unfold view
    rw [pending_of_none rfl]
    rfl

theorem view_getNextRow (h : c.Buffered) :
    (c.view outcomes exchanges).getNextRow =
      ((c.getNextRow).1.map (c.getNextRow).2.deref, (c.getNextRow).2.view outcomes exchanges) := by
  unfold Rinha.Hstcpcli.getNextRow
  change (if c.numFlds = 0 then _ else if c.pending = [] then _ else _) = _
  by_cases hflds : c.numFlds = 0
  · rw [if_pos hflds, getNextRow_none (.inl hflds)]
    rfl
  rw [if_neg hflds]
  by_cases hpending : c.pending = []
  · rw [if_pos hpending, getNextRow_none (.inr hpending)]
    rfl
  · obtain ⟨refs, c', hrow, hnext⟩ := getNextRow_some h hflds hpending
    rw [if_neg hpending, hrow]
    obtain ⟨buffer, flds, cur, hothers⟩ := hnext.others
    have hview : c'.view outcomes exchanges =
        { c.view outcomes exchanges with flds := c.pending.drop c.numFlds } := by
      unfold view
      rw [hnext.pending, hothers]
    simp only [Option.map_some, hnext.deref, hview]
    rfl

/-- How a call on the counters follows one on the buffers. Most calls look at
no outcome; a `send` that goes out needs the next one not to be a failed
send; and a call that settles an exchange has its outcome. -/
inductive Follows (call : Call) (c : Hstcpcli) (answer : Answer) (c' : Hstcpcli) : Prop
  | quiet
      (hclosed : c.fdOpen = false → c'.fdOpen = false)
      (hawaited : c'.fdOpen = false ∨ (0 < c.numReqSent → 0 < c'.numReqSent))
      (hcall : ∀ outcomes exchanges, call.onCounters (c.view outcomes exchanges) =
        (answer, c'.view outcomes exchanges))
  | sent
      (hopen : c.fdOpen = true)
      (hawaited : 0 < c'.numReqSent)
      (hcall : ∀ outcomes exchanges, outcomes exchanges ≠ .sendFailed →
        call.onCounters (c.view outcomes exchanges) = (answer, c'.view outcomes exchanges))
  | settled (outcome : Outcome)
      (hopen : c.fdOpen = true)
      (hawaited : 0 < c.numReqSent → outcome ≠ .sendFailed)
      (hcall : ∀ outcomes exchanges, outcomes exchanges = outcome →
        call.onCounters (c.view outcomes exchanges) =
          (answer, c'.view outcomes (exchanges + 1)))

/-- The counters' `request_send`, in terms of the buffers. -/
theorem view_requestSend : (c.view outcomes exchanges).requestSend =
    if c.errorCode < 0 then (c.errorCode, c.view outcomes exchanges)
    else if c.fdOpen = false then (-1, (c.close.setError (-1) "").view outcomes exchanges)
    else if c.numReqBufd = 0 ∨ c.numReqSent > 0 ∨ c.numReqRcvd > 0 then
      (-1, (c.close.setError (-1) "").view outcomes exchanges)
    else if outcomes exchanges = .sendFailed then
      (-1, (c.close.setError (-1) "").view outcomes (exchanges + 1))
    else (0, ({ c.clearError with
      numReqSent := c.numReqBufd, numReqBufd := 0 } : Hstcpcli).view outcomes exchanges) := by
  simp only [view_setError, view_close]
  rfl

/-- **`request_send`.** -/
theorem follows_requestSend {net : Network σ} {peer : σ} (h : c.Buffered) :
    Follows .send c (.sent (requestSend net c peer).1.1) (requestSend net c peer).1.2 ∧
      (requestSend net c peer).1.2.Buffered := by
  have hcall : ∀ outcomes exchanges {e : Int32} {d : Rinha.Hstcpcli},
      (c.view outcomes exchanges).requestSend = (e, d) →
        Call.send.onCounters (c.view outcomes exchanges) = (.sent e, d) := by
    intro outcomes exchanges e d heq
    rw [Call.onCounters, heq]
  rw [requestSend]
  by_cases herror : c.errorCode < 0
  · rw [if_pos herror]
    refine ⟨.quiet id (.inr id) fun outcomes exchanges => hcall _ _ ?_, h⟩
    rw [view_requestSend, if_pos herror]
  rw [if_neg herror]
  by_cases hfd : c.fdOpen = false
  · have hfd' : c.clearError.fdOpen = false := hfd
    simp only [if_pos hfd']
    refine ⟨.quiet (fun _ => rfl) (.inl rfl) fun outcomes exchanges => hcall _ _ ?_,
      buffered_failed⟩
    rw [view_requestSend, if_neg herror, if_pos hfd]
    rfl
  have hfd' : ¬c.clearError.fdOpen = false := hfd
  simp only [if_neg hfd']
  by_cases hsync : c.numReqBufd = 0 ∨ c.numReqSent > 0 ∨ c.numReqRcvd > 0
  · have hsync' : c.clearError.numReqBufd = 0 ∨ c.clearError.numReqSent > 0 ∨
        c.clearError.numReqRcvd > 0 := hsync
    simp only [if_pos hsync']
    refine ⟨.quiet (fun _ => rfl) (.inl rfl) fun outcomes exchanges => hcall _ _ ?_,
      buffered_failed⟩
    rw [view_requestSend, if_neg herror, if_neg hfd, if_pos hsync]
    rfl
  have hsync' : ¬(c.clearError.numReqBufd = 0 ∨ c.clearError.numReqSent > 0 ∨
    c.clearError.numReqRcvd > 0) := hsync
  simp only [if_neg hsync']
  have hopen : c.fdOpen = true := Bool.eq_true_of_not_eq_false hfd
  have hfailed : ∀ (inbox : Inbox UInt8) (writebuf : StringBuffer) (str : String),
      Follows .send c (.sent (-1)) (({ c.clearError with
        inbox := inbox, writebuf := writebuf } : Hstcpcli).close.setError (-1) str) := by
    intro inbox writebuf str
    refine .settled .sendFailed hopen (fun hsent => absurd (.inr (.inl hsent)) hsync)
      fun outcomes exchanges hnext => hcall _ _ ?_
    rw [view_requestSend, if_neg herror, if_neg hfd, if_neg hsync, if_pos hnext]
    rfl
  split_ifs
  · exact ⟨hfailed _ _ _, buffered_failed⟩
  · exact ⟨hfailed _ _ _, buffered_failed⟩
  · exact ⟨hfailed _ _ _, buffered_failed⟩
  · have hbufd : 0 < c.numReqBufd := by omega
    refine ⟨.sent hopen hbufd fun outcomes exchanges hnext => hcall _ _ ?_, ⟨h.end_le, h.cur_le⟩⟩
    rw [view_requestSend, if_neg herror, if_neg hfd, if_neg hsync, if_neg hnext]
    rfl

/-- The counters' `response_recv`, up to where the outcome is looked at. -/
theorem view_responseRecv {n : ℕ} : (c.view outcomes exchanges).responseRecv n =
    if c.errorCode < 0 then (c.errorCode, n, c.view outcomes exchanges)
    else if c.numReqBufd > 0 ∨ c.numReqSent = 0 ∨ c.numReqRcvd > 0 ∨ c.responseEndOffset ≠ 0 then
      (-1, n, (c.close.setError (-1) "").view outcomes exchanges)
    else if c.fdOpen = false then
      (-1, 0, (c.receiving.setError (-1) "").view outcomes exchanges)
    else match outcomes exchanges with
      | .sendFailed | .endOfFile =>
          (-1, 0, (c.close.setError (-1) "").view outcomes (exchanges + 1))
      | .reply code numFlds fields =>
          (code.toInt32, numFlds,
            { c.view outcomes (exchanges + 1) with
              responseEndOffset := true
              numReqSent := c.numReqSent - 1
              numReqRcvd := c.numReqRcvd + 1
              numFlds := numFlds
              errorCode := code.toInt32
              flds := fields }) := by
  have hsync : ((c.view outcomes exchanges).clearError.numReqBufd > 0 ∨
      (c.view outcomes exchanges).clearError.numReqSent = 0 ∨
      (c.view outcomes exchanges).clearError.numReqRcvd > 0 ∨
      (c.view outcomes exchanges).clearError.responseEndOffset = true) ↔
      (c.numReqBufd > 0 ∨ c.numReqSent = 0 ∨ c.numReqRcvd > 0 ∨ c.responseEndOffset ≠ 0) := by
    refine or_congr Iff.rfl (or_congr Iff.rfl (or_congr Iff.rfl ?_))
    exact decide_eq_true_iff
  unfold Rinha.Hstcpcli.responseRecv
  refine ite_congr rfl (fun _ => rfl) fun _ => ?_
  refine ite_congr (propext hsync) (fun _ => ?_) fun hnot => ?_
  · simp only [view_setError, view_close]
    rfl
  have hreceiving : c.receiving.pending = c.pending := by
    have hnone : c.responseEndOffset = 0 := by omega
    rw [pending_of_none hnone]
    exact pending_of_none hnone
  refine ite_congr rfl (fun _ => ?_) fun _ => ?_
  · unfold view
    rw [show (c.receiving.setError (-1) "").pending = c.receiving.pending from rfl, hreceiving]
    rfl
  have hnext : ({ (c.view outcomes exchanges).clearError with numFlds := 0 } :
      Rinha.Hstcpcli).outcome = outcomes exchanges := rfl
  simp only [hnext]
  cases outcomes exchanges with
  | sendFailed | endOfFile =>
      simp only [view_setError, view_close]
      rfl
  | reply code numFlds fields =>
      by_cases hcode : code = 0
      · rw [hcode]
        rfl
      · exact if_pos hcode

/-- Nothing of what a failed call leaves depends on where it failed. -/
theorem view_failed {str str' : String} {code : Int32} :
    (c'.close.setError code str).view outcomes exchanges =
      (c.close.setError code str').view outcomes exchanges := by
  simp only [view_setError, view_close]
  rfl

/-- **`response_recv`.** -/
theorem follows_responseRecv {n : ℕ} (h : c.Buffered) :
    Follows (.recv n) c (.received (c.responseRecv n).1 (c.responseRecv n).2.1)
        (c.responseRecv n).2.2 ∧
      (c.responseRecv n).2.2.Buffered := by
  have hcall : ∀ outcomes exchanges {e : Int32} {k : ℕ} {d : Rinha.Hstcpcli},
      (c.view outcomes exchanges).responseRecv n = (e, k, d) →
        (Call.recv n).onCounters (c.view outcomes exchanges) = (.received e k, d) := by
    intro outcomes exchanges e k d heq
    rw [Call.onCounters, heq]
  by_cases herror : c.errorCode < 0
  · rw [responseRecv, if_pos herror]
    refine ⟨.quiet id (.inr id) fun outcomes exchanges => hcall _ _ ?_, h⟩
    rw [view_responseRecv, if_pos herror]
  by_cases hsync : c.numReqBufd > 0 ∨ c.numReqSent = 0 ∨ c.numReqRcvd > 0 ∨ c.responseEndOffset ≠ 0
  · have hrecv : c.responseRecv n = (-1, n, c.clearError.close.setError (-1)
        "response_recv: protocol out of sync") := by
      rw [responseRecv, if_neg herror]
      exact if_pos hsync
    rw [hrecv]
    refine ⟨.quiet (fun _ => rfl) (.inl rfl) fun outcomes exchanges => hcall _ _ ?_,
      buffered_failed⟩
    rw [view_responseRecv, if_neg herror, if_pos hsync]
    rfl
  by_cases hfd : c.fdOpen = false
  · have hrecv : c.responseRecv n = (-1, 0, c.receiving.setError (-1) "read: closed") := by
      rw [responseRecv, if_neg herror]
      exact (if_neg hsync).trans (if_pos hfd)
    rw [hrecv]
    refine ⟨.quiet (fun _ => hfd) (.inl hfd) fun outcomes exchanges => hcall _ _ ?_,
      ⟨h.end_le, Nat.zero_le _⟩⟩
    rw [view_responseRecv, if_neg herror, if_neg hsync, if_pos hfd]
    rfl
  have hopen : c.fdOpen = true := Bool.eq_true_of_not_eq_false hfd
  have hawaiting : c.Awaiting := ⟨herror, by omega, by omega, by omega, by omega, hopen⟩
  by_cases hmem : newline ∈ c.readbuf.contents ++ c.inbox.bytes
  · obtain ⟨line, rest, hstream, hline⟩ := List.eq_append_cons_of_mem hmem
    obtain ⟨c', hrecv, hreceived⟩ := responseRecv_line (n := n) hawaiting hstream hline
    rw [hrecv]
    refine ⟨.settled (.reply (readLine line).code (readLine line).numFlds.toNat c'.pending) hopen
      (fun _ => by simp) fun outcomes exchanges hnext => hcall _ _ ?_, hreceived.buffered⟩
    rw [view_responseRecv, if_neg herror, if_neg hsync, if_neg hfd, hnext]
    dsimp only
    unfold view
    rw [hreceived.opened, hreceived.bufd, hreceived.sent, hreceived.rcvd, hreceived.response,
      hreceived.numFlds, hreceived.errorCode]
    simp
  · obtain ⟨c', hrecv⟩ := responseRecv_none (n := n) hawaiting hmem
    rw [hrecv]
    refine ⟨.settled .endOfFile hopen (fun _ => by simp)
      fun outcomes exchanges hnext => hcall _ _ ?_, buffered_failed⟩
    rw [view_responseRecv, if_neg herror, if_neg hsync, if_neg hfd, hnext]
    dsimp only
    rw [view_failed]

/-- The two calls that buffer a request. -/
theorem follows_requestBuf {call : Call} {writebuf : StringBuffer} {str : String}
    (h : c.Buffered)
    (hcall : ∀ d, call.onCounters d = (.none, d.requestBufExecGeneric))
    (hrun : c' = if c.numReqSent > 0 ∨ c.numReqRcvd > 0 then c.close.setError (-1) str
      else { c with writebuf := writebuf, numReqBufd := c.numReqBufd + 1 }) :
    Follows call c .none c' ∧ c'.Buffered := by
  have hview : ∀ outcomes exchanges, call.onCounters (c.view outcomes exchanges) =
      (.none, c'.view outcomes exchanges) := by
    intro outcomes exchanges
    rw [hcall, hrun, view_requestBuf]
  split at hrun
  · subst hrun
    exact ⟨.quiet (fun _ => rfl) (.inl rfl) hview, buffered_failed⟩
  · subst hrun
    exact ⟨.quiet id (.inr id) hview, ⟨h.end_le, h.cur_le⟩⟩

/-- **One call.** -/
theorem follows_run (net : Network σ) (call : Call) (peer : σ) (h : c.Buffered) :
    Follows call c (call.run net c peer).1 (call.run net c peer).2.1 ∧
      (call.run net c peer).2.1.Buffered := by
  cases call with
  | buf r => exact follows_requestBuf h (fun _ => rfl) rfl
  | openIndex r => exact follows_requestBuf h (fun _ => rfl) rfl
  | send => exact follows_requestSend h
  | recv n => exact follows_responseRecv h
  | next =>
      have hview : ∀ outcomes exchanges, Call.next.onCounters (c.view outcomes exchanges) =
          (.row (c.getNextRow.1.map c.getNextRow.2.deref),
            c.getNextRow.2.view outcomes exchanges) := by
        intro outcomes exchanges
        rw [Call.onCounters, view_getNextRow h]
      by_cases hdone : c.numFlds = 0 ∨ c.pending = []
      · rw [getNextRow_none hdone] at hview
        rw [Call.run, getNextRow_none hdone]
        exact ⟨.quiet id (.inr id) hview, h⟩
      · obtain ⟨hflds, hpending⟩ := not_or.mp hdone
        obtain ⟨refs, c', hrow, hnext⟩ := getNextRow_some h hflds hpending
        rw [hrow] at hview
        rw [Call.run, hrow]
        refine ⟨.quiet ?_ (.inr ?_) hview, hnext.buffered⟩
        all_goals
          obtain ⟨buffer, flds, cur, hothers⟩ := hnext.others
          dsimp only
          rw [hothers]
          exact id
  | remove =>
      have hview : ∀ outcomes exchanges, Call.remove.onCounters (c.view outcomes exchanges) =
          (.none, c.responseBufRemove.view outcomes exchanges) := by
        intro outcomes exchanges
        rw [Call.onCounters, view_responseBufRemove]
      simp only [Call.run]
      rw [responseBufRemove] at hview ⊢
      split at hview
      · rename_i hnone
        rw [if_pos hnone]
        exact ⟨.quiet (fun _ => rfl) (.inl rfl) hview, buffered_failed⟩
      · rename_i hsome
        rw [if_neg hsome]
        exact ⟨.quiet id (.inr id) hview, ⟨Nat.zero_le _, Nat.zero_le _⟩⟩
  | close =>
      refine ⟨.quiet (fun _ => rfl) (.inl rfl) fun _ _ => ?_, buffered_close⟩
      rw [Call.onCounters, ← view_close]
      rfl

/-- Nothing is settled any more once the connection is closed, and no
outcome looked at. -/
def Agree (c : Hstcpcli) (exchanges : ℕ) (outcomes outcomes' : ℕ → Outcome) : Prop :=
  c.fdOpen = true → ∀ n, exchanges ≤ n → outcomes n = outcomes' n

/-- What is known of the outcomes to come: where a response is awaited the
next is no failed send. -/
def Fits (c : Hstcpcli) (exchanges : ℕ) (outcomes : ℕ → Outcome) : Prop :=
  0 < c.numReqSent → outcomes exchanges ≠ .sendFailed

theorem runCounters_cons {call : Call} {calls : List Call} {d d' d'' : Rinha.Hstcpcli}
    {answer : Answer} {answers : List Answer} (hcall : call.onCounters d = (answer, d'))
    (hrest : runCounters calls d' = (answers, d'')) :
    runCounters (call :: calls) d = (answer :: answers, d'') := by
  rw [runCounters, hcall]
  dsimp only
  rw [hrest]

/-- **The outcomes of a run.** What comes of the exchanges can be told in
front, for however the outcomes go on where nothing looks at them. -/
theorem exists_outcomes (net : Network σ) (calls : List Call) (c : Hstcpcli) (peer : σ)
    (h : c.Buffered) (exchanges : ℕ) : ∃ outcomes, Fits c exchanges outcomes ∧
      ∀ outcomes', Agree c exchanges outcomes' outcomes → ∃ exchanges',
        runCounters calls (c.view outcomes' exchanges) =
          ((run net calls c peer).1, (run net calls c peer).2.1.view outcomes' exchanges') := by
  induction calls generalizing c peer exchanges with
  | nil => exact ⟨fun _ => .endOfFile, fun _ => by simp, fun outcomes' _ => ⟨exchanges, rfl⟩⟩
  | cons call calls ih =>
      obtain ⟨hfollows, hbuffered⟩ := follows_run net call peer h
      rw [run]
      generalize call.run net c peer = out at *
      obtain ⟨answer, c', peer'⟩ := out
      dsimp only at hfollows hbuffered ⊢
      cases hfollows with
      | quiet hclosed hawaited hcall =>
          obtain ⟨outcomes, hfits, hrun⟩ := ih c' peer' hbuffered exchanges
          by_cases hopen : c'.fdOpen = true
          · refine ⟨outcomes, fun hsent => hfits ?_, fun outcomes' hagree => ?_⟩
            · exact (hawaited.resolve_left (by simp [hopen])) hsent
            · have hwas : c.fdOpen = true := by
                by_contra hnot
                rw [hclosed (Bool.eq_false_of_not_eq_true hnot)] at hopen
                cases hopen
              obtain ⟨exchanges', hrest⟩ := hrun outcomes' fun _ => hagree hwas
              exact ⟨exchanges', runCounters_cons (hcall _ _) hrest⟩
          · -- closed: whatever the outcomes are, none is looked at
            refine ⟨fun _ => .endOfFile, fun _ => by simp, fun outcomes' _ => ?_⟩
            obtain ⟨exchanges', hrest⟩ := hrun outcomes' fun hfd => absurd hfd hopen
            exact ⟨exchanges', runCounters_cons (hcall _ _) hrest⟩
      | sent hopen hawaited hcall =>
          obtain ⟨outcomes, hfits, hrun⟩ := ih c' peer' hbuffered exchanges
          refine ⟨outcomes, fun _ => hfits hawaited, fun outcomes' hagree => ?_⟩
          have hnext : outcomes' exchanges ≠ .sendFailed := by
            rw [hagree hopen exchanges (Nat.le_refl _)]
            exact hfits hawaited
          obtain ⟨exchanges', hrest⟩ := hrun outcomes' fun _ => hagree hopen
          exact ⟨exchanges', runCounters_cons (hcall _ _ hnext) hrest⟩
      | settled outcome hopen hawaited hcall =>
          obtain ⟨outcomes, hfits, hrun⟩ := ih c' peer' hbuffered (exchanges + 1)
          refine ⟨Function.update outcomes exchanges outcome, fun hsent => ?_,
            fun outcomes' hagree => ?_⟩
          · rw [Function.update_self]
            exact hawaited hsent
          · have hnext : outcomes' exchanges = outcome := by
              rw [hagree hopen exchanges (Nat.le_refl _), Function.update_self]
            obtain ⟨exchanges', hrest⟩ := hrun outcomes' fun _ n hn => by
              rw [hagree hopen n (by omega), Function.update_of_ne (by omega)]
            exact ⟨exchanges', runCounters_cons (hcall _ _ hnext) hrest⟩

/-- **Every run of the client of buffers is a run of the client of counters.**
From the constructor on, whatever the calls, the peer and the cuts of its
stream, there are outcomes on which the counters give the same answers call
by call, rows included, and end where the buffers end. -/
theorem run_view (net : Network σ) (peer : σ) (fdOpen : Bool) (failure : Option Bytes)
    (memory : ℕ → UInt8) (calls : List Call) : ∃ outcomes exchanges,
      runCounters calls ((create fdOpen failure memory).view outcomes 0) =
        ((run net calls (create fdOpen failure memory) peer).1,
          (run net calls (create fdOpen failure memory) peer).2.1.view outcomes exchanges) := by
  have hbuffered : (create fdOpen failure memory).Buffered := ⟨Nat.le_refl _, Nat.le_refl _⟩
  obtain ⟨outcomes, -, hrun⟩ := exists_outcomes net calls _ peer hbuffered 0
  exact ⟨outcomes, hrun outcomes fun _ _ _ => rfl⟩

end Hstcpcli
end Dena
end Rinha
