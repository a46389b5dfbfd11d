import Rinha.Store.Image
import Rinha.Store.Model.HandlerSocket
/-!
# What an acknowledgement rests on

Between calls a client is ready for an exchange or will never have one
again: every failure closes it, latches its error or leaves a response
behind that no one removes. `read_cases` and `write_cases` say what a call
makes of each outcome, and the retry loop is followed outcome by outcome
from there.
-/

namespace Rinha

variable {c c' : Hstcpcli} {behind : Behind} {o : Outcome}

/-! ## Clients between calls -/

/-- A client that may send, with nothing outstanding. -/
structure Hstcpcli.Ready (c : Hstcpcli) : Prop where
  fd : c.fdOpen = true
  bufd : c.numReqBufd = 0
  sent : c.numReqSent = 0
  rcvd : c.numReqRcvd = 0
  removed : c.responseEndOffset = false
  error : ¬ c.errorCode < 0

/-- A client all of whose sends will fail. -/
def Hstcpcli.Dead (c : Hstcpcli) : Prop :=
  c.errorCode < 0 ∨ c.numReqSent > 0 ∨ c.numReqRcvd > 0 ∨ c.fdOpen = false

/-- What a call finds and leaves. -/
def Hstcpcli.AtRest (c : Hstcpcli) : Prop := c.Ready ∨ c.Dead

theorem Hstcpcli.Ready.not_dead (h : c.Ready) : ¬ c.Dead := by
  rintro (herr | hsent | hrcvd | hfd)
  · exact h.error herr
  · exact absurd h.sent (by omega)
  · exact absurd h.rcvd (by omega)
  · rw [h.fd] at hfd
    cases hfd

theorem Hstcpcli.dead_setError (c : Hstcpcli) : (c.setError (-1)).Dead :=
  .inl (by
    simp only [Hstcpcli.setError]
    decide)

/-- **A dead client stays dead.** -/
theorem Hstcpcli.Dead.requestSend (h : c.Dead) :
    c.requestBufExecGeneric.requestSend.1 ≠ 0 ∧ c.requestBufExecGeneric.requestSend.2.Dead := by
  have hneg : ((-1 : Int32) < 0) := by decide
  unfold Hstcpcli.requestBufExecGeneric
  by_cases hsync : c.numReqSent > 0 ∨ c.numReqRcvd > 0
  · simp only [if_pos hsync, Hstcpcli.requestSend, Hstcpcli.setError, hneg, if_true]
    exact ⟨by decide, .inl hneg⟩
  · simp only [if_neg hsync, Hstcpcli.requestSend, Hstcpcli.clearError]
    by_cases herr : c.errorCode < 0
    · simp only [herr, if_true]
      refine ⟨fun h0 => ?_, .inl herr⟩
      rw [h0] at herr
      exact absurd herr (by decide)
    · have hfd : c.fdOpen = false := by
        rcases h with h | h | h | h
        · exact absurd h herr
        · exact absurd (.inl h) hsync
        · exact absurd (.inr h) hsync
        · exact h
      simp only [herr, hfd, if_false, if_true]
      exact ⟨by decide, Hstcpcli.dead_setError _⟩

/-- A ready client sends, unless the send fails. -/
theorem Hstcpcli.Ready.requestSend (h : c.Ready) :
    c.requestBufExecGeneric.requestSend =
      if c.outcome = .sendFailed then
        (-1, ({ c with numReqBufd := 1, errorCode := 0 } : Hstcpcli).met.close.setError (-1))
      else (0, { c with numReqBufd := 0, numReqSent := 1, errorCode := 0 }) := by
  obtain ⟨hfd, hbufd, hsent, hrcvd, hrem, herr⟩ := h
  simp [Hstcpcli.requestBufExecGeneric, Hstcpcli.requestSend, hsent, hrcvd, herr, hbufd,
    Hstcpcli.clearError, hfd, Hstcpcli.outcome]

/-- A ready client once its request is sent. -/
def Hstcpcli.sentOne (c : Hstcpcli) : Hstcpcli :=
  { c with numReqBufd := 0, numReqSent := 1, errorCode := 0 }

/-- And once a response has come in. -/
def Hstcpcli.received (c : Hstcpcli) (code : Int32) (numFlds : ℕ)
    (fields : List (Option Bytes)) : Hstcpcli :=
  { c.met with
    responseEndOffset := true
    numReqBufd := 0
    numReqSent := 0
    numReqRcvd := 1
    numFlds := numFlds
    errorCode := code
    flds := fields }

theorem Hstcpcli.Ready.responseRecv (h : c.Ready) :
    c.sentOne.responseRecv 0 =
      match c.outcome with
      | .sendFailed | .endOfFile =>
          (-1, 0, ({ c.sentOne with numFlds := 0 } : Hstcpcli).met.close.setError (-1))
      | .reply code numFlds fields =>
          (if code ≠ 0 then code.toInt32 else 0, numFlds,
            c.received (if code ≠ 0 then code.toInt32 else 0) numFlds fields) := by
  obtain ⟨hfd, hbufd, hsent, hrcvd, hrem, herr⟩ := h
  have hzero : ¬((0 : Int32) < 0) := by decide
  simp only [Hstcpcli.outcome]
  simp only [Hstcpcli.responseRecv, Hstcpcli.sentOne, hzero, if_false, Hstcpcli.clearError, hrcvd,
    hrem, hfd, Hstcpcli.outcome]
  cases c.outcomes c.exchanges with
  | reply code numFlds fields =>
      by_cases hcode : code = 0 <;>
        simp [hcode, Hstcpcli.received, Hstcpcli.met, Hstcpcli.setError, hrcvd, hfd]
  | _ => simp

/-- The rows of a response, padded where the line ends early. -/
def rowsOf (numFlds : ℕ) : ℕ → List (Option Bytes) → List (List (Option Bytes))
  | 0, _ => []
  | left + 1, fields =>
      if numFlds = 0 ∨ fields = [] then []
      else
        (fields.take numFlds ++
          List.replicate (numFlds - (fields.take numFlds).length) (some [])) ::
            rowsOf numFlds left (fields.drop numFlds)

theorem Hstcpcli.rows_eq (left : ℕ) (c : Hstcpcli) :
    (c.rows left).1 = rowsOf c.numFlds left c.flds ∧
      ∃ fields, (c.rows left).2 = { c with flds := fields } := by
  induction left generalizing c with
  | zero => exact ⟨rfl, c.flds, rfl⟩
  | succ left ih =>
      by_cases hend : c.numFlds = 0 ∨ c.flds = []
      · have hnone : c.getNextRow = (none, c) := by
          unfold Hstcpcli.getNextRow
          rcases hend with h | h <;> simp [h]
        rw [Hstcpcli.rows, hnone, rowsOf, if_pos hend]
        exact ⟨rfl, c.flds, rfl⟩
      · rw [not_or] at hend
        obtain ⟨hrows, fields, hleft⟩ := ih { c with flds := c.flds.drop c.numFlds }
        rw [rowsOf, if_neg (not_or.mpr hend), Hstcpcli.rows]
        simp only [Hstcpcli.getNextRow, hend, if_false, hrows, hleft]
        exact ⟨trivial, fields, rfl⟩

/-- What a client is once a good response has been read and removed. -/
theorem Hstcpcli.Ready.responseBufRemove (h : c.Ready) (numFlds : ℕ)
    (fields fields' : List (Option Bytes)) :
    let c' := ({ c.received 0 numFlds fields with flds := fields' } : Hstcpcli).responseBufRemove
    c'.Ready ∧ c'.outcomes = c.outcomes ∧ c'.exchanges = c.exchanges + 1 := by
  obtain ⟨hfd, hbufd, hsent, hrcvd, hrem, herr⟩ := h
  have hzero : ¬((0 : Int32) < 0) := by decide
  exact ⟨⟨hfd, rfl, rfl, rfl, rfl, hzero⟩, rfl, rfl⟩

/-! ## One call -/

/-- The rows of a normal reply. -/
def normalReply : Outcome → Option (List (List (Option Bytes)))
  | .reply code numFlds fields =>
      if code = 0 then some (rowsOf numFlds fields.length fields) else none
  | _ => none

/-- The customer and version a read comes away with, where the reply is
normal and its numbers parse. -/
def delivered (behind : ℕ → ℕ → UInt8) (o : Outcome) (out : Customer × Int32) :
    Option (Customer × Int32) :=
  (normalReply o).bind fun rows => readRows behind 0 rows out

/-- Whether a normal reply says a row was modified. -/
def answered (o : Outcome) : Option Bool := (normalReply o).bind fun rows => modifiedRows rows false

/-- The reply is an error, or a `read` failed before it was there. -/
def Broken (o : Outcome) : Prop :=
  o = .endOfFile ∨ ∃ code numFlds fields, o = .reply code numFlds fields ∧ code ≠ 0

theorem Broken.normalReply (h : Broken o) : normalReply o = none := by
  rcases h with rfl | ⟨code, numFlds, fields, rfl, hcode⟩
  · rfl
  · simp [Rinha.normalReply, hcode]

theorem not_broken_sendFailed : ¬Broken .sendFailed := by
  rintro (h | ⟨_, _, _, h, -⟩) <;> cases h

theorem not_broken_normal (numFlds : ℕ) (fields : List (Option Bytes)) :
    ¬Broken (.reply 0 numFlds fields) := by
  rintro (h | ⟨_, _, _, h, hcode⟩) <;> cases h
  exact hcode rfl

theorem toInt32_ne_zero {code : UInt32} (h : code ≠ 0) : code.toInt32 ≠ 0 := by
  intro hzero
  exact h (congrArg Int32.toUInt32 hzero)

/-- A response leaves the client out of step until it is removed. -/
theorem Hstcpcli.dead_received (c : Hstcpcli) (code : Int32) (numFlds : ℕ)
    (fields : List (Option Bytes)) : (c.received code numFlds fields).Dead :=
  .inr (.inr (.inl Nat.one_pos))

/-- What an exchange of a client at rest comes to. -/
inductive Exchange (c : Hstcpcli) : Prop
  | unsent (e : Int32) (c' : Hstcpcli) (he : e ≠ 0)
      (hsend : c.requestBufExecGeneric.requestSend = (e, c')) (hdead : c'.Dead)
      (hout : c.Ready → c.outcome = .sendFailed)
  | broken (hready : c.Ready) (hsend : c.requestBufExecGeneric.requestSend = (0, c.sentOne))
      (hout : Broken c.outcome) (e : Int32) (numFlds : ℕ) (c' : Hstcpcli)
      (hrecv : c.sentOne.responseRecv 0 = (e, numFlds, c')) (herr : c'.errorCode ≠ 0)
      (hdead : c'.Dead) (hnext : c'.outcomes = c.outcomes ∧ c'.exchanges = c.exchanges + 1)
  | normal (hready : c.Ready) (hsend : c.requestBufExecGeneric.requestSend = (0, c.sentOne))
      (numFlds : ℕ) (fields : List (Option Bytes)) (hout : c.outcome = .reply 0 numFlds fields)
      (hrecv : c.sentOne.responseRecv 0 = (0, numFlds, c.received 0 numFlds fields))

theorem exchange (hrest : c.AtRest) : Exchange c := by
  rcases hrest with hready | hdead
  · by_cases hfail : c.outcome = .sendFailed
    · exact .unsent (-1) _ (by decide) (hready.requestSend.trans (if_pos hfail))
        (Hstcpcli.dead_setError _) fun _ => hfail
    · have hsend : c.requestBufExecGeneric.requestSend = (0, c.sentOne) := by
        rw [hready.requestSend, if_neg hfail]
        rfl
      have hrecv := hready.responseRecv
      cases hout : c.outcome with
      | sendFailed => exact absurd hout hfail
      | endOfFile =>
          rw [hout] at hrecv
          exact .broken hready hsend (.inl hout) _ _ _ hrecv (show (-1 : Int32) ≠ 0 by decide)
            (Hstcpcli.dead_setError _) ⟨rfl, rfl⟩
      | reply code numFlds fields =>
          rw [hout] at hrecv
          by_cases hcode : code = 0
          · subst hcode
            exact .normal hready hsend numFlds fields hout hrecv
          · simp only [ne_eq, hcode, not_false_eq_true, if_true] at hrecv
            exact .broken hready hsend (.inr ⟨code, numFlds, fields, hout, hcode⟩) _ _ _ hrecv
              (toInt32_ne_zero hcode) (Hstcpcli.dead_received _ _ _ _) ⟨rfl, rfl⟩
  · obtain ⟨he, hstill⟩ := hdead.requestSend
    exact .unsent _ _ he rfl hstill fun hready => absurd hdead hready.not_dead

/-- **What `ReadCustomerHs` makes of an outcome.** It fails, or ends the
process, or comes away with what the reply delivers. -/
theorem read_cases (behind : Behind) {clients : Clients}
    (hrest : clients.readPtr.AtRest) (out : Customer × Int32) :
    ((clients.readPtr.Ready →
        delivered (behind clients.readPtr.exchanges) clients.readPtr.outcome out = none) ∧
      ((∃ halt, readCustomerHs behind out.1 out.2 clients = .error halt) ∨
        ∃ c : Hstcpcli, c.Dead ∧
          readCustomerHs behind out.1 out.2 clients =
            .ok ((false, out), { clients with readPtr := c }))) ∨
    (clients.readPtr.Ready ∧ ∃ (out' : Customer × Int32) (c : Hstcpcli),
      delivered (behind clients.readPtr.exchanges) clients.readPtr.outcome out = some out' ∧
      c.Ready ∧
      c.outcomes = clients.readPtr.outcomes ∧ c.exchanges = clients.readPtr.exchanges + 1 ∧
      readCustomerHs behind out.1 out.2 clients =
        .ok ((true, out'), { clients with readPtr := c })) := by
  have hzero : ¬((0 : Int32) ≠ 0) := by decide
  have herr : clients.readPtr.sentOne.errorCode = 0 := rfl
  cases exchange hrest with
  | unsent e c' he hsend hdead hout =>
      refine .inl ⟨fun hready => by simp [hout hready, delivered, normalReply],
        .inr ⟨c', hdead, ?_⟩⟩
      simp only [readCustomerHs, hsend, he, ne_eq, not_false_eq_true, if_true]
  | broken hready hsend hout e numFlds c' hrecv herr' hdead hnext =>
      refine .inl ⟨fun _ => by simp [hout.normalReply, delivered], .inr ⟨c', hdead, ?_⟩⟩
      simp only [readCustomerHs, hsend, herr, hzero, if_false, hrecv, herr', ne_eq,
        not_false_eq_true, if_true]
  | normal hready hsend numFlds fields hout hrecv =>
      have hreceived : (clients.readPtr.received 0 numFlds fields).errorCode = 0 := rfl
      obtain ⟨hrows, fields', hleft⟩ := (clients.readPtr.received 0 numFlds fields).rows_eq
        fields.length
      have hdelivered : delivered (behind clients.readPtr.exchanges) clients.readPtr.outcome out =
          readRows (behind clients.readPtr.exchanges) 0
            (rowsOf numFlds fields.length fields) out := by
        simp [hout, delivered, normalReply]
      cases hread : readRows (behind clients.readPtr.exchanges) 0
          (rowsOf numFlds fields.length fields) out with
      | none =>
          refine .inl ⟨fun _ => hdelivered.trans hread, .inl ⟨.terminated, ?_⟩⟩
          simp only [readCustomerHs, hsend, herr, hzero, if_false, hrecv, hreceived]
          simp only [Hstcpcli.received] at hrows ⊢
          simp only [hrows, hread]
      | some out' =>
          obtain ⟨hready', houtcomes, hexchanges⟩ := hready.responseBufRemove numFlds fields fields'
          refine .inr ⟨hready, out', _, hdelivered.trans hread, hready', houtcomes, hexchanges, ?_⟩
          simp only [readCustomerHs, hsend, herr, hzero, if_false, hrecv, hreceived]
          -- the loop over the rows takes all of them, and what is left is removed
          simp only [Hstcpcli.received] at hrows hleft ⊢
          simp only [hrows, hleft, hread]

/-- **What `WriteCustomerHs` makes of an outcome.** A broken exchange is
reported as a success. -/
theorem write_cases (clients : Clients) (hrest : clients.writePtr.AtRest) :
    (¬ clients.writePtr.Ready ∨ clients.writePtr.outcome = .sendFailed) ∧
      (∃ c : Hstcpcli, c.Dead ∧
        writeCustomerHs clients = .ok (false, { clients with writePtr := c })) ∨
    (clients.writePtr.Ready ∧
      ((answered clients.writePtr.outcome = none ∧ ¬ Broken clients.writePtr.outcome ∧
          ∃ halt, writeCustomerHs clients = .error halt) ∨
        ∃ c : Hstcpcli, c.outcomes = clients.writePtr.outcomes ∧
          c.exchanges = clients.writePtr.exchanges + 1 ∧
          ((Broken clients.writePtr.outcome ∧ c.Dead ∧
              writeCustomerHs clients = .ok (true, { clients with writePtr := c })) ∨
            ∃ modified, answered clients.writePtr.outcome = some modified ∧ c.Ready ∧
              writeCustomerHs clients = .ok (modified, { clients with writePtr := c })))) := by
  have hzero : ¬((0 : Int32) ≠ 0) := by decide
  have herr : clients.writePtr.sentOne.errorCode = 0 := rfl
  cases exchange hrest with
  | unsent e c' he hsend hdead hout =>
      refine .inl ⟨?_, c', hdead, ?_⟩
      · by_cases hready : clients.writePtr.Ready
        · exact .inr (hout hready)
        · exact .inl hready
      · simp only [writeCustomerHs, hsend, he, ne_eq, not_false_eq_true, if_true]
  | broken hready hsend hout e numFlds c' hrecv herr' hdead hnext =>
      refine .inr ⟨hready, .inr ⟨c', hnext.1, hnext.2, .inl ⟨hout, hdead, ?_⟩⟩⟩
      simp only [writeCustomerHs, hsend, herr, hzero, if_false, hrecv, herr', ne_eq,
        not_false_eq_true, if_true]
  | normal hready hsend numFlds fields hout hrecv =>
      have hreceived : (clients.writePtr.received 0 numFlds fields).errorCode = 0 := rfl
      obtain ⟨hrows, fields', hleft⟩ := (clients.writePtr.received 0 numFlds fields).rows_eq
        fields.length
      have hanswered : answered clients.writePtr.outcome =
          modifiedRows (rowsOf numFlds fields.length fields) false := by
        simp [hout, answered, normalReply]
      cases hrow : modifiedRows (rowsOf numFlds fields.length fields) false with
      | none =>
          refine .inr ⟨hready, .inl ⟨hanswered.trans hrow, ?_, .terminated, ?_⟩⟩
          · exact hout ▸ not_broken_normal numFlds fields
          · simp only [writeCustomerHs, hsend, herr, hzero, if_false, hrecv, hreceived]
            simp only [Hstcpcli.received] at hrows ⊢
            simp only [hrows, hrow]
      | some modified =>
          obtain ⟨hready', houtcomes, hexchanges⟩ := hready.responseBufRemove numFlds fields fields'
          refine .inr ⟨hready, .inr ⟨_, houtcomes, hexchanges,
            .inr ⟨modified, hanswered.trans hrow, hready', ?_⟩⟩⟩
          have hge : (0 : Int32) ≥ 0 := by decide
          simp only [writeCustomerHs, hsend, herr, hzero, if_false, hrecv, hreceived]
          simp only [Hstcpcli.received] at hrows hleft ⊢
          simp only [hrows, hleft, hrow, hge, if_true]

theorem read_of_delivered {clients : Clients} (hready : clients.readPtr.Ready)
    {out out' : Customer × Int32}
    (h : delivered (behind clients.readPtr.exchanges) clients.readPtr.outcome out = some out') :
    ∃ c : Hstcpcli, c.Ready ∧ c.outcomes = clients.readPtr.outcomes ∧
      c.exchanges = clients.readPtr.exchanges + 1 ∧
      readCustomerHs behind out.1 out.2 clients =
        .ok ((true, out'), { clients with readPtr := c }) := by
  rcases read_cases behind (.inl hready) out with ⟨hnone, -⟩ | ⟨-, out'', c, hout, hrest⟩
  · rw [hnone hready] at h
    cases h
  · obtain rfl : out' = out'' := Option.some.inj (h.symm.trans hout)
    exact ⟨c, hrest⟩

theorem read_of_broken (behind : Behind) {clients : Clients}
    (hready : clients.readPtr.Ready)
    (h : Broken clients.readPtr.outcome) (out : Customer × Int32) :
    ∃ c : Hstcpcli, c.Dead ∧
      readCustomerHs behind out.1 out.2 clients =
        .ok ((false, out), { clients with readPtr := c }) := by
  have hzero : ¬((0 : Int32) ≠ 0) := by decide
  have herr : clients.readPtr.sentOne.errorCode = 0 := rfl
  cases exchange (.inl hready) with
  | unsent e c' he hsend hdead hout =>
      rw [hout hready] at h
      exact absurd h not_broken_sendFailed
  | broken hready hsend hout e numFlds c' hrecv herr' hdead hnext =>
      refine ⟨c', hdead, ?_⟩
      simp only [readCustomerHs, hsend, herr, hzero, if_false, hrecv, herr', ne_eq,
        not_false_eq_true, if_true]
  | normal hready hsend numFlds fields hout hrecv =>
      rw [hout] at h
      exact absurd h (not_broken_normal numFlds fields)

theorem write_of_broken (clients : Clients) (hready : clients.writePtr.Ready)
    (h : Broken clients.writePtr.outcome) :
    ∃ c : Hstcpcli, c.Dead ∧ c.exchanges = clients.writePtr.exchanges + 1 ∧
      writeCustomerHs clients = .ok (true, { clients with writePtr := c }) := by
  rcases write_cases clients (.inl hready) with
    ⟨hnot | hfail, -⟩ | ⟨-, ⟨-, hnot, -⟩ | ⟨c, -, hexch, ⟨-, hdead, hrun⟩ |
      ⟨modified, hanswer, -⟩⟩⟩
  · exact absurd hready hnot
  · rw [hfail] at h
    exact absurd h not_broken_sendFailed
  · exact absurd h hnot
  · exact ⟨c, hdead, hexch, hrun⟩
  · simp [answered, h.normalReply] at hanswer

theorem write_of_answered (clients : Clients) (hready : clients.writePtr.Ready) {modified : Bool}
    (h : answered clients.writePtr.outcome = some modified) :
    ∃ c : Hstcpcli, c.Ready ∧ c.outcomes = clients.writePtr.outcomes ∧
      c.exchanges = clients.writePtr.exchanges + 1 ∧
      writeCustomerHs clients = .ok (modified, { clients with writePtr := c }) := by
  rcases write_cases clients (.inl hready) with
    ⟨hnot | hfail, -⟩ | ⟨-, ⟨hnone, -⟩ | ⟨c, houts, hexch, ⟨hbroken, -⟩ |
      ⟨modified', hanswer, hready', hrun⟩⟩⟩
  · exact absurd hready hnot
  · simp [hfail, answered, normalReply] at h
  · rw [hnone] at h
    cases h
  · simp [answered, hbroken.normalReply] at h
  · obtain rfl : modified = modified' := Option.some.inj (h.symm.trans hanswer)
    exact ⟨c, hready', houts, hexch, hrun⟩

/-! ## A write that was applied -/

/-- The store replied with at least one modified row. -/
def Applied (o : Outcome) : Prop :=
  ∃ numFlds fields, o = .reply 0 numFlds fields ∧
    ∃ v x, some v ∈ (rowsOf numFlds fields.length fields).flatten ∧ stoi v = some x ∧ x > 0

theorem modifiedFields_eq {fields : List (Option Bytes)} {before after : Bool}
    (h : modifiedFields fields before = some after) :
    after = true ↔ before = true ∨ ∃ v x, some v ∈ fields ∧ stoi v = some x ∧ x > 0 := by
  induction fields generalizing before with
  | nil =>
      cases h
      simp
  | cons field fields ih =>
      cases field with
      | none => simpa using ih h
      | some v =>
          obtain ⟨x, hx, hrest⟩ := Option.bind_eq_some_iff.mp h
          rw [ih hrest, Bool.or_eq_true, decide_eq_true_eq, or_assoc]
          refine or_congr_right ⟨?_, ?_⟩
          · rintro (hpos | ⟨w, y, hw, hy⟩)
            · exact ⟨v, x, by simp, hx, hpos⟩
            · exact ⟨w, y, by simp [hw], hy⟩
          · rintro ⟨w, y, hw, hy, hpos⟩
            rcases List.mem_cons.mp hw with heq | hw
            · rw [Option.some.inj heq, hx] at hy
              exact .inl (Option.some.inj hy ▸ hpos)
            · exact .inr ⟨w, y, hw, hy, hpos⟩

theorem modifiedRows_eq {rows : List (List (Option Bytes))} {before after : Bool}
    (h : modifiedRows rows before = some after) :
    after = true ↔ before = true ∨ ∃ v x, some v ∈ rows.flatten ∧ stoi v = some x ∧ x > 0 := by
  induction rows generalizing before with
  | nil =>
      cases h
      simp
  | cons row rows ih =>
      obtain ⟨middle, hrow, hrest⟩ := Option.bind_eq_some_iff.mp h
      rw [ih hrest, modifiedFields_eq hrow, or_assoc]
      refine or_congr_right ⟨?_, ?_⟩
      · rintro (⟨v, x, hv, hx⟩ | ⟨v, x, hv, hx⟩)
        · exact ⟨v, x, by simp [hv], hx⟩
        · exact ⟨v, x, List.mem_append_right _ hv, hx⟩
      · rintro ⟨v, x, hv, hx⟩
        rcases List.mem_append.mp hv with hv | hv
        · exact .inl ⟨v, x, hv, hx⟩
        · exact .inr ⟨v, x, hv, hx⟩

/-- What the loop over a normal reply answers is whether the write was
applied. -/
theorem applied_iff {modified : Bool} (h : answered o = some modified) :
    Applied o ↔ modified = true := by
  obtain ⟨rows, hreply, hrows⟩ := Option.bind_eq_some_iff.mp h
  rw [modifiedRows_eq hrows]
  cases o with
  | reply code numFlds fields =>
      by_cases hcode : code = 0
      · subst hcode
        obtain rfl : rowsOf numFlds fields.length fields = rows := Option.some.inj hreply
        constructor
        · rintro ⟨_, _, heq, v, x, hv, hx⟩
          cases heq
          exact .inr ⟨v, x, hv, hx⟩
        · rintro (h | ⟨v, x, hv, hx⟩)
          · cases h
          · exact ⟨numFlds, fields, rfl, v, x, hv, hx⟩
      · simp [normalReply, hcode] at hreply
  | _ => cases hreply

theorem Broken.not_applied (h : Broken o) : ¬ Applied o := by
  rintro ⟨numFlds, fields, rfl, -⟩
  have hnone := h.normalReply
  simp [Rinha.normalReply] at hnone

/-! ## The retry loop -/

section

variable {row : Fin 5} {transaction : Transaction} {version : Int32} {out : Customer × Int32}
variable {customer left : Customer} {clients clients' : Clients}

theorem attempt_of_readFailed
    (h : readCustomerHs behind customer version clients = .ok ((false, out), clients')) :
    attempt (wireSocket behind) row transaction customer version clients =
      .ok ((none, out.1), clients') := by
  simp only [attempt, wireSocket, bind, StateT.bind, h, Except.bind]
  rfl

theorem attempt_of_readHalted {halt : Halt}
    (h : readCustomerHs behind customer version clients = .error halt) :
    attempt (wireSocket behind) row transaction customer version clients = .error halt := by
  simp only [attempt, wireSocket, bind, StateT.bind, h, Except.bind]

theorem attempt_of_exceeded
    (h : readCustomerHs behind customer version clients = .ok ((true, out), clients'))
    (hlim : limitExceeded out.1 transaction = true) :
    attempt (wireSocket behind) row transaction customer version clients =
      .ok ((some .limitExceeded, out.1), clients') := by
  simp only [attempt, wireSocket, bind, StateT.bind, h, Except.bind, Bool.not_true,
    Bool.false_eq_true, if_false, hlim, if_true]
  rfl

theorem attempt_of_writeHalted {halt : Halt}
    (h : readCustomerHs behind customer version clients = .ok ((true, out), clients'))
    (hlim : limitExceeded out.1 transaction = false)
    (hwrite : writeCustomerHs clients' = .error halt) :
    attempt (wireSocket behind) row transaction customer version clients = .error halt := by
  simp only [attempt, wireSocket, bind, StateT.bind, h, Except.bind, Bool.not_true,
    Bool.false_eq_true, if_false, hlim, hwrite]

/-- An attempt that gets as far as its write returns if that says so. -/
theorem attempt_of_written {modified : Bool} {clients'' : Clients}
    (h : readCustomerHs behind customer version clients = .ok ((true, out), clients'))
    (hlim : limitExceeded out.1 transaction = false)
    (hwrite : writeCustomerHs clients' = .ok (modified, clients'')) :
    attempt (wireSocket behind) row transaction customer version clients =
      .ok ((if modified then some .success else none, applyTransaction out.1 transaction),
        clients'') := by
  simp only [attempt, wireSocket, bind, StateT.bind, h, Except.bind, Bool.not_true,
    Bool.false_eq_true, if_false, hlim, hwrite]
  cases modified <;> rfl

/-! A pass of the loop. -/

theorem executeLoop_of_halted {passes : ℕ} {halt : Halt}
    (h : attempt (wireSocket behind) row transaction customer version clients = .error halt) :
    executeLoop (wireSocket behind) row transaction version (passes + 1) customer clients =
      .error halt := by
  simp only [executeLoop, bind, StateT.bind, h, Except.bind]

theorem executeLoop_of_result {passes : ℕ} {result : TransactionResult}
    (h : attempt (wireSocket behind) row transaction customer version clients =
      .ok ((some result, left), clients')) :
    executeLoop (wireSocket behind) row transaction version (passes + 1) customer clients =
      .ok (some (result, left), clients') := by
  simp only [executeLoop, bind, StateT.bind, h, Except.bind]
  rfl

theorem executeLoop_of_retry {passes : ℕ}
    (h : attempt (wireSocket behind) row transaction customer version clients =
      .ok ((none, left), clients')) :
    executeLoop (wireSocket behind) row transaction version (passes + 1) customer clients =
      executeLoop (wireSocket behind) row transaction version passes left clients' := by
  simp only [executeLoop, bind, StateT.bind, h, Except.bind]

/-- Some write of the call is never confirmed: the attempts before it read
a customer within the limit and were told that no row was modified, and
the exchange of the write itself breaks. Outcome `i` of the reads and `j`
of the writes come next. -/
inductive Unconfirmed (behind : Behind) (transaction : Transaction) (version : Int32)
    (reads writes : ℕ → Outcome) : ℕ → ℕ → Customer → Prop
  | now {i j : ℕ} {customer : Customer} {out : Customer × Int32}
      (hread : delivered (behind i) (reads i) (customer, version) = some out)
      (hlim : limitExceeded out.1 transaction = false) (hbroken : Broken (writes j)) :
      Unconfirmed behind transaction version reads writes i j customer
  | later {i j : ℕ} {customer : Customer} {out : Customer × Int32}
      (hread : delivered (behind i) (reads i) (customer, version) = some out)
      (hlim : limitExceeded out.1 transaction = false) (hmissed : answered (writes j) = some false)
      (h : Unconfirmed behind transaction version reads writes (i + 1) (j + 1)
        (applyTransaction out.1 transaction)) :
      Unconfirmed behind transaction version reads writes i j customer

/-- **A success is an applied write, or an unconfirmed one.** -/
theorem executeLoop_success {passes : ℕ} (hread : clients.readPtr.AtRest)
    (hwrite : clients.writePtr.AtRest)
    (h : executeLoop (wireSocket behind) row transaction version passes customer clients =
      .ok (some (.success, left), clients')) :
    clients.readPtr.Ready ∧ clients.writePtr.Ready ∧
      ((∃ k, clients.writePtr.exchanges ≤ k ∧ k < clients'.writePtr.exchanges ∧
          Applied (clients.writePtr.outcomes k)) ∨
        Unconfirmed behind transaction version clients.readPtr.outcomes clients.writePtr.outcomes
          clients.readPtr.exchanges clients.writePtr.exchanges customer) := by
  -- a pass ends the loop, or leaves clients at rest for the next one
  induction passes generalizing customer clients with
  | zero => cases h
  | succ passes ih =>
      rcases read_cases behind hread (customer, version) with
        ⟨-, ⟨halt, hrun⟩ | ⟨c, hdead, hrun⟩⟩ | ⟨hready, out, c, hout, hready', houts, hexch, hrun⟩
      · rw [executeLoop_of_halted (attempt_of_readHalted hrun)] at h
        cases h
      · -- a dead reader reads nothing more
        rw [executeLoop_of_retry (attempt_of_readFailed hrun)] at h
        exact absurd hdead (@ih _ ⟨c, clients.writePtr⟩ (.inr hdead) hwrite h).1.not_dead
      cases hlim : limitExceeded out.1 transaction with
      | true =>
          rw [executeLoop_of_result (attempt_of_exceeded hrun hlim)] at h
          cases h
      | false =>
          rcases write_cases { clients with readPtr := c } hwrite with
            ⟨-, cw, hdead, hrunw⟩ |
              ⟨hreadyw, ⟨-, -, halt, hrunw⟩ | ⟨cw, houtsw, hexchw, hboth⟩⟩
          · -- nor does a dead writer write
            rw [executeLoop_of_retry (attempt_of_written hrun hlim hrunw)] at h
            exact absurd hdead (@ih _ ⟨c, cw⟩ (.inl hready') (.inr hdead) h).2.1.not_dead
          · rw [executeLoop_of_halted (attempt_of_writeHalted hrun hlim hrunw)] at h
            cases h
          · refine ⟨hready, hreadyw, ?_⟩
            rcases hboth with ⟨hbroken, -, hrunw⟩ | ⟨modified, hanswer, hreadyw', hrunw⟩
            · -- `WriteCustomerHs` reads its receive error as a success
              exact .inr (.now hout hlim hbroken)
            · cases modified with
              | true =>
                  rw [executeLoop_of_result (attempt_of_written hrun hlim hrunw)] at h
                  cases h
                  refine .inl ⟨clients.writePtr.exchanges, Nat.le_refl _, ?_,
                    (applied_iff hanswer).mpr rfl⟩
                  simp only [hexchw]
                  exact Nat.lt_succ_self _
              | false =>
                  -- no row was modified: the version was stale, and the loop reads again
                  rw [executeLoop_of_retry (attempt_of_written hrun hlim hrunw)] at h
                  rcases (@ih _ ⟨c, cw⟩ (.inl hready') (.inl hreadyw') h).2.2 with
                    ⟨k, hlo, hhi, happlied⟩ | hun
                  · simp only [hexchw] at hlo
                    simp only [houtsw] at happlied
                    exact .inl ⟨k, by omega, hhi, happlied⟩
                  · simp only [houts, hexch, houtsw, hexchw] at hun
                    exact .inr (.later hout hlim hanswer hun)

/-- **An unconfirmed write is acknowledged.** -/
theorem executeLoop_of_unconfirmed (clients : Clients) {reads writes : ℕ → Outcome} {i j : ℕ}
    (h : Unconfirmed behind transaction version reads writes i j customer)
    (hread : clients.readPtr.Ready) (hwrite : clients.writePtr.Ready)
    (hreads : clients.readPtr.outcomes = reads) (hwrites : clients.writePtr.outcomes = writes)
    (hi : clients.readPtr.exchanges = i) (hj : clients.writePtr.exchanges = j) :
    ∃ passes left clients',
      executeLoop (wireSocket behind) row transaction version passes customer clients =
        .ok (some (.success, left), clients') ∧
      ∀ k, j ≤ k → k < clients'.writePtr.exchanges → ¬ Applied (writes k) := by
  -- along the outcomes: each write before the unconfirmed one was answered, and missed
  induction h generalizing clients with
  | now hout hlim hbroken =>
      rw [← hreads, ← hi] at hout
      rw [← hwrites, ← hj] at hbroken
      obtain ⟨c, -, -, -, hrun⟩ := read_of_delivered hread hout
      obtain ⟨cw, -, hexchw, hrunw⟩ := write_of_broken { clients with readPtr := c } hwrite hbroken
      refine ⟨1, _, _, executeLoop_of_result (attempt_of_written hrun hlim hrunw), ?_⟩
      intro k hlo hhi
      simp only [hexchw] at hhi
      obtain rfl : k = clients.writePtr.exchanges := by omega
      rw [← hwrites]
      exact hbroken.not_applied
  | later hout hlim hmissed _ ih =>
      rw [← hreads, ← hi] at hout
      rw [← hwrites, ← hj] at hmissed
      obtain ⟨c, hready', houts, hexch, hrun⟩ := read_of_delivered hread hout
      obtain ⟨cw, hreadyw', houtsw, hexchw, hrunw⟩ :=
        write_of_answered { clients with readPtr := c } hwrite hmissed
      obtain ⟨passes, left, clients', hloop, hnone⟩ :=
        ih ⟨c, cw⟩ hready' hreadyw' (houts.trans hreads) (houtsw.trans hwrites)
          (by rw [hexch, hi]) (by rw [hexchw, hj])
      refine ⟨passes + 1, left, clients', ?_, fun k hlo hhi => ?_⟩
      · rw [executeLoop_of_retry (attempt_of_written hrun hlim hrunw)]
        exact hloop
      · rcases Nat.lt_or_eq_of_le hlo with hlt | rfl
        · exact hnone k hlt hhi
        · intro happlied
          rw [← hwrites, ← hj] at happlied
          cases (applied_iff hmissed).mp happlied

/-- **A success is a commit** unless a write goes unconfirmed. Where one
does, the call reports a success that no reply supports. -/
theorem success_applied_iff (behind : Behind) (clients : Clients)
    (hread : clients.readPtr.AtRest) (hwrite : clients.writePtr.AtRest) (id : Int32)
    (transaction : Transaction) (customer : Customer) (version : Int32) :
    (∀ passes left clients',
        mariaDbExecuteTransaction (wireSocket behind) passes id transaction customer version
          clients = .ok (some (.success, left), clients') →
        ∃ k, clients.writePtr.exchanges ≤ k ∧ k < clients'.writePtr.exchanges ∧
          Applied (clients.writePtr.outcomes k)) ↔
      ¬ ((rowIndex id).isSome = true ∧ clients.readPtr.Ready ∧ clients.writePtr.Ready ∧
        Unconfirmed behind transaction version clients.readPtr.outcomes clients.writePtr.outcomes
          clients.readPtr.exchanges clients.writePtr.exchanges customer) := by
  cases hid : rowIndex id with
  | none =>
      simp only [Option.isSome_none, Bool.false_eq_true, false_and, not_false_eq_true, iff_true]
      intro passes left clients' h
      simp only [mariaDbExecuteTransaction, hid] at h
      cases h
  | some row =>
      simp only [mariaDbExecuteTransaction, hid, Option.isSome_some, true_and]
      constructor
      · rintro hall ⟨hready, hreadyw, hun⟩
        obtain ⟨passes, left, clients', hloop, hnone⟩ :=
          executeLoop_of_unconfirmed clients hun hready hreadyw rfl rfl rfl rfl
        obtain ⟨k, hlo, hhi, happlied⟩ := hall passes left clients' hloop
        exact hnone k hlo hhi happlied
      · intro hnot passes left clients' h
        obtain ⟨hready, hreadyw, happlied | hun⟩ := executeLoop_success hread hwrite h
        · exact happlied
        · exact absurd ⟨hready, hreadyw, hun⟩ hnot

/-- A client that has just been opened. -/
def openClient (outcomes : ℕ → Outcome) : Hstcpcli where
  fdOpen := true
  responseEndOffset := false
  numFlds := 0
  numReqBufd := 0
  numReqSent := 0
  numReqRcvd := 0
  errorCode := 0
  flds := []
  outcomes := outcomes
  exchanges := 0

theorem ready_openClient (outcomes : ℕ → Outcome) : (openClient outcomes).Ready :=
  ⟨rfl, rfl, rfl, rfl, rfl, show ¬((0 : Int32) < 0) by decide⟩

/-- The first row at its first version, as its fields come in. -/
def firstRow : List (Option Bytes) :=
  [some (Text.bytes "0"), some ((initialCustomer 100000).image fun _ => 0), some (Text.bytes "1")]

/-- The reply to a read of it. -/
def rowReply : Outcome := .reply 0 3 firstRow

theorem delivered_rowReply (behind : ℕ → ℕ → UInt8) (out : Customer × Int32) :
    delivered behind rowReply out = some (initialCustomer 100000, 1) := by
  have hversion : stoi (Text.bytes "1") = some 1 := by decide
  have hread : delivered behind rowReply out = (stoi (Text.bytes "1")).bind fun version =>
      some (.ofField ((initialCustomer 100000).image fun _ => 0) (behind 0), version) := rfl
  rw [hread, hversion, Customer.ofField_image]
  rfl

/-- Memory that is zero. -/
def zeros : Behind := fun _ _ _ => 0

/-- A store that answers a debit of one with one modified row: the call
succeeds, and its one write was applied. -/
theorem success_applied_debit :
    ∃ passes left clients',
      mariaDbExecuteTransaction (wireSocket zeros) passes 1
          { Transaction.zero with value := -1 } (initialCustomer 0) 0
          ⟨openClient fun _ => rowReply, openClient fun _ => .reply 0 1 [some (Text.bytes "1")]⟩ =
        .ok (some (.success, left), clients') ∧
      ∃ k, 0 ≤ k ∧ k < clients'.writePtr.exchanges ∧
        Applied (.reply 0 1 [some (Text.bytes "1")]) := by
  have hready : (⟨openClient fun _ => rowReply,
      openClient fun _ => .reply 0 1 [some (Text.bytes "1")]⟩ : Clients).readPtr.Ready :=
    ready_openClient _
  have hanswered : answered (.reply 0 1 [some (Text.bytes "1")]) = some true := by decide
  obtain ⟨c, -, -, -, hread⟩ := @read_of_delivered zeros _ hready (initialCustomer 0, 0) _
    (delivered_rowReply _ _)
  obtain ⟨cw, -, -, -, hwrite⟩ := write_of_answered
    ⟨c, openClient fun _ => .reply 0 1 [some (Text.bytes "1")]⟩ (ready_openClient _) hanswered
  have hattempt : attempt (wireSocket zeros) 0 { Transaction.zero with value := -1 } _ _ _ =
      _ := attempt_of_written hread (by decide) hwrite
  have hloop : executeLoop (wireSocket zeros) 0 _ _ (0 + 1) _ _ = _ :=
    executeLoop_of_result hattempt
  refine ⟨1, _, _, hloop, (success_applied_iff zeros
    ⟨openClient fun _ => rowReply, openClient fun _ => .reply 0 1 [some (Text.bytes "1")]⟩
    (.inl (ready_openClient _)) (.inl (ready_openClient _)) 1 { Transaction.zero with value := -1 }
    (initialCustomer 0) 0).mpr ?_ 1 _ _ hloop⟩
  rintro ⟨-, -, -, hun⟩
  cases hun with
  | now _ _ hbroken => rcases hbroken with h | ⟨_, _, _, h, hcode⟩ <;> cases h; exact hcode rfl
  | later _ _ hmissed _ => exact absurd hmissed (by decide)

/-- One that ends the connection before it answers the write: the debit is
acknowledged. -/
theorem not_applied_endOfFile :
    ∃ passes left clients',
      mariaDbExecuteTransaction (wireSocket zeros) passes 1
          { Transaction.zero with value := -1 } (initialCustomer 0) 0
          ⟨openClient fun _ => rowReply, openClient fun _ => .endOfFile⟩ =
        .ok (some (.success, left), clients') ∧
      ∀ k, 0 ≤ k → k < clients'.writePtr.exchanges → ¬ Applied .endOfFile :=
  executeLoop_of_unconfirmed ⟨openClient fun _ => rowReply, openClient fun _ => .endOfFile⟩
    (.now (delivered_rowReply _ _) (by decide) (.inl rfl)) (ready_openClient _)
    (ready_openClient _) rfl rfl rfl rfl

end

end Rinha
