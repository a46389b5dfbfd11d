import Rinha.Dena.Pipeline
import Rinha.Dena.Model.HandlerSocket
/-!
# Opening an index

The other request the program makes, read back like the first: a line
that starts with `P` asks for an index, any other for rows
(`readAsked`). A client that asks for its index comes to one of three
things (`openIndex_spec`): it is refused; it is ready, with all of the
answer behind it; or it has lost its connection, which the start-up does
not take for a failure.
-/

namespace Rinha
namespace Dena
namespace Hstcpcli

variable {w : StringBuffer} {r : OpenIndex}

/-! ## The request -/

/-- The tokens of a request for an index. -/
def OpenIndex.tokens (r : OpenIndex) : List Bytes :=
  [[80], numeral (UInt32.ofNat r.pstId), r.dbn, r.tbl, r.idx, r.retflds] ++ r.filflds.toList

/-- Its line, without its newline. -/
def OpenIndex.line (r : OpenIndex) : Bytes := [tab].intercalate r.tokens

/-- And with it. -/
def openText (r : OpenIndex) : Bytes := r.line ++ [newline]

theorem openText_ne_nil : openText r ≠ [] := by simp [openText]

theorem contents_writeOpenIndex :
    (writeOpenIndex w r).contents = w.contents ++ openText r := by
  have hfirst : ∀ v : UInt32,
      ((w.append [80, tab]).appendUint32 v).contents = w.contents ++ [80] ++ tab :: numeral v := by
    intro v
    rw [StringBuffer.contents_appendUint32, StringBuffer.contents_append]
    simp [numeral]
  rw [openText, OpenIndex.line, OpenIndex.tokens, List.cons_append, Delimited.intercalate_cons]
  obtain ⟨pstId, dbn, tbl, idx, retflds, filflds⟩ := r
  cases filflds with
  | none =>
      rw [writeOpenIndex, StringBuffer.contents_append, contents_token, contents_token,
        contents_token, contents_token, hfirst]
      simp
  | some filflds =>
      rw [writeOpenIndex, StringBuffer.contents_append, contents_token, contents_token,
        contents_token, contents_token, contents_token, hfirst]
      simp

/-! ## Reading it -/

/-- A request, as it is read: for an index or for rows. -/
inductive Asked
  | openIndex (r : Option OpenIndex)
  | exec (r : Option ExecGeneric)

/-- The tokens behind the `P`. -/
def readOpen : List Bytes → Option OpenIndex
  | [pstId, dbn, tbl, idx, retflds] =>
      some { pstId := (ui32 pstId).toNat, dbn := dbn, tbl := tbl, idx := idx, retflds := retflds }
  | [pstId, dbn, tbl, idx, retflds, filflds] =>
      some
        { pstId := (ui32 pstId).toNat
          dbn := dbn
          tbl := tbl
          idx := idx
          retflds := retflds
          filflds := some filflds }
  | _ => none

/-- The tokens of a line. -/
def readLineTokens : List Bytes → Asked
  | [80] :: tokens => .openIndex (readOpen tokens)
  | tokens => .exec (readTokens tokens)

/-- What is sent, line by line. -/
def readAsked (sent : Bytes) : List Asked :=
  (sent.splitOn newline).dropLast.map fun line => readLineTokens (line.splitOn tab)

/-- Names that can stand in a line. -/
structure OpenIndex.Plain (r : OpenIndex) : Prop where
  pstId : r.pstId < 2 ^ 32
  dbn : Clean r.dbn
  tbl : Clean r.tbl
  idx : Clean r.idx
  retflds : Clean r.retflds
  filflds : ∀ filflds ∈ r.filflds, Clean filflds

theorem OpenIndex.Plain.clean (h : r.Plain) : ∀ token ∈ r.tokens, Clean token := by
  intro token htoken
  simp only [OpenIndex.tokens, List.cons_append, List.nil_append, List.mem_cons,
    Option.mem_toList] at htoken
  rcases htoken with rfl | rfl | rfl | rfl | rfl | rfl | htoken
  · intro c hc
    rw [List.mem_singleton.mp hc]
    decide
  · exact clean_numeral
  · exact h.dbn
  · exact h.tbl
  · exact h.idx
  · exact h.retflds
  · exact h.filflds token htoken

/-- A line of clean tokens is read as its tokens. -/
theorem readAsked_line {tokens : List Bytes} (h : ∀ token ∈ tokens, Clean token)
    (hne : tokens ≠ []) :
    readAsked ([tab].intercalate tokens ++ [newline]) = [readLineTokens tokens] := by
  have hline : newline ∉ [tab].intercalate tokens := newline_notMem_intercalate h
  have hsplit : ([tab].intercalate tokens).splitOn tab = tokens :=
    List.splitOn_intercalate tab (fun token htoken hmem => (h token htoken tab hmem).1 rfl) hne
  rw [readAsked, List.splitOn_append_cons_self_of_not_mem hline, List.splitOn_nil]
  simp [hsplit]

/-- **A request for an index is read back.** -/
theorem readAsked_openText (h : r.Plain) : readAsked (openText r) = [.openIndex (some r)] := by
  have hpst : (ui32 (numeral (UInt32.ofNat r.pstId))).toNat = r.pstId := by
    rw [ui32_numeral, UInt32.toNat_ofNat_of_lt' h.pstId]
  rw [openText, OpenIndex.line, readAsked_line h.clean (List.cons_ne_nil _ _)]
  obtain ⟨pstId, dbn, tbl, idx, retflds, filflds⟩ := r
  cases filflds with
  | none => simp [OpenIndex.tokens, readLineTokens, readOpen, hpst]
  | some filflds => simp [OpenIndex.tokens, readLineTokens, readOpen, hpst]

/-- **And one for rows** is not taken for it. -/
theorem readAsked_text {r : ExecGeneric} (h : r.Plain) :
    readAsked (text [r]) = [.exec (some r)] := by
  have htext : text [r] = [tab].intercalate r.tokens ++ [newline] := by
    rw [text, List.map_singleton, Delimited.ended_cons, Delimited.ended_nil]
    rfl
  rw [htext, readAsked_line h.clean (List.cons_ne_nil _ _)]
  have hnumber : numeral (UInt32.ofNat r.pstId) ≠ [80] := fun heq => by
    have hdigit := Decimal.isDigit_of_mem_ofNat (n := (UInt32.ofNat r.pstId).toNat) 80
      (by rw [show Decimal.ofNat _ = numeral _ from rfl, heq]; exact List.mem_singleton_self 80)
    exact absurd hdigit (by decide)
  have hexec : readLineTokens r.tokens = .exec (readTokens r.tokens) := by
    unfold readLineTokens
    split
    · rename_i heq
      exact absurd (List.cons.inj heq).1 hnumber
    · rfl
  rw [hexec, readTokens_tokens h]

/-! ## What it comes to -/

/-- What a client that asks for its index comes to. -/
inductive Opening
  | refused
  | ready
  | lost
  deriving DecidableEq

/-- The first line of what has come, where it has ended. -/
def firstLine (bytes : Bytes) : Option Bytes :=
  if newline ∈ bytes then some (bytes.takeWhile (· ≠ newline)) else none

/-- It is refused where it has no connection, where the store does not take
the whole request, and where the answer has a positive code; and it is lost
where there is no answer, or one with a code past `INT_MAX`. -/
def opening (connection : Connection) (request : Bytes) (taken : WriteResult) (arrived : Bytes) :
    Opening :=
  if connection.failure.isSome ∨ connection.fdOpen = false then .refused
  else if sendCount request.length taken ≠ request.length then .refused
  else
    match firstLine arrived with
    | none => .lost
    | some line =>
        let code := (readLine line).code.toInt32
        if code = 0 then .ready else if code < 0 then .lost else .refused

/-- A client between calls: it may send, and there is nothing left to read. -/
structure Idle (c : Hstcpcli) : Prop extends Sendable c where
  response : c.responseEndOffset = 0
  stream : c.readbuf.contents ++ c.inbox.bytes = []
  ending : c.inbox.ending = .eagain

theorem idle_create {connection : Connection} (hfailure : connection.failure = none)
    (hopen : connection.fdOpen = true) : connection.create.Idle where
  sync := ⟨rfl, rfl⟩
  bufd := rfl
  written := rfl
  opened := hopen
  error := by
    rw [Connection.create, create, hfailure]
    exact (by decide : ¬(0 : Int32) < 0)
  response := rfl
  stream := rfl
  ending := rfl

/-- What has come, around the end of its first line. -/
theorem firstLine_eq_some {bytes line : Bytes} (h : firstLine bytes = some line) :
    bytes = line ++ newline :: (bytes.dropWhile (· ≠ newline)).tail ∧ newline ∉ line := by
  unfold firstLine at h
  split at h
  · rename_i hmem
    obtain rfl := Option.some.inj h
    have hnot : newline ∉ bytes.takeWhile (· ≠ newline) := fun hin => by
      simpa using List.all_eq_true.mp List.all_takeWhile newline hin
    refine ⟨?_, hnot⟩
    cases hdrop : bytes.dropWhile (· ≠ newline) with
    | nil =>
        have hall : bytes.takeWhile (· ≠ newline) = bytes := by
          conv_rhs => rw [← List.takeWhile_append_dropWhile (p := (· ≠ newline)) (l := bytes)]
          rw [hdrop, List.append_nil]
        rw [hall] at hnot
        exact absurd hmem hnot
    | cons c rest =>
        have hc : c = newline := by
          have hhead := List.head?_dropWhile_not (· ≠ newline) bytes
          rw [hdrop] at hhead
          simpa using hhead
        conv_lhs => rw [← List.takeWhile_append_dropWhile (p := (· ≠ newline)) (l := bytes)]
        rw [hdrop, hc, List.tail_cons]
  · cases h

section

variable {σ : Type} {net : Network σ} {peer : σ} {c : Hstcpcli}

/-- The request goes out whole, or the client is closed. -/
theorem Idle.requestSend_open (h : c.Idle) (net : Network σ) (peer : σ) (r : OpenIndex) :
    let out := net.exchange (openText r) peer
    if sendCount (openText r).length out.1 = (openText r).length then
      ∃ c' : Hstcpcli, requestSend net (c.requestBufOpenIndex r) peer = ((0, c'), out.2.2) ∧
        c'.Awaiting ∧ c'.numReqSent = 1 ∧ c'.writebuf.contents = [] ∧
        c'.readbuf.contents ++ c'.inbox.bytes = out.2.1.bytes ∧
        c'.inbox.ending = out.2.1.ending
    else ∃ (c' : Hstcpcli) (str : String),
      requestSend net (c.requestBufOpenIndex r) peer =
        ((-1, c'.close.setError (-1) str), out.2.2) := by
  intro out
  have hbuffered : c.requestBufOpenIndex r =
      { c with writebuf := writeOpenIndex c.writebuf r, numReqBufd := 1 } := by
    obtain ⟨hsent, hrcvd⟩ := h.sync
    rw [requestBufOpenIndex, if_neg (by omega), h.bufd]
  have hcontents : (writeOpenIndex c.writebuf r).contents = openText r := by
    rw [contents_writeOpenIndex, h.written, List.nil_append]
  obtain ⟨writebuf, hwritten, hsend⟩ := h.requestSend_written net peer
    hcontents openText_ne_nil Nat.one_pos
  rw [hbuffered]
  split
  · rename_i hfull
    rw [if_pos hfull] at hsend
    refine ⟨_, hsend, ⟨?_, h.bufd, Nat.one_pos, h.sync.2, h.response, h.opened⟩, rfl, hwritten,
      ?_, ?_⟩
    · exact (by decide : ¬(0 : Int32) < 0)
    · have hstream := h.stream
      obtain ⟨hread, hinbox⟩ := List.append_eq_nil_iff.mp hstream
      simp only [clearError, extend, if_pos h.ending, hread, List.nil_append]
      simp only [Inbox.bytes, List.flatten_append] at hinbox ⊢
      rw [hinbox, List.nil_append]
    · simp only [extend, if_pos h.ending]
      rfl
  · rename_i hshort
    rwa [if_neg hshort] at hsend

/-- A client without a connection is refused by `request_send`. -/
theorem openIndex_not_connected {connection : Connection}
    (h : connection.failure.isSome ∨ connection.fdOpen = false) (r : OpenIndex) :
    (openIndex net connection.create r peer).1 = false := by
  have hbuffered : connection.create.requestBufOpenIndex r =
      { connection.create with
        writebuf := writeOpenIndex connection.create.writebuf r
        numReqBufd := 1 } :=
    if_neg fun hbusy => hbusy.elim (Nat.lt_irrefl 0) (Nat.lt_irrefl 0)
  obtain ⟨c', hsend⟩ : ∃ c', requestSend net (connection.create.requestBufOpenIndex r) peer =
      ((-1, c'), peer) := by
    rw [hbuffered, requestSend]
    by_cases hfailure : connection.failure.isSome
    · have hcode : connection.create.errorCode = -1 := if_pos hfailure
      simp only [hcode]
      exact ⟨_, rfl⟩
    · have hcode : connection.create.errorCode = 0 := if_neg hfailure
      have hclosed : connection.create.fdOpen = false := h.resolve_left hfailure
      simp only [hcode, clearError, hclosed]
      exact ⟨_, rfl⟩
  simp only [openIndex, hsend]
  rfl

theorem Idle.openIndex_short (h : c.Idle) (r : OpenIndex)
    (hshort : sendCount (openText r).length (net.exchange (openText r) peer).1 ≠
      (openText r).length) : (openIndex net c r peer).1 = false := by
  have hsend := h.requestSend_open net peer r
  rw [if_neg hshort] at hsend
  obtain ⟨c', str, hsend⟩ := hsend
  simp only [openIndex, hsend]
  rfl

/-- With no line of an answer the client is closed, and goes on. -/
theorem Idle.openIndex_none (h : c.Idle) (r : OpenIndex)
    (hfull : sendCount (openText r).length (net.exchange (openText r) peer).1 =
      (openText r).length)
    (hnone : newline ∉ (net.exchange (openText r) peer).2.1.bytes) :
    ∃ c' : Hstcpcli, openIndex net c r peer =
      (true, c'.close.setError (-1) "read: eof", (net.exchange (openText r) peer).2.2) := by
  have hsend := h.requestSend_open net peer r
  rw [if_pos hfull] at hsend
  obtain ⟨c₁, hsend, hawaiting, -, -, hstream, -⟩ := hsend
  obtain ⟨c₂, hrecv⟩ := responseRecv_none (n := 0) hawaiting (by rwa [hstream])
  refine ⟨c₂, ?_⟩
  simp only [openIndex, hsend, hrecv]
  rfl

/-- With a line its code decides. -/
theorem Idle.openIndex_line (h : c.Idle) (r : OpenIndex)
    (hfull : sendCount (openText r).length (net.exchange (openText r) peer).1 =
      (openText r).length) {line rest : Bytes}
    (hbytes : (net.exchange (openText r) peer).2.1.bytes = line ++ newline :: rest)
    (hline : newline ∉ line) :
    ∃ c₁ c₂ : Hstcpcli, c₁.Awaiting ∧ c₁.numReqSent = 1 ∧ c₁.writebuf.contents = [] ∧
      c₁.inbox.ending = (net.exchange (openText r) peer).2.1.ending ∧
      Received c₁ line rest c₂ ∧
      openIndex net c r peer =
        if c₂.errorCode ≥ 0 then
          if c₂.errorCode ≠ 0 then (false, c₂, (net.exchange (openText r) peer).2.2)
          else (true, c₂.responseBufRemove, (net.exchange (openText r) peer).2.2)
        else (true, c₂, (net.exchange (openText r) peer).2.2) := by
  have hsend := h.requestSend_open net peer r
  rw [if_pos hfull] at hsend
  obtain ⟨c₁, hsend, hawaiting, hsent, hwritten, hstream, hending⟩ := hsend
  obtain ⟨c₂, hrecv, hreceived⟩ := responseRecv_line (n := 0) hawaiting
    (hstream.trans hbytes) hline
  refine ⟨c₁, c₂, hawaiting, hsent, hwritten, hending, hreceived, ?_⟩
  simp only [openIndex, hsend, hrecv]
  rfl

end

/-- **Half of the start-up.** A client that is refused ends it; one that is
ready has the answer behind it and may be asked for rows; and one that is
lost does not end it, though it has an error that stays. -/
theorem openIndex_spec {σ : Type} (net : Network σ) (connection : Connection) (r : OpenIndex)
    (peer : σ) :
    let out := net.exchange (openText r) peer
    let opened := openIndex net connection.create r peer
    match opening connection (openText r) out.1 out.2.1.bytes with
    | .refused => opened.1 = false
    | .ready => opened.1 = true ∧ opened.2.2 = out.2.2 ∧ opened.2.1.Sendable ∧
        opened.2.1.responseEndOffset = 0 ∧
        opened.2.1.readbuf.contents ++ opened.2.1.inbox.bytes =
          (out.2.1.bytes.dropWhile (· ≠ newline)).tail ∧
        opened.2.1.inbox.ending = out.2.1.ending
    | .lost => opened.1 = true ∧ opened.2.2 = out.2.2 ∧ opened.2.1.errorCode < 0 := by
  intro out opened
  by_cases hconnected : connection.failure.isSome ∨ connection.fdOpen = false
  · rw [opening, if_pos hconnected]
    exact openIndex_not_connected hconnected r
  rw [opening, if_neg hconnected]
  have hidle : connection.create.Idle := by
    obtain ⟨hfailure, hopen⟩ := not_or.mp hconnected
    exact idle_create (by simpa using hfailure) (by simpa using hopen)
  by_cases hfull : sendCount (openText r).length out.1 = (openText r).length
  swap
  · rw [if_pos hfull]
    exact hidle.openIndex_short r hfull
  rw [if_neg (not_not_intro hfull)]
  cases hfirst : firstLine out.2.1.bytes with
  | none =>
      have hnone : newline ∉ out.2.1.bytes := fun hmem => by
        rw [firstLine, if_pos hmem] at hfirst
        cases hfirst
      obtain ⟨c', hopened⟩ := hidle.openIndex_none r hfull hnone
      simp only [opened, hopened]
      exact ⟨trivial, rfl, (by decide : (-1 : Int32) < 0)⟩
  | some line =>
      obtain ⟨hbytes, hline⟩ := firstLine_eq_some hfirst
      obtain ⟨c₁, c₂, hawaiting, hsent, hwritten, hending, hreceived, hopened⟩ :=
        hidle.openIndex_line r hfull hbytes hline
      have htook : ¬(readLine line).code.toInt32 < 0 →
          Took c₁ (out.2.1.bytes.dropWhile (· ≠ newline)).tail c₂.responseBufRemove :=
        hreceived.toHolding.took hawaiting
      have hcode := hreceived.errorCode
      simp only [opened, hopened, hcode]
      generalize (readLine line).code.toInt32 = code at hcode htook ⊢
      have hge : code ≥ 0 ↔ ¬code < 0 := Int32.not_lt.symm
      simp only [hge]
      by_cases hlost : code < 0
      · have hzero : code ≠ 0 := by
          rintro rfl
          exact absurd hlost (by decide)
        rw [if_neg hzero, if_pos hlost, if_neg (not_not_intro hlost)]
        exact ⟨rfl, rfl, hcode ▸ hlost⟩
      rw [if_pos hlost]
      by_cases hzero : code = 0
      · have htook := htook hlost
        rw [if_pos hzero, if_neg (not_not_intro hzero)]
        refine ⟨rfl, rfl, ⟨⟨?_, htook.rcvd⟩, htook.bufd, ?_, htook.opened, htook.error⟩,
          htook.response, htook.stream, ?_⟩
        · rw [htook.sent, hsent]
        · rw [htook.writebuf, hwritten]
        · rw [htook.ending, hending]
      · rw [if_neg hzero, if_neg hlost, if_pos hzero]

end Hstcpcli
end Dena
end Rinha
