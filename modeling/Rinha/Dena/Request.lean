import Rinha.Dena.Escape
import Rinha.Dena.Model.Hstcpcli
/-!
# Request lines

What a request buffers is its tokens with tabs between them and a newline
at the end. No value, escaped, holds either, so the requests sent on a
connection split back into lines, each line into its tokens and each token
into what was passed in (`readRequests_sent`), whatever bytes the values
are.
-/

namespace Rinha
namespace Dena
namespace Hstcpcli

variable {w : StringBuffer} {r : ExecGeneric} {rs : List ExecGeneric} {v : UInt32}
variable {value : Option Bytes} {values : List (Option Bytes)}

/-! ## Tokens -/

/-- A value as a token. -/
def delimValue : Option Bytes → Bytes
  | none => [0]
  | some v => escape v

/-- A number as a token. -/
def numeral (v : UInt32) : Bytes := Decimal.ofNat v.toNat

def Filter.tokens (f : Filter) : List Bytes :=
  [f.filterType, f.op, numeral (UInt32.ofNat f.ffOffset), delimValue f.val]

/-- What stands behind the values to look for. -/
def ExecGeneric.options (r : ExecGeneric) : List Bytes :=
  [numeral r.limit] ++ (if r.HasSkip then [numeral r.skip] else []) ++
    (if r.invaluesKeypart ≥ 0 then
      [[64], numeral r.invaluesKeypart.toUInt32, numeral (UInt32.ofNat r.invalues.length)] ++
        r.invalues.map delimValue
    else []) ++
    r.fils.flatMap Filter.tokens ++
    (if r.modOp.length ≠ 0 then r.modOp :: r.mvs.map delimValue else [])

/-- The tokens behind the first. -/
def ExecGeneric.more (r : ExecGeneric) : List Bytes :=
  [r.op, numeral (UInt32.ofNat r.kvs.length)] ++ r.kvs.map delimValue ++
    (if r.HasOptions then r.options else [])

/-- The tokens of a request. -/
def ExecGeneric.tokens (r : ExecGeneric) : List Bytes :=
  numeral (UInt32.ofNat r.pstId) :: r.more

/-- The line of a request, without its newline. -/
def ExecGeneric.line (r : ExecGeneric) : Bytes := [tab].intercalate r.tokens

theorem contents_appendDelimValue :
    (appendDelimValue w value).contents = w.contents ++ tab :: delimValue value := by
  cases value with
  | none => exact StringBuffer.contents_append
  | some v =>
      rw [appendDelimValue, StringBuffer.contents_escapeString, StringBuffer.contents_append,
        List.append_assoc]
      rfl

theorem contents_foldl_appendDelimValue :
    (values.foldl appendDelimValue w).contents =
      w.contents ++ Delimited.led tab (values.map delimValue) := by
  induction values generalizing w with
  | nil => simp
  | cons value values ih =>
      rw [List.foldl_cons, ih, contents_appendDelimValue, List.map_cons, Delimited.led_cons,
        List.append_assoc, List.cons_append]

theorem contents_numeral :
    ((w.append [tab]).appendUint32 v).contents = w.contents ++ tab :: numeral v := by
  rw [StringBuffer.contents_appendUint32, StringBuffer.contents_append, List.append_assoc]
  rfl

theorem contents_token {token : Bytes} :
    ((w.append [tab]).append token).contents = w.contents ++ tab :: token := by
  rw [StringBuffer.contents_append, StringBuffer.contents_append, List.append_assoc]
  rfl

theorem contents_writeInvalues : (writeInvalues w r).contents = w.contents ++
    Delimited.led tab (if r.invaluesKeypart ≥ 0 then
        [[64], numeral r.invaluesKeypart.toUInt32, numeral (UInt32.ofNat r.invalues.length)] ++
          r.invalues.map delimValue
      else []) := by
  unfold writeInvalues
  split
  · rw [contents_foldl_appendDelimValue, contents_numeral, StringBuffer.contents_appendUint32,
      StringBuffer.contents_append]
    simp [numeral]
  · simp

theorem contents_filters {fils : List Filter} :
    (fils.foldl writeFilter w).contents =
      w.contents ++ Delimited.led tab (fils.flatMap Filter.tokens) := by
  induction fils generalizing w with
  | nil => simp
  | cons f fils ih =>
      rw [List.foldl_cons, ih, List.flatMap_cons, Delimited.led_append, writeFilter,
        contents_appendDelimValue, contents_numeral, contents_token, contents_token]
      simp [Filter.tokens]

theorem contents_writeModification : (writeModification w r).contents = w.contents ++
    Delimited.led tab
      (if r.modOp.length ≠ 0 then r.modOp :: r.mvs.map delimValue else []) := by
  unfold writeModification
  split
  · rw [contents_foldl_appendDelimValue, contents_token, Delimited.led_cons, List.append_assoc,
      List.cons_append]
  · simp

theorem contents_writeOptions :
    (writeOptions w r).contents = w.contents ++ Delimited.led tab r.options := by
  have hskip : ∀ w : StringBuffer,
      (if r.HasSkip then (w.append [tab]).appendUint32 r.skip else w).contents =
        w.contents ++ Delimited.led tab (if r.HasSkip then [numeral r.skip] else []) := by
    intro w
    split
    · rw [contents_numeral]
      simp
    · simp
  rw [writeOptions, contents_writeModification, contents_filters, contents_writeInvalues, hskip,
    contents_numeral, ExecGeneric.options]
  simp only [Delimited.led_append, Delimited.led_cons, List.append_assoc, List.nil_append,
    List.cons_append]

/-- **What a request buffers** is its line, ended. -/
theorem contents_writeExecGeneric :
    (writeExecGeneric w r).contents = w.contents ++ r.line ++ [newline] := by
  have hoptions : ∀ w : StringBuffer,
      (if r.HasOptions then writeOptions w r else w).contents =
        w.contents ++ Delimited.led tab (if r.HasOptions then r.options else []) := by
    intro w
    split
    · exact contents_writeOptions
    · simp
  rw [writeExecGeneric, StringBuffer.contents_append, hoptions, contents_foldl_appendDelimValue,
    contents_numeral, contents_token, StringBuffer.contents_appendUint32, ExecGeneric.line,
    ExecGeneric.tokens, Delimited.intercalate_cons, ExecGeneric.more]
  simp [numeral]

/-! ## Reading them -/

/-- A token, read as a value. -/
def readValue (token : Bytes) : Option Bytes :=
  if token = [0] then none else some (unescape token).1

/-- The tokens behind the values to look for: a limit, a skip, and the
modification with its values. -/
def readOptions (r : ExecGeneric) : List Bytes → ExecGeneric
  | [] => r
  | [limit] => { r with limit := ui32 limit }
  | [limit, skip] => { r with limit := ui32 limit, skip := ui32 skip }
  | limit :: skip :: modOp :: mvs =>
      { r with
        limit := ui32 limit
        skip := ui32 skip
        modOp := modOp
        mvs := mvs.map readValue }

/-- The tokens of a request without filters and lists of values. -/
def readTokens : List Bytes → Option ExecGeneric
  | pstId :: op :: count :: rest =>
      let r : ExecGeneric :=
        { pstId := (ui32 pstId).toNat
          op := op
          kvs := (rest.take (ui32 count).toNat).map readValue
          limit := 0
          skip := 0
          modOp := []
          mvs := [] }
      some (readOptions r (rest.drop (ui32 count).toNat))
  | _ => none

/-- What is sent, line by line. -/
def readRequests (sent : Bytes) : List (Option ExecGeneric) :=
  (sent.splitOn newline).dropLast.map fun line => readTokens (line.splitOn tab)

/-- A request as this program makes them: an index and an operation, with
or without a modification. -/
structure ExecGeneric.Plain (r : ExecGeneric) : Prop where
  pstId : r.pstId < 2 ^ 32
  kvs : r.kvs.length < 2 ^ 32
  op : ∀ c ∈ r.op, c ≠ tab ∧ c ≠ newline
  modOp : ∀ c ∈ r.modOp, c ≠ tab ∧ c ≠ newline
  mvs : r.modOp = [] → r.mvs = []
  fils : r.fils = []
  keypart : r.invaluesKeypart = -1
  invalues : r.invalues = []

theorem readValue_delimValue (value : Option Bytes) : readValue (delimValue value) = value := by
  cases value with
  | none => rfl
  | some v =>
      have hne : escape v ≠ [0] := fun h => by
        have hnul := @nul_notMem_escape v
        rw [h] at hnul
        exact hnul (List.mem_singleton_self 0)
      rw [readValue, delimValue, if_neg hne, unescape_escape]

theorem map_readValue : (values.map delimValue).map readValue = values := by
  rw [List.map_map]
  conv_rhs => rw [← List.map_id values]
  exact List.map_congr_left fun value _ => readValue_delimValue value

/-- `read_ui32` of a text of digits, while the value fits. -/
theorem ui32_eq {token : Bytes} (h : ∀ c ∈ token, Decimal.isDigit c = true) :
    ui32 token = UInt32.ofNat (Decimal.value token) := by
  have key : ∀ v : ℕ, token.foldl
      (fun v ch => if 48 ≤ ch && ch ≤ 57 then v * 10 + UInt32.ofNat (ch.toNat - 48) else v)
        (UInt32.ofNat v) =
      UInt32.ofNat (token.foldl (fun v b => v * 10 + (b.toNat - 48)) v) := by
    induction token with
    | nil => exact fun _ => rfl
    | cons c token ih =>
        intro v
        have hc : (48 ≤ c && c ≤ 57) = true := h c List.mem_cons_self
        rw [List.foldl_cons, List.foldl_cons, if_pos hc,
          ← ih fun x hx => h x (List.mem_cons_of_mem _ hx)]
        congr 1
        rw [UInt32.ofNat_add, UInt32.ofNat_mul]
        rfl
  exact key 0

theorem ui32_numeral (v : UInt32) : ui32 (numeral v) = v := by
  rw [numeral, ui32_eq Decimal.isDigit_of_mem_ofNat, Decimal.value_ofNat, UInt32.ofNat_toNat]

/-- A token that can stand between tabs, in a line. -/
def Clean (token : Bytes) : Prop := ∀ c ∈ token, c ≠ tab ∧ c ≠ newline

theorem clean_bytes (token : Bytes) (h : (token.all fun c => c ≠ tab && c ≠ newline) = true) :
    Clean token := by
  intro c hc
  simpa using List.all_eq_true.mp h c hc

/-- Tokens with tabs between them are no more than a line. -/
theorem newline_notMem_intercalate {tokens : List Bytes} (h : ∀ token ∈ tokens, Clean token) :
    newline ∉ [tab].intercalate tokens := by
  cases tokens with
  | nil => simp
  | cons token tokens =>
      intro hmem
      rw [Delimited.intercalate_cons] at hmem
      rcases List.mem_append.mp hmem with hmem | hmem
      · exact (h token List.mem_cons_self newline hmem).2 rfl
      · obtain ⟨token', htoken, hmem⟩ := List.mem_flatMap.mp hmem
        rcases List.mem_cons.mp hmem with hsep | hmem
        · exact absurd hsep (by decide)
        · exact (h token' (List.mem_cons_of_mem _ htoken) newline hmem).2 rfl

theorem clean_numeral : Clean (numeral v) := by
  intro c hc
  have hdigit := Decimal.le_of_isDigit (Decimal.isDigit_of_mem_ofNat c hc)
  constructor
  · rintro rfl
    exact absurd hdigit (by decide)
  · rintro rfl
    exact absurd hdigit (by decide)

theorem clean_delimValue : Clean (delimValue value) := by
  intro c hc
  cases value with
  | none =>
      rw [List.mem_singleton.mp hc]
      decide
  | some v => exact ⟨fun h => tab_notMem_escape (h ▸ hc), fun h => newline_notMem_escape (h ▸ hc)⟩

theorem ExecGeneric.Plain.options_eq (h : r.Plain) : r.options =
    numeral r.limit :: if r.skip ≠ 0 ∨ r.modOp ≠ [] then
      numeral r.skip :: if r.modOp ≠ [] then r.modOp :: r.mvs.map delimValue else []
    else [] := by
  have hkeypart : ¬r.invaluesKeypart ≥ 0 := by
    rw [h.keypart]
    decide
  have hskip : r.HasSkip ↔ r.skip ≠ 0 ∨ r.modOp ≠ [] := by
    unfold ExecGeneric.HasSkip
    rw [h.fils]
    simp [hkeypart]
  unfold ExecGeneric.options
  rw [if_neg hkeypart, h.fils]
  by_cases hmod : r.modOp = [] <;> by_cases hzero : r.skip = 0 <;> simp [hskip, hmod, hzero]

/-- **No token of a request holds a tab or a newline.** -/
theorem ExecGeneric.Plain.clean (h : r.Plain) : ∀ token ∈ r.tokens, Clean token := by
  have hvalues : ∀ values : List (Option Bytes), ∀ token ∈ values.map delimValue, Clean token := by
    intro values token htoken
    obtain ⟨value, -, rfl⟩ := List.mem_map.mp htoken
    exact clean_delimValue
  have hoptions : ∀ token ∈ r.options, Clean token := by
    intro token htoken
    rw [h.options_eq] at htoken
    rcases List.mem_cons.mp htoken with rfl | htoken
    · exact clean_numeral
    split at htoken
    · rcases List.mem_cons.mp htoken with rfl | htoken
      · exact clean_numeral
      split at htoken
      · rcases List.mem_cons.mp htoken with rfl | htoken
        · exact h.modOp
        · exact hvalues _ token htoken
      · cases htoken
    · cases htoken
  intro token htoken
  unfold ExecGeneric.tokens ExecGeneric.more at htoken
  simp only [List.mem_cons, List.mem_append, List.not_mem_nil, or_false] at htoken
  rcases htoken with rfl | ((rfl | rfl) | htoken) | htoken
  · exact clean_numeral
  · exact h.op
  · exact clean_numeral
  · exact hvalues _ token htoken
  · split at htoken
    · exact hoptions token htoken
    · cases htoken

theorem ExecGeneric.Plain.newline_notMem (h : r.Plain) : newline ∉ r.line :=
  newline_notMem_intercalate h.clean

theorem ExecGeneric.Plain.splitOn_line (h : r.Plain) : r.line.splitOn tab = r.tokens :=
  List.splitOn_intercalate tab (fun token htoken hmem => (h.clean token htoken tab hmem).1 rfl)
    (List.cons_ne_nil _ _)

/-- **A request is read back** from its tokens. -/
theorem readTokens_tokens (h : r.Plain) : readTokens r.tokens = some r := by
  have hcount : (ui32 (numeral (UInt32.ofNat r.kvs.length))).toNat =
      (r.kvs.map delimValue).length := by
    rw [ui32_numeral, List.length_map, UInt32.toNat_ofNat_of_lt' h.kvs]
  have hpst : (ui32 (numeral (UInt32.ofNat r.pstId))).toNat = r.pstId := by
    rw [ui32_numeral, UInt32.toNat_ofNat_of_lt' h.pstId]
  unfold ExecGeneric.tokens ExecGeneric.more
  simp only [List.cons_append, List.nil_append, readTokens]
  rw [hcount, hpst, List.take_left, List.drop_left, map_readValue]
  obtain ⟨pstId, op, kvs, limit, skip, modOp, mvs, fils, keypart, invalues⟩ := r
  obtain rfl : fils = [] := h.fils
  obtain rfl : keypart = -1 := h.keypart
  obtain rfl : invalues = [] := h.invalues
  rw [h.options_eq]
  by_cases hmod : modOp = []
  · obtain rfl : mvs = [] := h.mvs hmod
    by_cases hskip : skip = 0 <;> by_cases hlimit : limit = 0 <;>
      simp [ExecGeneric.HasOptions, hmod, hskip, hlimit, readOptions, ui32_numeral]
  · simpa [ExecGeneric.HasOptions, hmod, readOptions, ui32_numeral] using map_readValue

/-! ## What is sent -/

/-- A client in which requests can be buffered. -/
def InSync (c : Hstcpcli) : Prop := c.numReqSent = 0 ∧ c.numReqRcvd = 0

theorem requestBufExecGeneric_of_inSync {c : Hstcpcli} (h : c.InSync) :
    c.requestBufExecGeneric r =
      { c with writebuf := writeExecGeneric c.writebuf r, numReqBufd := c.numReqBufd + 1 } := by
  obtain ⟨hsent, hrcvd⟩ := h
  exact if_neg (by omega)

/-- The requests buffered, one behind the other. -/
theorem buffered {c : Hstcpcli} (h : c.InSync) :
    rs.foldl requestBufExecGeneric c =
      { c with
        writebuf := rs.foldl writeExecGeneric c.writebuf
        numReqBufd := c.numReqBufd + rs.length } := by
  induction rs generalizing c with
  | nil => rfl
  | cons r rs ih =>
      have hsync : InSync { c with
          writebuf := writeExecGeneric c.writebuf r, numReqBufd := c.numReqBufd + 1 } := h
      rw [List.foldl_cons, requestBufExecGeneric_of_inSync h, ih hsync, List.length_cons]
      congr 1
      simp only
      omega

theorem contents_foldl_writeExecGeneric : (rs.foldl writeExecGeneric w).contents =
    w.contents ++ Delimited.ended newline (rs.map ExecGeneric.line) := by
  induction rs generalizing w with
  | nil => simp
  | cons r rs ih =>
      rw [List.foldl_cons, ih, contents_writeExecGeneric, List.map_cons, Delimited.ended_cons]
      simp

theorem readRequests_ended (h : ∀ r ∈ rs, r.Plain) :
    readRequests (Delimited.ended newline (rs.map ExecGeneric.line)) = rs.map some := by
  have hlines : ∀ line ∈ rs.map ExecGeneric.line, newline ∉ line := by
    intro line hline
    obtain ⟨r, hr, rfl⟩ := List.mem_map.mp hline
    exact (h r hr).newline_notMem
  rw [readRequests, Delimited.splitOn_ended hlines, List.dropLast_concat, List.map_map]
  refine List.map_congr_left fun r hr => ?_
  rw [Function.comp_apply, (h r hr).splitOn_line, readTokens_tokens (h r hr)]

/-- What requests are sent as. -/
def text (rs : List ExecGeneric) : Bytes := Delimited.ended newline (rs.map ExecGeneric.line)

theorem text_ne_nil (h : rs ≠ []) : text rs ≠ [] := by
  obtain ⟨r, rs, rfl⟩ := List.exists_cons_of_ne_nil h
  simp [text]

/-- A client with requests to send and nothing outstanding. -/
structure Sendable (c : Hstcpcli) : Prop where
  sync : c.InSync
  bufd : c.numReqBufd = 0
  written : c.writebuf.contents = []
  opened : c.fdOpen = true
  error : ¬c.errorCode < 0

/-- What is buffered is sent by one `send` of all of it. -/
theorem Sendable.requestSend_written {σ : Type} {c : Hstcpcli} {bytes : Bytes} {count : ℕ}
    (h : c.Sendable) (net : Network σ) (peer : σ) (hcontents : w.contents = bytes)
    (hbytes : bytes ≠ []) (hcount : 0 < count) :
    ∃ writebuf : StringBuffer, writebuf.contents = [] ∧
      if sendCount bytes.length (net.exchange bytes peer).1 = bytes.length then
        requestSend net { c with writebuf := w, numReqBufd := count } peer =
          ((0, { c.clearError with
            writebuf := writebuf
            inbox := extend c.inbox (net.exchange bytes peer).2.1
            numReqSent := count }), (net.exchange bytes peer).2.2)
      else ∃ (c' : Hstcpcli) (str : String),
        requestSend net { c with writebuf := w, numReqBufd := count } peer =
          ((-1, c'.close.setError (-1) str), (net.exchange bytes peer).2.2) := by
  obtain ⟨⟨hnosent, hnorcvd⟩, hbufd, hempty, hopen, herror⟩ := h
  have hsize : w.size = bytes.length := by rw [← hcontents, StringBuffer.length_contents]
  have hpos : 0 < bytes.length := List.length_pos_iff.mpr hbytes
  have hstate : ¬(count = 0 ∨ c.numReqSent > 0 ∨ c.numReqRcvd > 0) := by omega
  have hfd : ¬c.fdOpen = false := by simp [hopen]
  refine ⟨w.eraseFront bytes.length, ?_, ?_⟩
  · rw [StringBuffer.contents_eraseFront, hcontents, List.drop_length]
  rw [requestSend, if_neg herror]
  simp only [clearError, if_neg hfd, if_neg hstate, hcontents, hsize]
  -- the failures of `send`, and a full write
  split
  · rename_i hfull
    rw [hfull, if_neg (by omega), if_neg (not_not_intro rfl), Int.toNat_natCast, hbufd]
  · rename_i hshort
    split_ifs
    · exact ⟨_, _, rfl⟩
    · exact ⟨_, _, rfl⟩
    · exact ⟨_, _, rfl⟩

/-- So are the requests buffered. -/
theorem Sendable.requestSend_eq {σ : Type} {c : Hstcpcli} (h : c.Sendable) (net : Network σ)
    (peer : σ) (hrs : rs ≠ []) :
    ∃ writebuf : StringBuffer, writebuf.contents = [] ∧
      if sendCount (text rs).length (net.exchange (text rs) peer).1 = (text rs).length then
        requestSend net (rs.foldl requestBufExecGeneric c) peer =
          ((0, { c.clearError with
            writebuf := writebuf
            inbox := extend c.inbox (net.exchange (text rs) peer).2.1
            numReqSent := rs.length }), (net.exchange (text rs) peer).2.2)
      else ∃ (c' : Hstcpcli) (str : String), requestSend net (rs.foldl requestBufExecGeneric c) peer =
        ((-1, c'.close.setError (-1) str), (net.exchange (text rs) peer).2.2) := by
  have hcontents : (rs.foldl writeExecGeneric c.writebuf).contents = text rs := by
    rw [contents_foldl_writeExecGeneric, h.written, List.nil_append]
    rfl
  rw [buffered h.sync, h.bufd, Nat.zero_add]
  exact h.requestSend_written net peer hcontents (text_ne_nil hrs) (List.length_pos_iff.mpr hrs)

/-- **What is sent is what was asked.** Requests of this program's kind,
buffered on a client in sync with nothing left to write, go out in one
`send`, and a reader that takes the bytes apart at newlines and tabs has
the requests, their values as they were whatever bytes they hold. The call
returns 0 where the socket took all of it, with every request awaiting its
response; else it returns -1 and the client is closed. -/
theorem readRequests_sent {σ : Type}
    (answer : List (Option ExecGeneric) → σ → WriteResult × Inbox UInt8 × σ) (c : Hstcpcli)
    (peer : σ) (rs : List ExecGeneric) (hplain : ∀ r ∈ rs, r.Plain) (hrs : rs ≠ [])
    (hc : c.Sendable) :
    let told := answer (rs.map some) peer
    let sent := requestSend ⟨fun bytes => answer (readRequests bytes)⟩
      (rs.foldl requestBufExecGeneric c) peer
    sent.2 = told.2.2 ∧
      if sendCount (text rs).length told.1 = (text rs).length then
        sent.1.1 = 0 ∧ sent.1.2.numReqSent = rs.length ∧ sent.1.2.numReqBufd = 0 ∧
          sent.1.2.writebuf.contents = [] ∧ sent.1.2.inbox = extend c.inbox told.2.1 ∧
          sent.1.2.fdOpen = true
      else sent.1.1 = -1 ∧ sent.1.2.fdOpen = false ∧ sent.1.2.errorCode = -1 := by
  intro told sent
  have hread : answer (readRequests (text rs)) peer = told := by
    rw [text, readRequests_ended hplain]
  obtain ⟨writebuf, hwritten, hsent⟩ := hc.requestSend_eq
    ⟨fun bytes => answer (readRequests bytes)⟩ peer hrs
  simp only [hread] at hsent
  split at hsent
  · rename_i hfull
    simp only [sent, hsent, if_pos hfull]
    exact ⟨trivial, trivial, trivial, hc.bufd, hwritten, trivial, hc.opened⟩
  · rename_i hshort
    obtain ⟨c', str, hsent⟩ := hsent
    simp only [sent, hsent, if_neg hshort]
    exact ⟨trivial, trivial, rfl, rfl⟩

/-- A key to find. -/
def findOne : ExecGeneric where
  pstId := 0
  op := [61]
  kvs := [some [49]]
  limit := 0
  skip := 0
  modOp := []
  mvs := []

/-- A row to update, with a value of separators and one that is null. -/
def updateOne : ExecGeneric where
  pstId := 1
  op := [61]
  kvs := [some [49], some [55]]
  limit := 0
  skip := 0
  modOp := [85]
  mvs := [some [9, 10, 1, 0], none]

theorem readRequests_sent_two :
    (requestSend ⟨fun bytes log => (.wrote 64, ⟨[], .eagain, nofun⟩, log ++ readRequests bytes)⟩
      ([findOne, updateOne].foldl requestBufExecGeneric (create true none fun _ => 0)) []).2 =
      [some findOne, some updateOne] := by
  have hplain : ∀ r ∈ [findOne, updateOne], r.Plain := by
    intro r hr
    rcases List.mem_cons.mp hr with rfl | hr
    · exact ⟨by decide, by decide, clean_bytes _ (by decide), clean_bytes _ (by decide),
        fun _ => rfl, rfl, rfl, rfl⟩
    · rw [List.mem_singleton.mp hr]
      exact ⟨by decide, by decide, clean_bytes _ (by decide), clean_bytes _ (by decide),
        by decide, rfl, rfl, rfl⟩
  exact (readRequests_sent (fun rs log => (.wrote 64, ⟨[], .eagain, nofun⟩, log ++ rs))
    (create true none fun _ => 0) [] [findOne, updateOne] hplain (List.cons_ne_nil _ _)
    ⟨⟨rfl, rfl⟩, rfl, rfl, rfl, by decide⟩).1

end Hstcpcli
end Dena
end Rinha
