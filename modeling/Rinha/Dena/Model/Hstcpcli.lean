import Rinha.Common.Socket
import Rinha.Dena.Model.Escape
/-!
# `hstcpcli.cpp`, byte by byte

The store's client with its buffers: requests written into one, responses
read into the other and taken apart there. Rows are handed out as
references into the buffer, and values are unescaped in place, under the
references handed out before.

What is at the other end of the connection is a `Network`: for each request
it says what the `send` comes to and what there is to read from then on.
-/

namespace Rinha
namespace Dena

/-- The other end of a connection, with the state it keeps. -/
structure Network (σ : Type) where
  exchange : Bytes → σ → WriteResult × Inbox UInt8 × σ

/-- `hstcpcli`. A field of a row is a `string_ref`, an address and a size, and
`none` where it is null. `inbox` is what there is to read on `fd`. -/
structure Hstcpcli where
  fdOpen : Bool
  inbox : Inbox UInt8
  readbuf : StringBuffer
  writebuf : StringBuffer
  responseEndOffset : ℕ
  curRowOffset : ℕ
  numFlds : ℕ
  numReqBufd : ℕ
  numReqSent : ℕ
  numReqRcvd : ℕ
  errorCode : Int32
  errorStr : Bytes
  flds : List (Option (ℕ × ℕ))

/-- More comes to be read, unless the stream has ended. -/
def extend (inbox more : Inbox UInt8) : Inbox UInt8 :=
  if inbox.ending = .eagain then
    ⟨inbox.chunks ++ more.chunks, more.ending, fun chunk h =>
      (List.mem_append.mp h).elim (inbox.nonempty chunk) (more.nonempty chunk)⟩
  else inbox

namespace Hstcpcli

def clearError (c : Hstcpcli) : Hstcpcli := { c with errorCode := 0, errorStr := [] }

def setError (c : Hstcpcli) (code : Int32) (str : String) : Hstcpcli :=
  { c with errorCode := code, errorStr := Text.bytes str }

/-- The constructor, on what `socket_connect` came to: whether it has a
descriptor, and its error where it failed. -/
def create (fdOpen : Bool) (failure : Option Bytes) (memory : ℕ → UInt8) : Hstcpcli where
  fdOpen := fdOpen
  inbox := ⟨[], .eagain, nofun⟩
  readbuf := .init memory
  writebuf := .init memory
  responseEndOffset := 0
  curRowOffset := 0
  numFlds := 0
  numReqBufd := 0
  numReqSent := 0
  numReqRcvd := 0
  errorCode := if failure.isSome then -1 else 0
  errorStr := failure.getD []
  flds := []

/-- `close`. -/
def close (c : Hstcpcli) : Hstcpcli :=
  { c with
    fdOpen := false
    readbuf := c.readbuf.clear
    writebuf := c.writebuf.clear
    flds := []
    responseEndOffset := 0
    curRowOffset := 0
    numFlds := 0
    numReqBufd := 0
    numReqSent := 0
    numReqRcvd := 0 }

/-- `stable_point`. -/
def stablePoint (c : Hstcpcli) : Bool :=
  c.fdOpen && c.numReqBufd = 0 && c.numReqSent = 0 && c.numReqRcvd = 0 && c.responseEndOffset = 0

/-! ## Requests -/

/-- `append_delim_value`. -/
def appendDelimValue (buf : StringBuffer) : Option Bytes → StringBuffer
  | none => buf.append [tab, 0]
  | some v => (buf.append [tab]).escapeString v

/-- `hstcpcli_filter`. -/
structure Filter where
  filterType : Bytes
  op : Bytes
  ffOffset : ℕ
  val : Option Bytes

/-- The arguments of `request_buf_exec_generic`, with its defaults. -/
structure ExecGeneric where
  pstId : ℕ
  op : Bytes
  kvs : List (Option Bytes)
  limit : UInt32
  skip : UInt32
  modOp : Bytes
  mvs : List (Option Bytes)
  fils : List Filter := []
  invaluesKeypart : Int32 := -1
  invalues : List (Option Bytes) := []

/-- The condition under which more than what to look for is written. -/
def ExecGeneric.HasOptions (r : ExecGeneric) : Prop :=
  r.limit ≠ 0 ∨ r.skip ≠ 0 ∨ r.invaluesKeypart ≥ 0 ∨ r.modOp.length ≠ 0 ∨ r.fils.length ≠ 0

/-- And that under which more than a limit is. -/
def ExecGeneric.HasSkip (r : ExecGeneric) : Prop :=
  r.skip ≠ 0 ∨ r.invaluesKeypart ≥ 0 ∨ r.modOp.length ≠ 0 ∨ r.fils.length ≠ 0

instance (r : ExecGeneric) : Decidable r.HasOptions := inferInstanceAs (Decidable (_ ∨ _))
instance (r : ExecGeneric) : Decidable r.HasSkip := inferInstanceAs (Decidable (_ ∨ _))

/-- `invalues`, where there are any. -/
def writeInvalues (w : StringBuffer) (r : ExecGeneric) : StringBuffer :=
  if r.invaluesKeypart ≥ 0 then
    let w := w.append [tab, 64, tab]
    let w := w.appendUint32 r.invaluesKeypart.toUInt32
    let w := w.append [tab]
    let w := w.appendUint32 (UInt32.ofNat r.invalues.length)
    r.invalues.foldl appendDelimValue w
  else w

/-- One of `fils`. -/
def writeFilter (w : StringBuffer) (f : Filter) : StringBuffer :=
  let w := (w.append [tab]).append f.filterType
  let w := (w.append [tab]).append f.op
  let w := (w.append [tab]).appendUint32 (UInt32.ofNat f.ffOffset)
  appendDelimValue w f.val

/-- `mod_op` and `mvs`, where there are any. -/
def writeModification (w : StringBuffer) (r : ExecGeneric) : StringBuffer :=
  if r.modOp.length ≠ 0 then
    let w := (w.append [tab]).append r.modOp
    r.mvs.foldl appendDelimValue w
  else w

/-- The branch for a request that has more options. -/
def writeOptions (w : StringBuffer) (r : ExecGeneric) : StringBuffer :=
  let w := (w.append [tab]).appendUint32 r.limit
  let w := if r.HasSkip then (w.append [tab]).appendUint32 r.skip else w
  let w := writeInvalues w r
  let w := r.fils.foldl writeFilter w
  writeModification w r

/-- The text `request_buf_exec_generic` appends. -/
def writeExecGeneric (w : StringBuffer) (r : ExecGeneric) : StringBuffer :=
  let w := w.appendUint32 (UInt32.ofNat r.pstId)
  let w := (w.append [tab]).append r.op
  let w := (w.append [tab]).appendUint32 (UInt32.ofNat r.kvs.length)
  let w := r.kvs.foldl appendDelimValue w
  let w := if r.HasOptions then writeOptions w r else w
  w.append [newline]

/-- `request_buf_exec_generic`. -/
def requestBufExecGeneric (c : Hstcpcli) (r : ExecGeneric) : Hstcpcli :=
  if c.numReqSent > 0 ∨ c.numReqRcvd > 0 then
    c.close.setError (-1) "request_buf_exec_generic: protocol out of sync"
  else
    { c with writebuf := writeExecGeneric c.writebuf r, numReqBufd := c.numReqBufd + 1 }

/-- The arguments of `request_buf_open_index`. -/
structure OpenIndex where
  pstId : ℕ
  dbn : Bytes
  tbl : Bytes
  idx : Bytes
  retflds : Bytes
  filflds : Option Bytes := none

/-- The text `request_buf_open_index` appends. -/
def writeOpenIndex (writebuf : StringBuffer) (r : OpenIndex) : StringBuffer :=
  let w := writebuf.append [80, tab]
  let w := w.appendUint32 (UInt32.ofNat r.pstId)
  let w := (w.append [tab]).append r.dbn
  let w := (w.append [tab]).append r.tbl
  let w := (w.append [tab]).append r.idx
  let w := (w.append [tab]).append r.retflds
  let w := match r.filflds with
    | none => w
    | some filflds => (w.append [tab]).append filflds
  w.append [newline]

/-- `request_buf_open_index`. -/
def requestBufOpenIndex (c : Hstcpcli) (r : OpenIndex) : Hstcpcli :=
  if c.numReqSent > 0 ∨ c.numReqRcvd > 0 then
    c.close.setError (-1) "request_buf_open_index: protocol out of sync"
  else
    { c with writebuf := writeOpenIndex c.writebuf r, numReqBufd := c.numReqBufd + 1 }

/-- What `send` returns for so many bytes, `-1` where it fails. -/
def sendCount (wrlen : ℕ) : WriteResult → ℤ
  | .wrote count => (min count wrlen : ℕ)
  | .eagain | .error => -1

/-- `request_send`, with what it returns. -/
def requestSend {σ : Type} (net : Network σ) (c : Hstcpcli) (peer : σ) :
    (Int32 × Hstcpcli) × σ :=
  if c.errorCode < 0 then ((c.errorCode, c), peer) else
  let c := c.clearError
  if c.fdOpen = false then ((-1, c.close.setError (-1) "write: closed"), peer) else
  if c.numReqBufd = 0 ∨ c.numReqSent > 0 ∨ c.numReqRcvd > 0 then
    ((-1, c.close.setError (-1) "request_send: protocol out of sync"), peer) else
  let wrlen := c.writebuf.size
  let (result, arrived, peer) := net.exchange c.writebuf.contents peer
  let c := { c with inbox := extend c.inbox arrived }
  let r := sendCount wrlen result
  if r ≤ 0 then
    ((-1, c.close.setError (-1) (if r < 0 then "write: failed" else "write: eof")), peer) else
  let c := { c with writebuf := c.writebuf.eraseFront r.toNat }
  if r ≠ wrlen then ((-1, c.close.setError (-1) "write: incomplete"), peer) else
  ((0, { c with numReqSent := c.numReqBufd, numReqBufd := 0 }), peer)

/-! ## Responses -/

def blockSize : ℕ := 4096

/-- `read_more`: whether it read anything. -/
def readMore (c : Hstcpcli) : Bool × Hstcpcli :=
  let c := { c with readbuf := c.readbuf.makeSpace blockSize }
  match c.inbox.read blockSize with
  | (.got (b :: bytes), left) =>
      (true, { c with
        inbox := left
        readbuf := (c.readbuf.fill (b :: bytes)).spaceWrote (b :: bytes).length })
  | (.got [], left) => (false, { c with inbox := left, errorStr := Text.bytes "read: eof" })
  | (.eagain, left) | (.error, left) =>
      (false, { c with inbox := left, errorStr := Text.bytes "read: failed" })

/-- The loop of `response_recv`, at most so many times: `offset` behind the
first newline, or `none` where `read_more` failed. -/
def recvLoop : ℕ → Hstcpcli → Option ℕ × Hstcpcli
  | 0, c => (none, c)
  | reads + 1, c =>
      match memchr c.readbuf.buffer newline c.readbuf.size c.readbuf.beginOffset with
      | some nl => (some (nl + 1 - c.readbuf.beginOffset), c)
      | none =>
          match c.readMore with
          | (true, c) => recvLoop reads c
          | (false, c) => (none, c)

/-- `response_recv` from the line on: the response code, the number of
fields, and the error text or the rows. -/
def parseResponse (c : Hstcpcli) : Int32 × ℕ × Hstcpcli :=
  let mem := c.readbuf.buffer
  let start := c.readbuf.beginOffset
  let finish := start + c.responseEndOffset - 1
  let (respCode, start) := readUi32 mem start finish
  let start := skipOne start finish
  let (numFlds, start) := readUi32 mem start finish
  let c := { c with numFlds := numFlds.toNat }
  if respCode ≠ 0 then
    let errBegin := skipOne start finish
    let errEnd := readToken mem errBegin finish
    let e := Memory.slice mem errBegin (errEnd - errBegin)
    let e := if e = [] then Text.bytes "unknown_error" else e
    (respCode.toInt32, numFlds.toNat, { c with errorCode := respCode.toInt32, errorStr := e })
  else
    (0, numFlds.toNat, { c with curRowOffset := start - c.readbuf.beginOffset })

/-- `response_recv`, with what it returns and `num_flds_r`. -/
def responseRecv (c : Hstcpcli) (numFlds : ℕ) : Int32 × ℕ × Hstcpcli :=
  if c.errorCode < 0 then (c.errorCode, numFlds, c) else
  let c := c.clearError
  if c.numReqBufd > 0 ∨ c.numReqSent = 0 ∨ c.numReqRcvd > 0 ∨ c.responseEndOffset ≠ 0 then
    (-1, numFlds, c.close.setError (-1) "response_recv: protocol out of sync") else
  let c := { c with curRowOffset := 0, numFlds := 0 }
  if c.fdOpen = false then (-1, 0, c.setError (-1) "read: closed") else
  match recvLoop (c.inbox.bytes.length + 1) c with
  | (none, c) => (-1, 0, c.close.setError (-1) "read: eof")
  | (some offset, c) =>
      parseResponse { c with
        responseEndOffset := offset
        numReqSent := c.numReqSent - 1
        numReqRcvd := c.numReqRcvd + 1 }

/-- The loop over the fields of a row: the references, the memory with the
values unescaped, and where `start` ends. What `unescape_string` returns is
not looked at. -/
def nextFields : ℕ → (ℕ → UInt8) → ℕ → ℕ → List (Option (ℕ × ℕ)) × (ℕ → UInt8) × ℕ
  | 0, mem, start, _ => ([], mem, start)
  | left + 1, mem, start, finish =>
      let fldBegin := skipOne start finish
      let fldEnd := readToken mem fldBegin finish
      if isNullExpression mem fldBegin fldEnd then
        let (refs, mem, start) := nextFields left mem fldEnd finish
        (none :: refs, mem, start)
      else
        let (mem, wp, _) := unescapeString (fldEnd - fldBegin) mem fldBegin fldBegin
        let (refs, mem, start) := nextFields left mem fldEnd finish
        (some (fldBegin, wp - fldBegin) :: refs, mem, start)

/-- `get_next_row`. -/
def getNextRow (c : Hstcpcli) : Option (List (Option (ℕ × ℕ))) × Hstcpcli :=
  if c.numFlds = 0 then (none, c) else
  let start := c.readbuf.beginOffset + c.curRowOffset
  let finish := c.readbuf.beginOffset + c.responseEndOffset - 1
  if start ≥ finish then (none, c) else
  let (refs, mem, start) := nextFields c.numFlds c.readbuf.buffer start finish
  (some refs, { c with
    readbuf := { c.readbuf with buffer := mem }
    flds := refs ++ c.flds.drop c.numFlds
    curRowOffset := start - c.readbuf.beginOffset })

/-- What the references of a row point at. -/
def deref (c : Hstcpcli) (refs : List (Option (ℕ × ℕ))) : List (Option Bytes) :=
  refs.map fun ref => ref.map fun (start, size) => Memory.slice c.readbuf.buffer start size

/-- `response_buf_remove`. -/
def responseBufRemove (c : Hstcpcli) : Hstcpcli :=
  if c.responseEndOffset = 0 then
    c.close.setError (-1) "response_buf_remove: protocol out of sync"
  else
    { c with
      readbuf := c.readbuf.eraseFront c.responseEndOffset
      responseEndOffset := 0
      numReqRcvd := c.numReqRcvd - 1
      curRowOffset := 0
      numFlds := 0
      flds := [] }

end Hstcpcli
end Dena
end Rinha
