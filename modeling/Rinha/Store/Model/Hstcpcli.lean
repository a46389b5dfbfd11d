import Rinha.Common.Text
import Mathlib.Tactic.Common
/-!
# `hstcpcli.cpp`

The store's client: three counters that say where a request is between
being buffered and having its response removed, and an error code that,
once negative, fails every later send. A response is the tokens of its
line. How the store will answer is part of the client here: `outcomes`
lists what becomes of its exchanges, one after the other.
-/

namespace Rinha

/-- What becomes of one exchange: the `send` fails, a `read` fails before the
reply is there, or a reply comes. A `read` fails where the connection ends,
and where nothing comes for the thirty seconds of `SO_RCVTIMEO`. -/
inductive Outcome
  | sendFailed
  | endOfFile
  | reply (code : UInt32) (numFlds : ℕ) (fields : List (Option Bytes))
  deriving DecidableEq

/-- `hstcpcli`. The response buffered is `flds`, its tokens not yet handed
out; `responseEndOffset` says only whether there is one. `exchanges` counts
the outcomes met. -/
structure Hstcpcli where
  fdOpen : Bool
  responseEndOffset : Bool
  numFlds : ℕ
  numReqBufd : ℕ
  numReqSent : ℕ
  numReqRcvd : ℕ
  errorCode : Int32
  flds : List (Option Bytes)
  outcomes : ℕ → Outcome
  exchanges : ℕ

namespace Hstcpcli

/-- `close`. -/
def close (c : Hstcpcli) : Hstcpcli :=
  { c with
    fdOpen := false
    responseEndOffset := false
    numFlds := 0
    numReqBufd := 0
    numReqSent := 0
    numReqRcvd := 0
    flds := [] }

def setError (c : Hstcpcli) (code : Int32) : Hstcpcli := { c with errorCode := code }

def clearError (c : Hstcpcli) : Hstcpcli := { c with errorCode := 0 }

/-- The outcome of the exchange that comes next. -/
def outcome (c : Hstcpcli) : Outcome := c.outcomes c.exchanges

def met (c : Hstcpcli) : Hstcpcli := { c with exchanges := c.exchanges + 1 }

/-- `request_buf_exec_generic`. The text of the request goes to the store,
which answers as it will. -/
def requestBufExecGeneric (c : Hstcpcli) : Hstcpcli :=
  if c.numReqSent > 0 ∨ c.numReqRcvd > 0 then c.close.setError (-1)
  else { c with numReqBufd := c.numReqBufd + 1 }

/-- `request_send`, with what it returns. -/
def requestSend (c : Hstcpcli) : Int32 × Hstcpcli :=
  if c.errorCode < 0 then (c.errorCode, c) else
  let c := c.clearError
  if c.fdOpen = false then (-1, c.close.setError (-1)) else
  if c.numReqBufd = 0 ∨ c.numReqSent > 0 ∨ c.numReqRcvd > 0 then (-1, c.close.setError (-1)) else
  if c.outcome = .sendFailed then (-1, c.met.close.setError (-1)) else
  (0, { c with numReqSent := c.numReqBufd, numReqBufd := 0 })

/-- `response_recv`, with what it returns and `num_flds_r`. -/
def responseRecv (c : Hstcpcli) (numFlds : ℕ) : Int32 × ℕ × Hstcpcli :=
  if c.errorCode < 0 then (c.errorCode, numFlds, c) else
  let c := c.clearError
  if c.numReqBufd > 0 ∨ c.numReqSent = 0 ∨ c.numReqRcvd > 0 ∨ c.responseEndOffset = true then
    (-1, numFlds, c.close.setError (-1)) else
  let c := { c with numFlds := 0 }
  if c.fdOpen = false then (-1, 0, c.setError (-1)) else
  match c.outcome with
  | .sendFailed | .endOfFile => (-1, 0, c.met.close.setError (-1))
  | .reply code numFlds fields =>
      let c :=
        { c.met with
          responseEndOffset := true
          numReqSent := c.numReqSent - 1
          numReqRcvd := c.numReqRcvd + 1
          numFlds := numFlds
          flds := fields }
      if code ≠ 0 then (code.toInt32, numFlds, c.setError code.toInt32)
      else (0, numFlds, c)

/-- `get_next_row`. A line that ends early leaves the row's last fields
empty. -/
def getNextRow (c : Hstcpcli) : Option (List (Option Bytes)) × Hstcpcli :=
  if c.numFlds = 0 then (none, c)
  else if c.flds = [] then (none, c)
  else
    let row := c.flds.take c.numFlds
    (some (row ++ List.replicate (c.numFlds - row.length) (some [])),
      { c with flds := c.flds.drop c.numFlds })

/-- `response_buf_remove`. -/
def responseBufRemove (c : Hstcpcli) : Hstcpcli :=
  if c.responseEndOffset = false then c.close.setError (-1)
  else
    { c with
      responseEndOffset := false
      numReqRcvd := c.numReqRcvd - 1
      numFlds := 0
      flds := [] }

/-- `while ((row = get_next_row()) != 0)`: the rows handed out, of which
there are no more than tokens. -/
def rows : ℕ → Hstcpcli → List (List (Option Bytes)) × Hstcpcli
  | 0, c => ([], c)
  | left + 1, c =>
      match c.getNextRow with
      | (none, c) => ([], c)
      | (some row, c) => ((row :: (rows left c).1), (rows left c).2)

end Hstcpcli

end Rinha
