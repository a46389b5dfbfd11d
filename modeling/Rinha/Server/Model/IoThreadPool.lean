import Rinha.Common.Socket
import Rinha.Server.Model.RequestProcessor
/-!
# `io_thread_pool.cc`

The branch of the event loop that has data on a client connection. One
readiness event is what the `read` calls of the loop find, one after the
other, and how the last of them ends; the events of a connection may be
under way on several threads at once.
-/

namespace Rinha

def kBufferWrittableSize : ℕ := 1024
def kBufferTotalSize : ℕ := kBufferWrittableSize + 1
def kMaxConnections : ℕ := 3000

/-- `read` into the buffer at `total`. -/
def store (buffer : ℕ → UInt8) (total : ℕ) (got : Bytes) : ℕ → UInt8 :=
  fun i => if total ≤ i ∧ i < total + got.length then got.getD (i - total) 0 else buffer i

/-- The read loop, on what is readable at each call: the buffer, the total
count and `done`. A chunk that does not fit leaves no room, and a `read`
of no bytes returns 0, which is taken for the end of the file. -/
def readLoop (ending : ReadEnd) : List Bytes → (ℕ → UInt8) → ℕ → (ℕ → UInt8) × ℕ × Bool
  | [], buffer, total =>
      (buffer, total, decide (total = kBufferWrittableSize) || decide (ending ≠ .eagain))
  | chunk :: chunks, buffer, total =>
      if total = kBufferWrittableSize then (buffer, total, true)
      else
        let got := chunk.take (kBufferWrittableSize - total)
        readLoop ending chunks (store buffer total got) (total + got.length)

/-- What the read loop comes to: its variables, what the last `read` returned,
and what is left to read. -/
structure ReadOutcome where
  buffer : ℕ → UInt8
  total : ℕ
  done : Bool
  last : ReadResult UInt8
  left : Inbox UInt8

/-- The read loop, call by call, for as many calls as it is given. -/
def readCalls : ℕ → Inbox UInt8 → (ℕ → UInt8) → ℕ → Option ReadOutcome
  | 0, _, _, _ => none
  | calls + 1, inbox, buffer, total =>
      match inbox.read (kBufferWrittableSize - total) with
      | (.eagain, left) => some ⟨buffer, total, false, .eagain, left⟩
      | (.error, left) => some ⟨buffer, total, true, .error, left⟩
      | (.got [], left) => some ⟨buffer, total, true, .got [], left⟩
      | (.got (b :: bytes), left) =>
          readCalls calls left (store buffer total (b :: bytes)) (total + (b :: bytes).length)

/-- The `thread_local` variables of an I/O thread: its buffers, with
whatever earlier requests left in them, and those of `ProcessRequest`. -/
structure IoThread where
  buffers : ℕ → ℕ → UInt8
  bufferIndex : ℕ
  locals : ThreadLocals

/-- A readiness event of a connection: the thread that takes it, what its
`read` calls find, and what its call of `ProcessRequest` would. -/
structure Readiness where
  thread : ℕ
  chunks : List Bytes
  ending : ReadEnd
  passes : ℕ
  currentTime : Vector UInt8 20
  locals : Locals

/-- What the read loop leaves an I/O thread with: its buffer, the total count
and `done`. -/
structure Taken where
  event : Readiness
  buffer : ℕ → UInt8
  total : ℕ
  done : Bool

/-- The read loop of the data branch, for one event. What the `read` calls
find is the event's: of two threads that read the connection at once, each
finds what the other left. -/
def readEvent (event : Readiness) (thread : IoThread) : Taken :=
  let (buffer, total, done) :=
    readLoop event.ending event.chunks (thread.buffers thread.bufferIndex) 0
  ⟨event, buffer, total, done⟩

/-- A response that is ready, and whether the connection is closed once it
is sent. -/
structure Sending where
  thread : ℕ
  response : Bytes
  done : Bool

/-- A connection and the I/O threads that wait for it on one `epoll_fd`. It
is registered with `EPOLLIN | EPOLLET` and no `EPOLLONESHOT`, so while one
thread has an event of it under way another may be woken for the next:
`taken` are the events whose bytes are read, `sending` those whose response
is ready. `handled` are the events the threads are through with reading, in
the order they came to `ProcessRequest`, `handed` the buffers it was given
and `responses` what was written to the connection. -/
structure Serving where
  threads : ℕ → IoThread
  users : Users
  isOpen : Bool
  taken : List Taken
  sending : List Sending
  handled : List Readiness
  handed : List Bytes
  responses : List Bytes

namespace Serving

def start (threads : ℕ → IoThread) (users : Users) : Serving where
  threads := threads
  users := users
  isOpen := true
  taken := []
  sending := []
  handled := []
  handed := []
  responses := []

/-- What a thread may do next: read an event, have `ProcessRequest` make the
response, or send that and close the connection where `done` says so. -/
inductive Move
  | read (event : Readiness)
  | process (thread : ℕ)
  | send (thread : ℕ)

/-- A thread is through with one event before it is woken for another. -/
def Idle (s : Serving) (thread : ℕ) : Prop :=
  (∀ t ∈ s.taken, t.event.thread ≠ thread) ∧ ∀ r ∈ s.sending, r.thread ≠ thread

instance (s : Serving) (thread : ℕ) : Decidable (s.Idle thread) := instDecidableAnd

/-- `ProcessRequest`, up to its send loop, on what thread `t` has read, if
it has read anything. What it does to the table is one step. -/
def process (s : Serving) (t : Taken) : Serving :=
  let thread := s.threads t.event.thread
  let rest := { s with
    taken := s.taken.eraseP (·.event.thread == t.event.thread)
    handled := s.handled ++ [t.event] }
  if t.total > 0 then
    let ((sent, users) : Option (Bytes × ThreadLocals) × Users) :=
      (processRequest tableSocket (t.event.passes + 1) t.event.currentTime t.event.locals
        thread.locals t.buffer t.total).run s.users
    let buffers := Function.update thread.buffers thread.bufferIndex (terminate t.buffer t.total)
    { rest with
      threads := Function.update s.threads t.event.thread
        ⟨buffers, (thread.bufferIndex + 1) % kMaxConnections,
          (sent.map Prod.snd).getD thread.locals⟩
      users := users
      sending := s.sending ++ (sent.map fun out => ⟨t.event.thread, out.1, t.done⟩).toList
      handed := s.handed ++ [(List.range t.total).map t.buffer] }
  else
    let buffers := Function.update thread.buffers thread.bufferIndex t.buffer
    { rest with
      threads := Function.update s.threads t.event.thread { thread with buffers := buffers }
      isOpen := s.isOpen && !t.done }

/-- The data branch of the event loop, move by move, in any interleaving of
the threads. A response written after the connection is closed is not
written to it. -/
def step (s : Serving) : Move → Option Serving
  | .read event =>
      if s.isOpen ∧ s.Idle event.thread then
        some { s with taken := s.taken ++ [readEvent event (s.threads event.thread)] }
      else none
  | .process thread => (s.taken.find? (·.event.thread == thread)).map s.process
  | .send thread => (s.sending.find? (·.thread == thread)).map fun r =>
      { s with
        sending := s.sending.eraseP (·.thread == thread)
        responses := s.responses ++ if s.isOpen then [r.response] else []
        isOpen := s.isOpen && !r.done }

end Serving

end Rinha
