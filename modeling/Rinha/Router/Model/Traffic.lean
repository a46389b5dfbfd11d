import Rinha.Router.Model.Pool
import Rinha.Server.Model.IoThreadPool
/-!
# The router under any traffic

The router between its clients and its backends, byte by byte: a readiness
event finds all that is on its socket, in whatever pieces the `read` calls
get it, and behind it a stream that goes on, has ended or is broken. What is
written to a client that has closed has its side reset the connection. A
backend runs the read loop of its I/O threads, which closes a connection
that filled its buffer; what it writes in answer is left open. The end of
the process is recorded with the place in the code.
-/

namespace Rinha
namespace Router

/-- The branches of the event loop for an error and for a new client, the
`CHECK` on `dst_fd` of the one for data, and `HandleMessage` with
`erase_from_maps`. -/
inductive Site
  | errorBranch
  | accept
  | dataBranch
  | handleMessage
  deriving DecidableEq

/-- The router and the sockets around it. `fromClient`, `atBackend` and
`fromBackend` are what has not been read yet; `peer` is what a client has
come to. -/
structure Traffic where
  pool : State
  fromClient : ℕ → Bytes
  peer : ℕ → Peer
  atBackend : ℕ → Bytes
  fromBackend : ℕ → Bytes
  backendClosed : ℕ → Bool
  aborted : Option (Site × Fault)

namespace Traffic

def init (start : Startup) : Traffic where
  pool := .init start
  fromClient := fun _ => []
  peer := fun _ => .connected
  atBackend := fun _ => []
  fromBackend := fun _ => []
  backendClosed := fun _ => false
  aborted := none

/-- What a client's stream comes to behind the bytes that are there. -/
def ending (s : Traffic) (fd : ℕ) : ReadEnd := (s.peer fd).ending

/-- What clients, backends and the router's threads do. `chunks` are the
pieces the `read` calls get, `taken` how much of its buffer a `write` gets
rid of. A client ends its side of the stream (`finish`), closes it, or
breaks it off where that is not `orderly`; a reset on its way arrives.
`epoll` may report a stream that was reset, or that a backend closed, as an
error (`EPOLLERR`, `EPOLLHUP`) and not as readable. -/
inductive Event
  | connect (infd : ℕ)
  | send (fd : ℕ) (bytes : Bytes)
  | finish (fd : ℕ)
  | hangUp (fd : ℕ) (orderly : Bool)
  | reset (fd : ℕ)
  | epollError (fd : ℕ)
  | clientReadable (fd : ℕ) (chunks : List Bytes) (taken : ℕ)
  | backendReads (unixFd : ℕ) (chunks : List Bytes) (response : Bytes)
  | backendReadable (unixFd : ℕ) (chunks : List Bytes)
  deriving DecidableEq

/-- A client has been accepted. -/
def addClient (s : Traffic) (infd : ℕ) (pool : State) : Traffic :=
  { s with
    pool := pool
    fromClient := Function.update s.fromClient infd []
    peer := Function.update s.peer infd .connected }

/-- The client has come to something else. -/
def turn (s : Traffic) (fd : ℕ) (peer : Peer) : Traffic :=
  { s with peer := Function.update s.peer fd peer }

/-- Bytes of a client have been read and forwarded. -/
def forward (s : Traffic) (fd dst : ℕ) (bytes : Bytes) : Traffic :=
  { s with
    fromClient := Function.update s.fromClient fd ((s.fromClient fd).drop kBufferSize)
    atBackend := Function.update s.atBackend dst (s.atBackend dst ++ bytes) }

/-- `write` to a client. -/
def write (s : Traffic) (fd : ℕ) : Traffic :=
  { s.turn fd (s.peer fd).written with
    aborted := if s.peer fd = .broken then some (.handleMessage, .brokenPipe) else s.aborted }

/-- Bytes of a backend have been read and forwarded, where there were any. -/
def deliver (s : Traffic) (unixFd dst : ℕ) (bytes : Bytes) : Traffic :=
  { if bytes = [] then s else s.write dst with
    fromBackend := Function.update s.fromBackend unixFd ((s.fromBackend unixFd).drop kBufferSize) }

/-- A backend has read `total` bytes and written its answer to them. -/
def answer (s : Traffic) (unixFd total : ℕ) (response : Bytes) (done : Bool) : Traffic :=
  { s with
    atBackend := Function.update s.atBackend unixFd ((s.atBackend unixFd).drop total)
    fromBackend := Function.update s.fromBackend unixFd (s.fromBackend unixFd ++ response)
    backendClosed := Function.update s.backendClosed unixFd done }

/-- `HandleMessage` has returned, or ended the process, unless its `write`
has. -/
def handled (s : Traffic) (fd : ℕ) (result : Except Fault (Tables × Bool)) : Traffic :=
  if s.aborted ≠ none then s
  else
    match result with
    | .error fault => { s with aborted := some (.handleMessage, fault) }
    | .ok (tables, closed) =>
        { s with pool := ⟨tables, if closed then s.pool.live.erase fd else s.pool.live⟩ }

/-- A step, or `none` where there is nothing of the kind to do. -/
def step (start : Startup) (s : Traffic) : Event → Option Traffic
  | .connect infd =>
      if s.aborted = none ∧ Enabled start s.pool (.accept infd) then
        match perform s.pool (.accept infd) with
        | .error fault => some { s with aborted := some (.accept, fault) }
        | .ok pool => some (s.addClient infd pool)
      else none
  | .send fd bytes =>
      if fd ∈ s.pool.live ∧ s.peer fd = .connected then
        some { s with fromClient := Function.update s.fromClient fd (s.fromClient fd ++ bytes) }
      else none
  | .finish fd =>
      if fd ∈ s.pool.live ∧ s.peer fd = .connected then some (s.turn fd .finished) else none
  | .hangUp fd orderly =>
      if fd ∈ s.pool.live ∧ (s.peer fd).Reads then some (s.turn fd ((s.peer fd).close orderly))
      else none
  | .reset fd => if s.peer fd = .doomed then some (s.turn fd .broken) else none
  | .epollError fd =>
      if s.aborted = none ∧
          (fd ∈ s.pool.live ∧ (s.peer fd).IsReset ∨ s.backendClosed fd = true) then
        some { s with aborted := some (.errorBranch, .checkFailed) }
      else none
  | .clientReadable fd chunks taken =>
      if s.aborted = none ∧ fd ∈ s.pool.live ∧ chunks.flatten = s.fromClient fd ∧
          (s.fromClient fd ≠ [] ∨ s.ending fd ≠ .eagain) then
        match s.pool.tables.dstFd fd with
        | .error fault => some { s with aborted := some (.dataBranch, fault) }
        | .ok dst =>
            let (buf, result) := s.pool.tables.handleMessage fd (s.ending fd) chunks
            some ((s.forward fd dst (buf.take taken)).handled fd result)
      else none
  | .backendReads unixFd chunks response =>
      if s.backendClosed unixFd = false ∧ s.atBackend unixFd ≠ [] ∧
          chunks.flatten = s.atBackend unixFd then
        let (_, total, done) := readLoop .eagain chunks (fun _ => 0) 0
        some (s.answer unixFd total response done)
      else none
  | .backendReadable unixFd chunks =>
      if s.aborted = none ∧ chunks.flatten = s.fromBackend unixFd ∧
          (s.fromBackend unixFd ≠ [] ∨ s.backendClosed unixFd = true) then
        match s.pool.tables.dstFd unixFd with
        | .error fault => some { s with aborted := some (.dataBranch, fault) }
        | .ok dst =>
            let ending := if s.backendClosed unixFd then ReadEnd.endOfFile else .eagain
            let (buf, result) := s.pool.tables.handleMessage unixFd ending chunks
            some ((s.deliver unixFd dst buf).handled unixFd result)
      else none

end Traffic
end Router
end Rinha
