import Rinha.Router.Model.Pool
/-!
# The router between its clients and its backends

What is on its way, on every socket, between clients that connect, send,
close and are answered in any order. A byte keeps its origin: a byte of a
request the connection it was sent on, a byte of an answer the request it
answers. A backend takes requests off a unix connection one by one and
answers each there, once. The router's part is the data branch of its
event loop: the lookup of the destination, and `HandleMessage`.
-/

namespace Rinha
namespace Router

/-- A byte of a client's stream. `last` marks the end of a request. -/
structure Sent where
  conn : ℕ
  value : UInt8
  last : Bool
  deriving DecidableEq

/-- A byte of an answer. -/
structure Reply where
  request : List Sent
  value : UInt8
  deriving DecidableEq

/-- The first request of a stream, and what follows it. -/
def nextRequest : List Sent → Option (List Sent × List Sent)
  | [] => none
  | byte :: bytes =>
      if byte.last then some ([byte], bytes)
      else (nextRequest bytes).map fun (request, rest) => (byte :: request, rest)

/-- The router and the sockets around it. `conn fd` numbers the connection
of the client at `fd`, and `peer` is what the client there has come to;
`fromClient` and `fromBackend` are what the router has not read yet,
`atBackend` what has not been answered, `unread` what a client has been
sent and has not read. `delivered` is what `write` took for the clients. -/
structure Network where
  pool : State
  conn : ℕ → ℕ
  nextConn : ℕ
  fromClient : ℕ → List Sent
  peer : ℕ → Peer
  unread : ℕ → List Reply
  atBackend : ℕ → List Sent
  fromBackend : ℕ → List Reply
  delivered : List (ℕ × Reply)
  aborted : Option Fault

def Network.init (start : Startup) : Network where
  pool := .init start
  conn := fun _ => 0
  nextConn := 0
  fromClient := fun _ => []
  peer := fun _ => .connected
  unread := fun _ => []
  atBackend := fun _ => []
  fromBackend := fun _ => []
  delivered := []
  aborted := none

/-- What clients, backends and the router's threads do. A client reads what
it was sent, ends its side of the stream (`finish`) or closes it, which
resets the connection where it is not `orderly` or something is unread; a
reset on its way arrives, and `epoll` reports it. `taken` is how much of its
buffer a `write` gets rid of. -/
inductive Event
  | connect (infd : ℕ)
  | send (fd : ℕ) (bytes : List (UInt8 × Bool))
  | receive (fd : ℕ)
  | finish (fd : ℕ)
  | hangUp (fd : ℕ) (orderly : Bool)
  | reset (fd : ℕ)
  | epollError (fd : ℕ)
  | answer (unixFd : ℕ) (bytes : List UInt8)
  | clientReadable (fd taken : ℕ)
  | backendReadable (unixFd taken : ℕ)
  deriving DecidableEq

/-- A client has been accepted. -/
def Network.addClient (s : Network) (infd : ℕ) (pool : State) : Network :=
  { s with
    pool := pool
    conn := Function.update s.conn infd s.nextConn
    nextConn := s.nextConn + 1
    fromClient := Function.update s.fromClient infd []
    peer := Function.update s.peer infd .connected
    unread := Function.update s.unread infd [] }

/-- Bytes of a client have been read and forwarded. -/
def Network.forward (s : Network) (fd dst : ℕ) (bytes : List Sent) : Network :=
  { s with
    fromClient := Function.update s.fromClient fd ((s.fromClient fd).drop kBufferSize)
    atBackend := Function.update s.atBackend dst (s.atBackend dst ++ bytes) }

/-- `write` to a client. One that has closed does not get the bytes, and a
`write` to a stream that was reset takes none. -/
def Network.write (s : Network) (fd : ℕ) (replies : List Reply) : Network :=
  { s with
    delivered := s.delivered ++
      if (s.peer fd).IsReset then [] else replies.map fun reply => (s.conn fd, reply)
    unread := if (s.peer fd).Reads then Function.update s.unread fd (s.unread fd ++ replies)
      else s.unread
    peer := Function.update s.peer fd (s.peer fd).written
    aborted := if s.peer fd = .broken then some .brokenPipe else s.aborted }

/-- Bytes of a backend have been read and forwarded. -/
def Network.deliver (s : Network) (unixFd dst : ℕ) (replies : List Reply) : Network :=
  { s.write dst replies with
    fromBackend := Function.update s.fromBackend unixFd ((s.fromBackend unixFd).drop kBufferSize) }

/-- `HandleMessage` has returned, or ended the process, unless its `write`
has. -/
def Network.handled (s : Network) (fd : ℕ) (result : Except Fault (Tables × Bool)) : Network :=
  if s.aborted ≠ none then s
  else
    match result with
    | .error fault => { s with aborted := some fault }
    | .ok (tables, closed) =>
        { s with pool := ⟨tables, if closed then s.pool.live.erase fd else s.pool.live⟩ }

/-- A step, or `none` where there is nothing of the kind to do. -/
def Network.step (start : Startup) (s : Network) : Event → Option Network
  | .connect infd =>
      if s.aborted = none ∧ infd ∉ s.pool.live ∧ ¬start.IsUnix infd then
        match perform s.pool (.accept infd) with
        | .error fault => some { s with aborted := some fault }
        | .ok pool => some (s.addClient infd pool)
      else none
  | .send fd bytes =>
      if fd ∈ s.pool.live ∧ s.peer fd = .connected then
        some { s with
          fromClient := Function.update s.fromClient fd
            (s.fromClient fd ++ bytes.map fun (value, last) => ⟨s.conn fd, value, last⟩) }
      else none
  | .receive fd =>
      if (s.peer fd).Reads then some { s with unread := Function.update s.unread fd [] } else none
  | .finish fd =>
      if fd ∈ s.pool.live ∧ s.peer fd = .connected then
        some { s with peer := Function.update s.peer fd .finished }
      else none
  | .hangUp fd orderly =>
      if fd ∈ s.pool.live ∧ (s.peer fd).Reads then
        some { s with
          peer := Function.update s.peer fd
            ((s.peer fd).close (orderly && decide (s.unread fd = []))) }
      else none
  | .reset fd =>
      if s.peer fd = .doomed then some { s with peer := Function.update s.peer fd .broken } else none
  | .epollError fd =>
      if s.aborted = none ∧ fd ∈ s.pool.live ∧ (s.peer fd).IsReset then
        some { s with aborted := some .checkFailed }
      else none
  | .answer unixFd bytes =>
      (nextRequest (s.atBackend unixFd)).map fun (request, rest) =>
        { s with
          atBackend := Function.update s.atBackend unixFd rest
          fromBackend := Function.update s.fromBackend unixFd
            (s.fromBackend unixFd ++ bytes.map fun value => ⟨request, value⟩) }
  | .clientReadable fd taken =>
      if s.aborted = none ∧ fd ∈ s.pool.live ∧
          (s.fromClient fd ≠ [] ∨ (s.peer fd).ending ≠ .eagain) then
        match s.pool.tables.dstFd fd with
        | .error fault => some { s with aborted := some fault }
        | .ok dst =>
            let (buf, result) := s.pool.tables.handleMessage fd (s.peer fd).ending [s.fromClient fd]
            some ((s.forward fd dst (buf.take taken)).handled fd result)
      else none
  | .backendReadable unixFd taken =>
      if s.aborted = none ∧ s.fromBackend unixFd ≠ [] then
        match s.pool.tables.dstFd unixFd with
        | .error fault => some { s with aborted := some fault }
        | .ok dst =>
            let (buf, result) := s.pool.tables.handleMessage unixFd .eagain [s.fromBackend unixFd]
            some ((s.deliver unixFd dst (buf.take taken)).handled unixFd result)
      else none

/-- Nothing is under way on the unix connection the client is paired with. -/
def Network.Quiet (s : Network) (fd : ℕ) : Prop :=
  ∀ unixFd ∈ s.pool.tables.tcpToUnix fd, s.atBackend unixFd = [] ∧ s.fromBackend unixFd = []

instance (s : Network) (fd : ℕ) : Decidable (s.Quiet fd) :=
  inferInstanceAs (Decidable (∀ unixFd ∈ s.pool.tables.tcpToUnix fd,
    s.atBackend unixFd = [] ∧ s.fromBackend unixFd = []))

/-- Clients are accepted in time, and the router reads the end of a
client's stream only when nothing is under way on its unix connection. -/
def Settled (start : Startup) (s : Network) : Event → Prop
  | .connect infd => InTime start s.pool (.accept infd)
  | .clientReadable fd _ => (s.peer fd).ending = .endOfFile → s.fromClient fd = [] → s.Quiet fd
  | .send _ _ | .receive _ | .finish _ | .hangUp _ _ | .reset _ | .epollError _ | .answer _ _
  | .backendReadable _ _ => True

instance (start : Startup) (s : Network) (event : Event) : Decidable (Settled start s event) :=
  match event with
  | .connect infd => inferInstanceAs (Decidable (InTime start s.pool (.accept infd)))
  | .clientReadable fd _ =>
      inferInstanceAs (Decidable ((s.peer fd).ending = .endOfFile → s.fromClient fd = [] →
        s.Quiet fd))
  | .send _ _ | .receive _ | .finish _ | .hangUp _ _ | .reset _ | .epollError _ | .answer _ _
  | .backendReadable _ _ => inferInstanceAs (Decidable True)

/-- A client closes its connection only when nothing is under way on its
unix connection, and it has read what it was sent. -/
def Network.Served (s : Network) : Event → Prop
  | .hangUp fd _ => s.Quiet fd ∧ s.unread fd = []
  | .connect _ | .send _ _ | .receive _ | .finish _ | .reset _ | .epollError _ | .answer _ _
  | .clientReadable _ _ | .backendReadable _ _ => True

instance (s : Network) (event : Event) : Decidable (s.Served event) :=
  match event with
  | .hangUp fd _ => inferInstanceAs (Decidable (s.Quiet fd ∧ s.unread fd = []))
  | .connect _ | .send _ _ | .receive _ | .finish _ | .reset _ | .epollError _ | .answer _ _
  | .clientReadable _ _ | .backendReadable _ _ => inferInstanceAs (Decidable True)

/-- Settled, with clients that leave when they are served. -/
def Awaited (start : Startup) (s : Network) (event : Event) : Prop :=
  Settled start s event ∧ s.Served event

instance (start : Startup) (s : Network) (event : Event) : Decidable (Awaited start s event) :=
  inferInstanceAs (Decidable (_ ∧ _))

end Router
end Rinha
