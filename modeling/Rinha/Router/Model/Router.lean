import Mathlib.Data.Finset.Basic
import Mathlib.Data.List.Nodup
import Mathlib.Logic.Function.Basic
import Rinha.Common.Socket
/-!
# `thread_pool_router.cc`

The router's tables, and the operations of its event loop: a new client
is accepted and paired with a unix connection, a readable descriptor has
its bytes forwarded to the other end of its pair, and a client that closed
gives its unix connection back. A table of descriptors with `-1` for none
is a function to `Option`. A `CHECK` that fails and an index outside its
array are both the end of the process.
-/

namespace Rinha
namespace Router

def kMaxConnections : ℕ := 1000
def kInitialUnixConnections : ℕ := 50
def kBufferSize : ℕ := 4096

/-- The ways the process ends. -/
inductive Fault
  | checkFailed
  | outOfBounds
  | brokenPipe
  deriving DecidableEq

/-- `connection_1` of the source, `one` where it is true. -/
inductive Side
  | one
  | two
  deriving DecidableEq

/-! ## The rings of available connections -/

/-- `available_unix_connections_…` with its `start_idx` and `end_idx`. -/
structure Ring where
  slots : ℕ → Option ℕ
  startIdx : Int32
  endIdx : Int32

/-- `… % kMaxConnections` as an index. The remainder takes the sign of the
counter, and a negative one is outside the array. -/
def slotIndex (counter : Int32) : Except Fault ℕ :=
  let index := counter % Int32.ofNat kMaxConnections
  if index < 0 then .error .outOfBounds else .ok index.toNatClampNeg

/-- The slot at `start_idx`, which moves on. -/
def Ring.pop (ring : Ring) : Except Fault (Option ℕ × Ring) := do
  let index ← slotIndex ring.startIdx
  return (ring.slots index, { ring with startIdx := ring.startIdx + 1 })

/-- A connection is put in the slot at `end_idx`, which moves on. -/
def Ring.push (ring : Ring) (unixFd : ℕ) : Except Fault Ring := do
  let index ← slotIndex ring.endIdx
  return { ring with
    slots := Function.update ring.slots index (some unixFd)
    endIdx := ring.endIdx + 1 }

/-- The same at start-up, where `end_idx` itself is the index. -/
def Ring.add (ring : Ring) (unixFd : ℕ) : Ring :=
  { ring with
    slots := Function.update ring.slots ring.endIdx.toNatClampNeg (some unixFd)
    endIdx := ring.endIdx + 1 }

/-! ## The tables -/

/-- The globals of the file. `connection1Fds fd` says `connection_1_fds[fd]`
is not `-1`. -/
structure Tables where
  tcpToUnix : ℕ → Option ℕ
  unixToTcp : ℕ → Option ℕ
  connection1Fds : ℕ → Bool
  available : Side → Ring
  roundRobinCounter : Int32

/-- `round_robin_counter … % 2 == 0` is connection 1. -/
def sideOf (counter : Int32) : Side :=
  if counter % 2 = 0 then .one else .two

/-- The side a unix connection goes back to. -/
def Tables.side (tables : Tables) (unixFd : ℕ) : Side :=
  if tables.connection1Fds unixFd then .one else .two

/-- The `fill_n` calls of `InitializeThreadPool`. -/
def Tables.blank : Tables where
  tcpToUnix := fun _ => none
  unixToTcp := fun _ => none
  connection1Fds := fun _ => false
  available := fun _ => ⟨fun _ => none, 0, 0⟩
  roundRobinCounter := 0

/-- One round of the start-up loop: a connection to each socket. -/
def Tables.addConnections (tables : Tables) (fds : ℕ × ℕ) : Tables :=
  { tables with
    connection1Fds := Function.update tables.connection1Fds fds.1 true
    available := fun
      | .one => (tables.available .one).add fds.1
      | .two => (tables.available .two).add fds.2 }

/-- The descriptors the start-up loop gets from `socket`, a pair in each
round: all different, and indices of the tables. -/
structure Startup where
  fds : List (ℕ × ℕ)
  length_fds : fds.length = kInitialUnixConnections
  nodup : (fds.map Prod.fst ++ fds.map Prod.snd).Nodup
  lt_max : ∀ fd ∈ fds.map Prod.fst ++ fds.map Prod.snd, fd < kMaxConnections

/-- The unix connections of a side. -/
def Startup.unixFds (start : Startup) : Side → List ℕ
  | .one => start.fds.map Prod.fst
  | .two => start.fds.map Prod.snd

/-- The descriptor is a unix connection. -/
def Startup.IsUnix (start : Startup) (fd : ℕ) : Prop := ∃ side, fd ∈ start.unixFds side

instance (start : Startup) (fd : ℕ) : Decidable (start.IsUnix fd) :=
  decidable_of_iff (fd ∈ start.unixFds .one ∨ fd ∈ start.unixFds .two)
    ⟨fun h => h.elim (⟨.one, ·⟩) (⟨.two, ·⟩), fun
      | ⟨.one, h⟩ => .inl h
      | ⟨.two, h⟩ => .inr h⟩

/-- `InitializeThreadPool`, up to its threads. -/
def initializeThreadPool (start : Startup) : Tables :=
  start.fds.foldl Tables.addConnections .blank

/-! ## The operations -/

/-- The new client and the connection it was given go into the maps. -/
def Tables.pair (tables : Tables) (side : Side) (ring : Ring) (infd unixFd : ℕ) : Tables :=
  { tables with
    tcpToUnix := Function.update tables.tcpToUnix infd (some unixFd)
    unixToTcp := Function.update tables.unixToTcp unixFd (some infd)
    available := Function.update tables.available side ring
    roundRobinCounter := tables.roundRobinCounter + 1 }

/-- The client and its connection leave the maps. -/
def Tables.unpair (tables : Tables) (side : Side) (ring : Ring) (fd unixFd : ℕ) : Tables :=
  { tables with
    unixToTcp := Function.update tables.unixToTcp unixFd none
    tcpToUnix := Function.update tables.tcpToUnix fd none
    available := Function.update tables.available side ring }

/-- The accept branch, on the descriptor `accept` returned. -/
def Tables.accept (tables : Tables) (infd : ℕ) : Except Fault Tables := do
  let side := sideOf tables.roundRobinCounter
  let (slot, ring) ← (tables.available side).pop
  match slot with
  | none => .error .checkFailed
  | some unixFd =>
      if infd < kMaxConnections then return tables.pair side ring infd unixFd
      else .error .outOfBounds

/-- `erase_from_maps`. A unix connection that closed runs into
`CHECK(false)`, as does a descriptor in neither map. -/
def Tables.eraseFromMaps (tables : Tables) (fd : ℕ) : Except Fault Tables :=
  match tables.tcpToUnix fd with
  | some unixFd => do
      let ring ← (tables.available (tables.side unixFd)).push unixFd
      return tables.unpair (tables.side unixFd) ring fd unixFd
  | none => .error .checkFailed

/-- `dst_fd` of the data branch, with its `CHECK`. -/
def Tables.dstFd (tables : Tables) (srcFd : ℕ) : Except Fault ℕ :=
  match tables.tcpToUnix srcFd with
  | some unixFd => .ok unixFd
  | none =>
      match tables.unixToTcp srcFd with
      | some tcpFd => .ok tcpFd
      | none => .error .checkFailed

/-- The read loop of `HandleMessage`, on what is readable at each call:
what is in `buf`, and `closed_connection`. A `read` with no room left
returns 0, which is taken for the end of the file. -/
def readMessage {β : Type} (ending : ReadEnd) :
    List (List β) → List β → Except Fault (List β × Bool)
  | [], buf =>
      if buf.length = kBufferSize then .ok (buf, true)
      else match ending with
        | .eagain => .ok (buf, false)
        | .endOfFile => .ok (buf, true)
        | .error => .error .checkFailed
  | chunk :: chunks, buf =>
      if buf.length = kBufferSize then .ok (buf, true)
      else readMessage ending chunks (buf ++ chunk.take (kBufferSize - buf.length))

/-- `HandleMessage`: the bytes handed to `write`, and what becomes of the
router after that, with `closed_connection`. -/
def Tables.handleMessage {β : Type} (tables : Tables) (src : ℕ) (ending : ReadEnd)
    (chunks : List (List β)) : List β × Except Fault (Tables × Bool) :=
  match readMessage ending chunks [] with
  | .error fault => ([], .error fault)
  | .ok (buf, false) => (buf, .ok (tables, false))
  | .ok (buf, true) =>
      (buf, if buf.length = 0 then do
          let tables ← tables.eraseFromMaps src
          return (tables, true)
        else .error .checkFailed)

/-- What `HandleMessage` does to the sockets: a `write` and what it returns,
which is not looked at, and `EPOLL_CTL_MOD`. -/
inductive SocketOp (β : Type)
  | write (dst : ℕ) (bytes : List β) (result : WriteResult)
  | rearm (src : ℕ)

/-- `HandleMessage`, by what it does to the sockets, in order. -/
def Tables.messageOps {β : Type} (tables : Tables) (src dst : ℕ) (ending : ReadEnd)
    (chunks : List (List β)) (result : WriteResult) : List (SocketOp β) :=
  let buf := (tables.handleMessage src ending chunks).1
  if buf.length > 0 then [.write dst buf result, .rearm src] else []

/-- The data branch: the other end of the pair, and `HandleMessage`. -/
def Tables.dataOps {β : Type} (tables : Tables) (src : ℕ) (ending : ReadEnd)
    (chunks : List (List β)) (result : WriteResult) : Except Fault (List (SocketOp β)) := do
  let dst ← tables.dstFd src
  return tables.messageOps src dst ending chunks result

end Router
end Rinha
