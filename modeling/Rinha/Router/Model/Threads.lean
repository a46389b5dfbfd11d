import Rinha.Router.Model.Pool
/-!
# Accepts and closes, step by step

The operations of the event loop as the threads of the router run them,
cut at every access to a counter, a ring or a table. `EPOLLONESHOT` leaves
a client's descriptor to one thread at a time, and `Phase` is where that
thread is with it; descriptors are in any phases at once.

`fetch_add` hands out the counter, which a thread keeps until it uses it as
an index.
-/

namespace Rinha
namespace Router

/-- How far a client has been accepted or erased, and what its thread has
in hand. -/
inductive Phase
  | closed
  | accepted
  | assigned (side : Side)
  | ticketed (side : Side) (startIdx : Int32)
  | obtained (unixFd : ℕ)
  | listed (unixFd : ℕ)
  | connected
  | erasing (unixFd : ℕ)
  | unlisted (unixFd : ℕ)
  | unmapped (unixFd : ℕ)
  | returning (side : Side) (endIdx : Int32) (unixFd : ℕ)
  | returned
  deriving DecidableEq

/-- The slot a thread is about to read, by the count of its ring. -/
def Phase.takes? : Phase → Option (Side × ℕ)
  | .ticketed side startIdx => some (side, startIdx.toNatClampNeg)
  | _ => none

/-- The slot a thread is about to write. -/
def Phase.returns? : Phase → Option (Side × ℕ)
  | .returning side endIdx _ => some (side, endIdx.toNatClampNeg)
  | _ => none

/-- The tables, the descriptors of clients, and where each of them is. -/
structure Threads where
  tables : Tables
  live : Finset ℕ
  phase : ℕ → Phase

namespace Threads

/-- A client connects, the router reads the end of one's stream, or the
thread that has one takes its next step. -/
inductive Action
  | accept (infd : ℕ)
  | readEnd (fd : ℕ)
  | advance (fd : ℕ)
  deriving DecidableEq

def init (start : Startup) : Threads := ⟨initializeThreadPool start, ∅, fun _ => .closed⟩

/-- A thread is done with a step. -/
def goto (s : Threads) (fd : ℕ) (phase : Phase) : Threads :=
  { s with phase := Function.update s.phase fd phase }

/-- One of the rings changes. -/
def setRing (s : Threads) (side : Side) (ring : Ring) : Threads :=
  { s with tables :=
      { s.tables with available := Function.update s.tables.available side ring } }

/-- An entry of `tcp_to_unix` changes. -/
def setTcp (s : Threads) (fd : ℕ) (unixFd : Option ℕ) : Threads :=
  { s with tables :=
      { s.tables with tcpToUnix := Function.update s.tables.tcpToUnix fd unixFd } }

/-- An entry of `unix_to_tcp` changes. -/
def setUnix (s : Threads) (unixFd : ℕ) (fd : Option ℕ) : Threads :=
  { s with tables :=
      { s.tables with unixToTcp := Function.update s.tables.unixToTcp unixFd fd } }

/-- What can happen next. -/
def Enabled (start : Startup) (s : Threads) : Action → Prop
  | .accept infd => infd ∉ s.live ∧ ¬start.IsUnix infd
  | .readEnd fd => s.phase fd = .connected
  | .advance fd => s.phase fd ≠ .closed ∧ s.phase fd ≠ .connected

instance (start : Startup) (s : Threads) (a : Action) : Decidable (Enabled start s a) :=
  match a with
  | .accept infd => inferInstanceAs (Decidable (infd ∉ s.live ∧ ¬start.IsUnix infd))
  | .readEnd fd => inferInstanceAs (Decidable (s.phase fd = .connected))
  | .advance fd =>
      inferInstanceAs (Decidable (s.phase fd ≠ .closed ∧ s.phase fd ≠ .connected))

/-- The next access of the accept branch or of `erase_from_maps`. -/
def advance (s : Threads) (fd : ℕ) : Except Fault Threads :=
  match s.phase fd with
  | .closed | .connected => .ok s
  | .accepted =>
      let counter := s.tables.roundRobinCounter
      .ok ({ s with tables := { s.tables with roundRobinCounter := counter + 1 } }.goto fd
        (.assigned (sideOf counter)))
  | .assigned side =>
      let ring := s.tables.available side
      .ok ((s.setRing side { ring with startIdx := ring.startIdx + 1 }).goto fd
        (.ticketed side ring.startIdx))
  | .ticketed side startIdx => do
      let index ← slotIndex startIdx
      match (s.tables.available side).slots index with
      | none => .error .checkFailed
      | some unixFd => return s.goto fd (.obtained unixFd)
  | .obtained unixFd =>
      if fd < kMaxConnections then .ok ((s.setTcp fd (some unixFd)).goto fd (.listed unixFd))
      else .error .outOfBounds
  | .listed unixFd => .ok ((s.setUnix unixFd (some fd)).goto fd .connected)
  | .erasing unixFd => .ok ((s.setUnix unixFd none).goto fd (.unlisted unixFd))
  | .unlisted unixFd => .ok ((s.setTcp fd none).goto fd (.unmapped unixFd))
  | .unmapped unixFd =>
      let side := s.tables.side unixFd
      let ring := s.tables.available side
      .ok ((s.setRing side { ring with endIdx := ring.endIdx + 1 }).goto fd
        (.returning side ring.endIdx unixFd))
  | .returning side endIdx unixFd => do
      let ring := s.tables.available side
      let index ← slotIndex endIdx
      return (s.setRing side
        { ring with slots := Function.update ring.slots index (some unixFd) }).goto fd .returned
  | .returned => .ok { s.goto fd .closed with live := s.live.erase fd }

/-- What the router does about it. -/
def perform (s : Threads) : Action → Except Fault Threads
  | .accept infd => .ok { s.goto infd .accepted with live := insert infd s.live }
  | .readEnd fd =>
      match s.tables.tcpToUnix fd with
      | some unixFd => .ok (s.goto fd (.erasing unixFd))
      | none => .error .checkFailed
  | .advance fd => s.advance fd

/-- A step the router survives. -/
def step (start : Startup) (s : Threads) (a : Action) : Option Threads :=
  if Enabled start s a then (s.perform a).toOption else none

/-- A slot is used in time. A client takes a ticket of a ring while its
window is not empty, and reads its slot when what it waits for has been
written; a connection gets a ticket while the counter is not negative, and
is written when the slot's last one has been read. -/
def UsesInTime (s : Threads) : Phase → Prop
  | .assigned side => (s.tables.available side).startIdx < (s.tables.available side).endIdx
  | .ticketed side startIdx =>
      ∀ other ∈ s.live, (s.phase other).returns? ≠ some (side, startIdx.toNatClampNeg)
  | .unmapped unixFd => 0 ≤ (s.tables.available (s.tables.side unixFd)).endIdx
  | .returning side endIdx _ => endIdx.toNatClampNeg < kMaxConnections ∨
      ∀ other ∈ s.live,
        (s.phase other).takes? ≠ some (side, endIdx.toNatClampNeg - kMaxConnections)
  | _ => True

/-- Every slot is. -/
def InTime (s : Threads) : Action → Prop
  | .accept _ | .readEnd _ => True
  | .advance fd => s.UsesInTime (s.phase fd)

instance (s : Threads) : (phase : Phase) → Decidable (s.UsesInTime phase)
  | .assigned side =>
      inferInstanceAs (Decidable ((s.tables.available side).startIdx <
        (s.tables.available side).endIdx))
  | .ticketed side startIdx =>
      inferInstanceAs (Decidable (∀ other ∈ s.live,
        (s.phase other).returns? ≠ some (side, startIdx.toNatClampNeg)))
  | .unmapped unixFd =>
      inferInstanceAs (Decidable (0 ≤ (s.tables.available (s.tables.side unixFd)).endIdx))
  | .returning side endIdx _ =>
      inferInstanceAs (Decidable (endIdx.toNatClampNeg < kMaxConnections ∨
        ∀ other ∈ s.live,
          (s.phase other).takes? ≠ some (side, endIdx.toNatClampNeg - kMaxConnections)))
  | .closed | .accepted | .obtained _ | .listed _ | .connected | .erasing _ | .unlisted _
  | .returned => .isTrue trivial

instance (s : Threads) : (a : Action) → Decidable (InTime s a)
  | .accept _ | .readEnd _ => .isTrue trivial
  | .advance fd => inferInstanceAs (Decidable (s.UsesInTime (s.phase fd)))

/-- No thread is in the middle of an operation. -/
def Quiet (s : Threads) : Prop := ∀ fd, s.phase fd = .closed ∨ s.phase fd = .connected

/-- The tables as `Pool` has them. -/
def toState (s : Threads) : State := ⟨s.tables, s.live⟩

end Threads

end Router
end Rinha
