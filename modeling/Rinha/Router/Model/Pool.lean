import Mathlib.Data.Finset.Erase
import Mathlib.Data.Finset.Insert
import Rinha.Common.Run
import Rinha.Router.Model.Router
/-!
# Accepts and closes

The router as its pool of unix connections sees it: clients come and go,
in any order and for any length of time. A descriptor the kernel hands to
a new client is one that is not open.
-/

namespace Rinha
namespace Router

/-- The tables, and the descriptors of the clients that are connected. -/
structure State where
  tables : Tables
  live : Finset ℕ

/-- A client connects, or the router reads the end of one's stream. -/
inductive Action
  | accept (infd : ℕ)
  | close (fd : ℕ)
  deriving DecidableEq

/-- The router after its start-up. -/
def State.init (start : Startup) : State := ⟨initializeThreadPool start, ∅⟩

/-- What can happen next. -/
def Enabled (start : Startup) (s : State) : Action → Prop
  | .accept infd => infd ∉ s.live ∧ ¬start.IsUnix infd
  | .close fd => fd ∈ s.live

instance (start : Startup) (s : State) (a : Action) : Decidable (Enabled start s a) :=
  match a with
  | .accept infd => inferInstanceAs (Decidable (infd ∉ s.live ∧ ¬start.IsUnix infd))
  | .close fd => inferInstanceAs (Decidable (fd ∈ s.live))

/-- What the router does about it. -/
def perform (s : State) : Action → Except Fault State
  | .accept infd => do
      let tables ← s.tables.accept infd
      return ⟨tables, insert infd s.live⟩
  | .close fd => do
      let tables ← s.tables.eraseFromMaps fd
      return ⟨tables, s.live.erase fd⟩

/-- A step the router survives. -/
def step (start : Startup) (s : State) (a : Action) (s' : State) : Prop :=
  Enabled start s a ∧ perform s a = .ok s'

/-! ## Exhaustion -/

/-- The side the next client is assigned to. -/
def State.nextSide (s : State) : Side := sideOf s.tables.roundRobinCounter

/-- Every unix connection of the side is paired with a connected client. -/
def Exhausted (start : Startup) (s : State) (side : Side) : Prop :=
  ∀ unixFd ∈ start.unixFds side, ∃ fd ∈ s.live, s.tables.tcpToUnix fd = some unixFd

instance (start : Startup) (s : State) (side : Side) : Decidable (Exhausted start s side) :=
  inferInstanceAs (Decidable (∀ unixFd ∈ start.unixFds side, ∃ fd ∈ s.live,
    s.tables.tcpToUnix fd = some unixFd))

/-- No connection has been put in the last slot of the side's ring yet. -/
def FirstLap (s : State) (side : Side) : Prop :=
  0 ≤ (s.tables.available side).endIdx ∧
    (s.tables.available side).endIdx < Int32.ofNat kMaxConnections

instance (s : State) (side : Side) : Decidable (FirstLap s side) :=
  inferInstanceAs (Decidable (_ ∧ _))

/-- Clients are assigned to an exhausted side only on the first lap of its
ring. -/
def InTime (start : Startup) (s : State) : Action → Prop
  | .accept _ => Exhausted start s s.nextSide → FirstLap s s.nextSide
  | .close _ => True

instance (start : Startup) (s : State) (a : Action) : Decidable (InTime start s a) :=
  match a with
  | .accept _ => inferInstanceAs (Decidable (Exhausted start s s.nextSide → FirstLap s s.nextSide))
  | .close _ => inferInstanceAs (Decidable True)

end Router
end Rinha
