import Mathlib.Logic.Relation
import Rinha.Router.Exhaustion
import Rinha.Router.Tickets
/-!
# The router's threads share a pool of leases

With the operations cut at every access, the router is the pool of leases
it is when they are atomic: a client's connection is its own from the
moment its thread takes a ticket of the ring, and free again from the
moment a thread has a number to put it back under. Every other access
leaves the pool as it is (`Sane.of_step`). Where no thread is in the middle
of anything, the tables are those of the atomic router (`Sane.orderly`).
-/

namespace Rinha
namespace Router

namespace Threads

/-! ## Who has which connection -/

/-- The side a unix connection was made to. -/
def home (start : Startup) : ℕ → Side := (initializeThreadPool start).side

end Threads

/-- The connection a client has, by how far it is: a ticket is as good as
what it is for. `entry` is what `tcp_to_unix` has for it. -/
def Phase.held? (g : History) (entry : Option ℕ) : Phase → Option ℕ
  | .ticketed side startIdx => (g.pushed side)[startIdx.toNatClampNeg]?
  | .obtained unixFd | .listed unixFd | .erasing unixFd | .unlisted unixFd | .unmapped unixFd =>
      some unixFd
  | .connected => entry
  | .closed | .accepted | .assigned _ | .returning _ _ _ | .returned => none

/-- What `tcp_to_unix` has. -/
def Phase.unixFd? (entry : Option ℕ) : Phase → Option ℕ
  | .listed unixFd | .erasing unixFd | .unlisted unixFd => some unixFd
  | .connected => entry
  | .closed | .accepted | .assigned _ | .ticketed _ _ | .obtained _ | .unmapped _
  | .returning _ _ _ | .returned => none

/-- The connection whose `unix_to_tcp` is this client. -/
def Phase.paired? (entry : Option ℕ) : Phase → Option ℕ
  | .erasing unixFd => some unixFd
  | .connected => entry
  | .closed | .accepted | .assigned _ | .ticketed _ _ | .obtained _ | .listed _ | .unlisted _
  | .unmapped _ | .returning _ _ _ | .returned => none

/-- The counters it has in hand have not wrapped. -/
def Phase.Nonneg : Phase → Prop
  | .ticketed _ startIdx => 0 ≤ startIdx
  | .returning _ endIdx _ => 0 ≤ endIdx
  | _ => True

/-- It is not on the way to a slot. -/
def Phase.Unbound (phase : Phase) : Prop := phase.takes? = none ∧ phase.returns? = none

theorem Phase.Unbound.nonneg {phase : Phase} (h : phase.Unbound) : phase.Nonneg := by
  cases phase with
  | ticketed => cases h.1
  | returning => cases h.2
  | closed | accepted | assigned | obtained | listed | connected | erasing | unlisted | unmapped
  | returned => trivial

theorem Phase.held?_of_paired? {g : History} {entry : Option ℕ} {unixFd : ℕ} {phase : Phase}
    (h : phase.paired? entry = some unixFd) : phase.held? g entry = some unixFd := by
  cases phase with
  | erasing | connected => exact h
  | closed | accepted | assigned | ticketed | obtained | listed | unlisted | unmapped
  | returning | returned => cases h

namespace Threads

def takes (s : Threads) (fd : ℕ) : Option (Side × ℕ) := (s.phase fd).takes?
def returns (s : Threads) (fd : ℕ) : Option (Side × ℕ) := (s.phase fd).returns?
def paired (s : Threads) (fd : ℕ) : Option ℕ := (s.phase fd).paired? (s.tables.tcpToUnix fd)

/-- The windows of the rings, and who has which connection. -/
def lease (g : History) (s : Threads) : Lease.Pool Side ℕ ℕ where
  free side := (g.pushed side).drop (g.popped side)
  held fd := (s.phase fd).held? g (s.tables.tcpToUnix fd)

/-- The tables and the threads are those of a sound pool with this
history. -/
structure Sane (start : Startup) (g : History) (s : Threads) : Prop where
  connection1Fds : s.tables.connection1Fds = (initializeThreadPool start).connection1Fds
  pushed_mem : ∀ side, ∀ unixFd ∈ g.pushed side, unixFd ∈ start.unixFds side
  rings : Rings g s.tables.available s.takes s.returns
  entry : ∀ fd, s.tables.tcpToUnix fd = (s.phase fd).unixFd? (s.tables.tcpToUnix fd)
  connected : ∀ fd, s.phase fd = .connected → ∃ unixFd, s.tables.tcpToUnix fd = some unixFd
  sound : Lease.Sound (home start) start.IsUnix (lease g s)
  inverse : Lease.Inverse s.paired s.tables.unixToTcp
  numbered : ∀ fd side endIdx unixFd, s.phase fd = .returning side endIdx unixFd →
    (g.pushed side)[endIdx.toNatClampNeg]? = some unixFd
  nonneg : ∀ fd, (s.phase fd).Nonneg
  live_iff : ∀ fd, fd ∈ s.live ↔ s.phase fd ≠ .closed
  not_unix : ∀ fd ∈ s.live, ¬start.IsUnix fd

variable {start : Startup} {g g' : History} {s s' : Threads} {fd : ℕ} {phase : Phase}

theorem Sane.side_eq (h : Sane start g s) : s.tables.side = home start := by
  funext unixFd
  simp only [Tables.side, h.connection1Fds, home]

theorem sane_init (start : Startup) : Sane start (.init start) (init start) := by
  have horderly := orderly_init start
  have hone := connected_init start
  have htakes : ∀ side n, ¬Bound (init start).takes side n := by
    rintro side n ⟨fd, hfd⟩
    cases hfd
  have hreturns : ∀ side, Bound (init start).returns side = fun _ => False := by
    intro side
    funext n
    refine eq_false ?_
    rintro ⟨fd, hfd⟩
    cases hfd
  have hlease : lease (.init start) (init start) = (History.init start).lease (State.init start).tables := by
    simp only [lease, History.lease, Lease.Pool.mk.injEq, true_and]
    exact hone.tcpToUnix.symm
  constructor
  case connection1Fds => rfl
  case pushed_mem => exact fun _ _ hmem => hmem
  case rings =>
    exact {
      startIdx := fun side => (horderly.ring side).startIdx
      endIdx := fun side => (horderly.ring side).endIdx
      popped_le := fun side => (horderly.ring side).popped_le
      length_le := fun side => (horderly.ring side).length_le
      holds := fun side => by
        rw [hreturns]
        refine TicketRing.holds_of_queue (horderly.ring side).queue ?_
        have := start.length_unixFds side
        change (start.unixFds side).length ≤ kMaxConnections
        rw [this]
        decide
      takes_lt := fun side n hn => absurd hn (htakes side n)
      takes_apart := fun _ _ _ hfd => by cases hfd
      returns_apart := fun _ _ _ hfd => by cases hfd }
  case entry => exact fun fd => congrFun hone.tcpToUnix fd
  case connected => exact fun fd hfd => by cases hfd
  case sound =>
    rw [hlease]
    exact horderly.sound
  case inverse =>
    have hpaired : (init start).paired = (State.init start).tables.tcpToUnix :=
      hone.tcpToUnix.symm
    rw [hpaired]
    exact horderly.inverse
  case numbered => exact fun fd side endIdx unixFd hfd => by cases hfd
  case nonneg => exact fun _ => trivial
  case live_iff => exact fun fd => iff_of_false (Finset.notMem_empty fd) fun hne => hne rfl
  case not_unix => exact fun fd hfd => absurd hfd (Finset.notMem_empty fd)

/-! ## What a sane state tells -/

/-- A client on the way to a slot is a live one. -/
theorem Sane.not_bound_returns (h : Sane start g s) {side : Side} {n : ℕ}
    (hnone : ∀ other ∈ s.live, (s.phase other).returns? ≠ some (side, n)) :
    ¬Bound s.returns side n := by
  rintro ⟨other, hother⟩
  refine hnone other ((h.live_iff other).mpr fun hclosed => ?_) hother
  rw [returns, hclosed] at hother
  cases hother

theorem Sane.not_bound_takes (h : Sane start g s) {side : Side} {n : ℕ}
    (hnone : ∀ other ∈ s.live, (s.phase other).takes? ≠ some (side, n)) :
    ¬Bound s.takes side n := by
  rintro ⟨other, hother⟩
  refine hnone other ((h.live_iff other).mpr fun hclosed => ?_) hother
  rw [takes, hclosed] at hother
  cases hother

/-- No more than the side's connections wait in a window. -/
theorem Sane.pushed_le (h : Sane start g s) (side : Side) :
    (g.pushed side).length ≤ g.popped side + kMaxConnections := by
  have hsub : ((lease g s).free side).Subperm (start.unixFds side) :=
    (h.sound.nodup side).subperm fun unixFd hmem => by
      obtain ⟨⟨side', hmem'⟩, hside⟩ := h.sound.owned_of_free hmem
      have heq : home start unixFd = side' := (orderly_init start).side_eq hmem'
      rwa [← hside, heq]
  have hlen := hsub.length_le
  rw [start.length_unixFds] at hlen
  simp only [lease, List.length_drop] at hlen
  unfold kInitialUnixConnections at hlen
  unfold kMaxConnections
  omega

/-- The index of a counter that has not wrapped. -/
theorem slotIndex_of_nonneg {counter : Int32} (h : 0 ≤ counter) :
    slotIndex counter = .ok (counter.toNatClampNeg % kMaxConnections) := by
  have hlt : counter.toNatClampNeg < 2 ^ 31 := by
    have := counter.toInt_lt
    rw [Int32.toNatClampNeg]
    omega
  have heq : Int32.ofNat counter.toNatClampNeg = counter := by
    rw [← Int32.toInt_inj, Int32.toInt_ofNat_of_lt hlt, Int32.toNatClampNeg]
    rw [Int32.le_iff_toInt_le, show (0 : Int32).toInt = 0 from rfl] at h
    omega
  conv_lhs => rw [← heq]
  exact slotIndex_ofNat hlt

theorem nonneg_ofNat {n : ℕ} (h : n < 2 ^ 31) : 0 ≤ Int32.ofNat n := by
  rw [Int32.le_iff_toInt_le, Int32.toInt_ofNat_of_lt h, show (0 : Int32).toInt = 0 from rfl]
  omega

theorem toNatClampNeg_ofNat {n : ℕ} (h : n < 2 ^ 31) : (Int32.ofNat n).toNatClampNeg = n := by
  rw [Int32.toNatClampNeg, Int32.toInt_ofNat_of_lt h, Int.toNat_natCast]

/-! ## One client moves -/

/-- One client is in another phase, and the entries of the others are what
they were. -/
structure Advanced (s : Threads) (fd : ℕ) (phase : Phase) (s' : Threads) : Prop where
  phase_eq : s'.phase = Function.update s.phase fd phase
  tcpToUnix_of_ne : ∀ other, other ≠ fd → s'.tables.tcpToUnix other = s.tables.tcpToUnix other

section Advanced

variable (h : Advanced s fd phase s')
include h

theorem Advanced.phase_self : s'.phase fd = phase := by
  rw [h.phase_eq, Function.update_self]

theorem Advanced.phase_of_ne {other : ℕ} (hne : other ≠ fd) : s'.phase other = s.phase other := by
  rw [h.phase_eq, Function.update_of_ne hne]

/-- What is read off a client's phase and its entry changes for one. -/
theorem Advanced.funext {α : Type} (f : Option ℕ → Phase → α) :
    (fun other => f (s'.tables.tcpToUnix other) (s'.phase other)) =
      Function.update (fun other => f (s.tables.tcpToUnix other) (s.phase other)) fd
        (f (s'.tables.tcpToUnix fd) phase) := by
  funext other
  by_cases heq : other = fd
  · subst heq
    rw [Function.update_self, h.phase_self]
  · rw [Function.update_of_ne heq, h.phase_of_ne heq, h.tcpToUnix_of_ne other heq]

theorem Advanced.takes : s'.takes = Function.update s.takes fd phase.takes? :=
  h.funext fun _ => Phase.takes?

theorem Advanced.returns : s'.returns = Function.update s.returns fd phase.returns? :=
  h.funext fun _ => Phase.returns?

theorem Advanced.paired :
    s'.paired = Function.update s.paired fd (phase.paired? (s'.tables.tcpToUnix fd)) :=
  h.funext fun entry phase => phase.paired? entry

theorem Advanced.held : (lease g s').held =
    Function.update (lease g s).held fd (phase.held? g (s'.tables.tcpToUnix fd)) :=
  h.funext fun entry phase => phase.held? g entry

end Advanced

/-- **A step of one client**, by what it does to the rings, the pool and
the pairs. -/
theorem Sane.move (h : Sane start g s) (hadv : Advanced s fd phase s')
    (hfds : s'.tables.connection1Fds = s.tables.connection1Fds)
    (hgrow : ∀ side, g.pushed side <+: g'.pushed side)
    (hmem : ∀ side, ∀ unixFd ∈ g'.pushed side, unixFd ∈ start.unixFds side)
    (hrings : Rings g' s'.tables.available s'.takes s'.returns)
    (hsound : Lease.Sound (home start) start.IsUnix (lease g' s'))
    (hinverse : Lease.Inverse s'.paired s'.tables.unixToTcp)
    (hentry : s'.tables.tcpToUnix fd = phase.unixFd? (s'.tables.tcpToUnix fd))
    (hconnected : phase = .connected → ∃ unixFd, s'.tables.tcpToUnix fd = some unixFd)
    (hnumbered : ∀ side endIdx unixFd, phase = .returning side endIdx unixFd →
      (g'.pushed side)[endIdx.toNatClampNeg]? = some unixFd)
    (hnonneg : phase.Nonneg)
    (hlive : ∀ other, other ≠ fd → (other ∈ s'.live ↔ other ∈ s.live))
    (hself : fd ∈ s'.live ↔ phase ≠ .closed) (hunix : fd ∈ s'.live → ¬start.IsUnix fd) :
    Sane start g' s' where
  connection1Fds := hfds.trans h.connection1Fds
  pushed_mem := hmem
  rings := hrings
  sound := hsound
  inverse := hinverse
  entry other := by
    by_cases heq : other = fd
    · subst heq
      rw [hadv.phase_self]
      exact hentry
    · rw [hadv.phase_of_ne heq, hadv.tcpToUnix_of_ne other heq]
      exact h.entry other
  connected other hother := by
    by_cases heq : other = fd
    · subst heq
      rw [hadv.phase_self] at hother
      exact hconnected hother
    · rw [hadv.phase_of_ne heq] at hother
      rw [hadv.tcpToUnix_of_ne other heq]
      exact h.connected other hother
  numbered other side endIdx unixFd hother := by
    by_cases heq : other = fd
    · subst heq
      rw [hadv.phase_self] at hother
      exact hnumbered side endIdx unixFd hother
    · rw [hadv.phase_of_ne heq] at hother
      obtain ⟨hlt, hget⟩ := List.getElem?_eq_some_iff.mp (h.numbered other side endIdx unixFd hother)
      obtain ⟨rest, hrest⟩ := hgrow side
      rw [← hrest, List.getElem?_append_left hlt]
      exact h.numbered other side endIdx unixFd hother
  nonneg other := by
    by_cases heq : other = fd
    · subst heq
      rw [hadv.phase_self]
      exact hnonneg
    · rw [hadv.phase_of_ne heq]
      exact h.nonneg other
  live_iff other := by
    by_cases heq : other = fd
    · subst heq
      rw [hadv.phase_self]
      exact hself
    · rw [hadv.phase_of_ne heq, hlive other heq]
      exact h.live_iff other
  not_unix other hother := by
    by_cases heq : other = fd
    · subst heq
      exact hunix hother
    · exact h.not_unix other ((hlive other heq).mp hother)

/-- **A step that leaves the rings and the pool as they are**, between two
phases that are not on the way to a slot. -/
theorem Sane.stutter (h : Sane start g s) (hadv : Advanced s fd phase s')
    (hbefore : (s.phase fd).Unbound) (hafter : phase.Unbound)
    (hfds : s'.tables.connection1Fds = s.tables.connection1Fds)
    (havailable : s'.tables.available = s.tables.available)
    (hheld : phase.held? g (s'.tables.tcpToUnix fd) = (lease g s).held fd)
    (hinverse : Lease.Inverse s'.paired s'.tables.unixToTcp)
    (hentry : s'.tables.tcpToUnix fd = phase.unixFd? (s'.tables.tcpToUnix fd))
    (hconnected : phase = .connected → ∃ unixFd, s'.tables.tcpToUnix fd = some unixFd)
    (hlive : ∀ other, other ≠ fd → (other ∈ s'.live ↔ other ∈ s.live))
    (hself : fd ∈ s'.live ↔ phase ≠ .closed) (hunix : fd ∈ s'.live → ¬start.IsUnix fd) :
    Sane start g s' ∧ lease g s' = lease g s := by
  have htakes : s'.takes = s.takes := by
    have hnone : s.takes fd = none := hbefore.1
    rw [hadv.takes, hafter.1, ← hnone, Function.update_eq_self]
  have hreturns : s'.returns = s.returns := by
    have hnone : s.returns fd = none := hbefore.2
    rw [hadv.returns, hafter.2, ← hnone, Function.update_eq_self]
  have hlease : lease g s' = lease g s := by
    have hsame : (lease g s').held = (lease g s).held := by
      rw [hadv.held, hheld, Function.update_eq_self]
    exact congrArg (Lease.Pool.mk _) hsame
  refine ⟨h.move hadv hfds (fun side => List.prefix_refl _) h.pushed_mem ?_ ?_ hinverse hentry hconnected
    ?_ hafter.nonneg hlive hself hunix, hlease⟩
  · rw [havailable, htakes, hreturns]
    exact h.rings
  · rw [hlease]
    exact h.sound
  · rintro side endIdx unixFd rfl
    cases hafter.2

/-- A client that stays connected, or on its way, is as live as before. -/
theorem Sane.live_self (h : Sane start g s) (phase : Phase) (hbefore : s.phase fd ≠ .closed)
    (hafter : phase ≠ .closed) : (fd ∈ s.live ↔ phase ≠ .closed) ∧ (fd ∈ s.live → ¬start.IsUnix fd) :=
  ⟨iff_of_true ((h.live_iff fd).mpr hbefore) hafter, h.not_unix fd⟩

/-- Between phases outside `unix_to_tcp` the pairs stay. -/
theorem Sane.inverse_of_unpaired (h : Sane start g s) (hadv : Advanced s fd phase s')
    (htable : s'.tables.unixToTcp = s.tables.unixToTcp)
    (hpaired : phase.paired? (s'.tables.tcpToUnix fd) = s.paired fd) :
    Lease.Inverse s'.paired s'.tables.unixToTcp := by
  rw [hadv.paired, hpaired, Function.update_eq_self, htable]
  exact h.inverse

/-! ## The steps -/

/-- What a step comes to for the pool. -/
def Refines (start : Startup) (g : History) (s s' : Threads) : Prop :=
  ∃ g', Sane start g' s' ∧
    (lease g' s' = lease g s ∨ Lease.Moved (home start) (lease g s) (lease g' s'))

theorem Sane.accept (h : Sane start g s) (hlive : fd ∉ s.live) (hunix : ¬start.IsUnix fd) :
    Refines start g s { s.goto fd .accepted with live := insert fd s.live } := by
  have hclosed : s.phase fd = .closed := by
    by_contra hne
    exact hlive ((h.live_iff fd).mpr hne)
  have hnone : s.tables.tcpToUnix fd = none := by
    rw [h.entry fd, hclosed]
    rfl
  have hadv : Advanced s fd .accepted { s.goto fd .accepted with live := insert fd s.live } :=
    ⟨rfl, fun _ _ => rfl⟩
  obtain ⟨hsane, hlease⟩ := h.stutter hadv (by rw [hclosed]; exact ⟨rfl, rfl⟩) ⟨rfl, rfl⟩ rfl rfl
    (by simp only [lease, hclosed]; rfl)
    (h.inverse_of_unpaired hadv rfl (by rw [paired, hclosed]; rfl)) hnone nofun
    (fun other hne => by simp [hne]) (iff_of_true (Finset.mem_insert_self _ _) nofun)
    fun _ => hunix
  exact ⟨g, hsane, .inl hlease⟩

/-- A thread's next step, from each phase. -/
theorem Sane.advance_accepted (h : Sane start g s) (hphase : s.phase fd = .accepted)
    (side : Side) (counter : Int32) :
    Refines start g s
      ({ s with tables := { s.tables with roundRobinCounter := counter } }.goto fd
        (.assigned side)) := by
  have hadv : Advanced s fd (.assigned side)
      ({ s with tables := { s.tables with roundRobinCounter := counter } }.goto fd
        (.assigned side)) := ⟨rfl, fun _ _ => rfl⟩
  obtain ⟨hself, hunix⟩ := h.live_self (.assigned side) (by rw [hphase]; nofun) nofun
  have hnone : s.tables.tcpToUnix fd = none := by
    rw [h.entry fd, hphase]
    rfl
  obtain ⟨hsane, hlease⟩ := h.stutter hadv (by rw [hphase]; exact ⟨rfl, rfl⟩) ⟨rfl, rfl⟩ rfl rfl
    (by simp only [lease, hphase]; rfl)
    (h.inverse_of_unpaired hadv rfl (by rw [paired, hphase]; rfl)) hnone nofun
    (fun _ _ => Iff.rfl) hself hunix
  exact ⟨g, hsane, .inl hlease⟩

theorem Sane.advance_obtained (h : Sane start g s) {unixFd : ℕ}
    (hphase : s.phase fd = .obtained unixFd) :
    Refines start g s ((s.setTcp fd (some unixFd)).goto fd (.listed unixFd)) := by
  have hadv : Advanced s fd (.listed unixFd)
      ((s.setTcp fd (some unixFd)).goto fd (.listed unixFd)) :=
    ⟨rfl, fun _ hne => Function.update_of_ne hne _ _⟩
  obtain ⟨hself, hunix⟩ := h.live_self (.listed unixFd) (by rw [hphase]; nofun) nofun
  obtain ⟨hsane, hlease⟩ := h.stutter hadv (by rw [hphase]; exact ⟨rfl, rfl⟩) ⟨rfl, rfl⟩ rfl rfl
    (by simp only [lease, hphase]; rfl)
    (h.inverse_of_unpaired hadv rfl (by rw [paired, hphase]; rfl))
    (Function.update_self _ _ _) nofun (fun _ _ => Iff.rfl) hself hunix
  exact ⟨g, hsane, .inl hlease⟩

theorem Sane.advance_listed (h : Sane start g s) {unixFd : ℕ}
    (hphase : s.phase fd = .listed unixFd) :
    Refines start g s ((s.setUnix unixFd (some fd)).goto fd .connected) := by
  have hadv : Advanced s fd .connected ((s.setUnix unixFd (some fd)).goto fd .connected) :=
    ⟨rfl, fun _ _ => rfl⟩
  obtain ⟨hself, hunix⟩ := h.live_self .connected (by rw [hphase]; nofun) nofun
  have hentry : s.tables.tcpToUnix fd = some unixFd := by
    rw [h.entry fd, hphase]
    rfl
  have hheld : (lease g s).held fd = some unixFd := by
    simp only [lease, hphase]
    rfl
  have hunpaired : s.paired fd = none := by
    rw [paired, hphase]
    rfl
  -- a pair of another client would be a connection it has
  have hfree : s.tables.unixToTcp unixFd = none := by
    refine Option.eq_none_iff_forall_ne_some.mpr fun other hother => ?_
    have hpaired := (h.inverse other unixFd).mp hother
    have hsame : other = fd := h.sound.held_inj (Phase.held?_of_paired? hpaired) hheld
    rw [hsame, hunpaired] at hpaired
    cases hpaired
  have hinverse := h.inverse.pair hunpaired hfree
  obtain ⟨hsane, hlease⟩ := h.stutter hadv (by rw [hphase]; exact ⟨rfl, rfl⟩) ⟨rfl, rfl⟩ rfl rfl
    (by rw [hheld]; exact hentry)
    (by rw [hadv.paired]; exact hentry ▸ hinverse) rfl
    (fun _ => ⟨unixFd, hentry⟩) (fun _ _ => Iff.rfl) hself hunix
  exact ⟨g, hsane, .inl hlease⟩

theorem Sane.readEnd (h : Sane start g s) {unixFd : ℕ} (hphase : s.phase fd = .connected)
    (hentry : s.tables.tcpToUnix fd = some unixFd) :
    Refines start g s (s.goto fd (.erasing unixFd)) := by
  have hadv : Advanced s fd (.erasing unixFd) (s.goto fd (.erasing unixFd)) :=
    ⟨rfl, fun _ _ => rfl⟩
  obtain ⟨hself, hunix⟩ := h.live_self (.erasing unixFd) (by rw [hphase]; nofun) nofun
  obtain ⟨hsane, hlease⟩ := h.stutter hadv (by rw [hphase]; exact ⟨rfl, rfl⟩) ⟨rfl, rfl⟩ rfl rfl
    (by simp only [lease, hphase]; exact hentry.symm)
    (h.inverse_of_unpaired hadv rfl (by rw [paired, hphase]; exact hentry.symm)) hentry nofun
    (fun _ _ => Iff.rfl) hself hunix
  exact ⟨g, hsane, .inl hlease⟩

theorem Sane.advance_erasing (h : Sane start g s) {unixFd : ℕ}
    (hphase : s.phase fd = .erasing unixFd) :
    Refines start g s ((s.setUnix unixFd none).goto fd (.unlisted unixFd)) := by
  have hadv : Advanced s fd (.unlisted unixFd)
      ((s.setUnix unixFd none).goto fd (.unlisted unixFd)) := ⟨rfl, fun _ _ => rfl⟩
  obtain ⟨hself, hunix⟩ := h.live_self (.unlisted unixFd) (by rw [hphase]; nofun) nofun
  have hentry : s.tables.tcpToUnix fd = some unixFd := by
    rw [h.entry fd, hphase]
    rfl
  have hpaired : s.paired fd = some unixFd := by
    rw [paired, hphase]
    rfl
  obtain ⟨hsane, hlease⟩ := h.stutter hadv (by rw [hphase]; exact ⟨rfl, rfl⟩) ⟨rfl, rfl⟩ rfl rfl
    (by simp only [lease, hphase]; rfl)
    (by rw [hadv.paired]; exact h.inverse.unpair hpaired) hentry nofun
    (fun _ _ => Iff.rfl) hself hunix
  exact ⟨g, hsane, .inl hlease⟩

theorem Sane.advance_unlisted (h : Sane start g s) {unixFd : ℕ}
    (hphase : s.phase fd = .unlisted unixFd) :
    Refines start g s ((s.setTcp fd none).goto fd (.unmapped unixFd)) := by
  have hadv : Advanced s fd (.unmapped unixFd) ((s.setTcp fd none).goto fd (.unmapped unixFd)) :=
    ⟨rfl, fun _ hne => Function.update_of_ne hne _ _⟩
  obtain ⟨hself, hunix⟩ := h.live_self (.unmapped unixFd) (by rw [hphase]; nofun) nofun
  obtain ⟨hsane, hlease⟩ := h.stutter hadv (by rw [hphase]; exact ⟨rfl, rfl⟩) ⟨rfl, rfl⟩ rfl rfl
    (by simp only [lease, hphase]; rfl)
    (h.inverse_of_unpaired hadv rfl (by rw [paired, hphase]; rfl))
    (Function.update_self _ _ _) nofun (fun _ _ => Iff.rfl) hself hunix
  exact ⟨g, hsane, .inl hlease⟩

theorem Sane.advance_returned (h : Sane start g s) (hphase : s.phase fd = .returned) :
    Refines start g s { s.goto fd .closed with live := s.live.erase fd } := by
  have hadv : Advanced s fd .closed { s.goto fd .closed with live := s.live.erase fd } :=
    ⟨rfl, fun _ _ => rfl⟩
  have hnone : s.tables.tcpToUnix fd = none := by
    rw [h.entry fd, hphase]
    rfl
  obtain ⟨hsane, hlease⟩ := h.stutter hadv (by rw [hphase]; exact ⟨rfl, rfl⟩) ⟨rfl, rfl⟩ rfl rfl
    (by simp only [lease, hphase]; rfl)
    (h.inverse_of_unpaired hadv rfl (by rw [paired, hphase]; rfl)) hnone nofun
    (fun other hne => by simp [hne])
    (iff_of_false (Finset.notMem_erase _ _) fun hne => hne rfl)
    fun hmem => absurd hmem (Finset.notMem_erase _ _)
  exact ⟨g, hsane, .inl hlease⟩

/-! ### On the way to a slot -/

/-- A ticket of a ring is a lease. -/
theorem Sane.advance_assigned (h : Sane start g s) {side : Side}
    (hphase : s.phase fd = .assigned side)
    (htime : (s.tables.available side).startIdx < (s.tables.available side).endIdx) :
    Refines start g s ((s.setRing side
      { s.tables.available side with startIdx := (s.tables.available side).startIdx + 1 }).goto fd
        (.ticketed side (s.tables.available side).startIdx)) := by
  have hcount := h.rings.startIdx side
  have hne : g.popped side < (g.pushed side).length := by
    refine Nat.lt_of_le_of_ne (h.rings.popped_le side) fun heq => ?_
    rw [hcount, h.rings.endIdx, heq, Int32.lt_iff_toInt_lt] at htime
    exact absurd htime (lt_irrefl _)
  have hclamp : (s.tables.available side).startIdx.toNatClampNeg = g.popped side := by
    rw [hcount]
    exact toNatClampNeg_ofNat (Nat.lt_of_lt_of_le hne (h.rings.length_le side))
  have hadv : Advanced s fd (.ticketed side (s.tables.available side).startIdx)
      ((s.setRing side { s.tables.available side with
        startIdx := (s.tables.available side).startIdx + 1 }).goto fd
          (.ticketed side (s.tables.available side).startIdx)) := ⟨rfl, fun _ _ => rfl⟩
  obtain ⟨hself, hunix⟩ := h.live_self
    (.ticketed side (s.tables.available side).startIdx) (by rw [hphase]; nofun) nofun
  have hunheld : (lease g s).held fd = none := by
    simp only [lease, hphase]
    rfl
  have htakes : s.takes fd = none := by
    rw [takes, hphase]
    rfl
  have hreturns : s.returns fd = none := by
    rw [returns, hphase]
    rfl
  have hfree : (lease g s).free side =
      (g.pushed side)[g.popped side] :: (g.pushed side).drop (g.popped side + 1) :=
    List.drop_eq_getElem_cons hne
  have htake : (lease g s).take side fd = some (lease (g.pop side)
      ((s.setRing side { s.tables.available side with
        startIdx := (s.tables.available side).startIdx + 1 }).goto fd
          (.ticketed side (s.tables.available side).startIdx))) := by
    refine (Lease.take_of_free hfree).trans (congrArg some ?_)
    refine Lease.Pool.mk.injEq _ _ _ _ ▸ ⟨?_, ?_⟩
    · funext other
      by_cases heq : other = side
      · subst heq
        rw [Function.update_self, History.pop_popped_self]
        rfl
      · rw [Function.update_of_ne heq, History.pop_popped_of_ne heq]
        rfl
    · refine Eq.trans ?_ (hadv.held (g := g.pop side)).symm
      have hentry : (Phase.ticketed side (s.tables.available side).startIdx).held? (g.pop side)
          (s.tables.tcpToUnix fd) = some (g.pushed side)[g.popped side] := by
        simp only [Phase.held?, hclamp]
        exact List.getElem?_eq_getElem hne
      exact congrArg (Function.update _ fd) hentry.symm
  have hmoved : Lease.Moved (home start) (lease g s) _ := .take hunheld htake
  refine ⟨g.pop side, h.move hadv rfl (fun _ => List.prefix_refl _) h.pushed_mem ?_ (h.sound.moved hmoved)
    (h.inverse_of_unpaired hadv rfl (by rw [paired, hphase]; rfl)) ?_ nofun nofun ?_
    (fun _ _ => Iff.rfl) hself hunix, .inr hmoved⟩
  · have hsame : (Phase.ticketed side (s.tables.available side).startIdx).returns? =
        s.returns fd := hreturns.symm
    rw [hadv.takes, hadv.returns, hsame, Function.update_eq_self]
    have htook := h.rings.take htakes hne
    rw [← hclamp] at htook
    exact htook
  · have := h.entry fd
    rw [hphase] at this
    exact this
  · change 0 ≤ (s.tables.available side).startIdx
    rw [hcount]
    exact nonneg_ofNat (Nat.lt_of_lt_of_le hne (h.rings.length_le side))

/-- The read of a slot, and its `CHECK`. -/
theorem advance_of_ticketed {side : Side} {startIdx : Int32} {index : ℕ}
    (hphase : s.phase fd = .ticketed side startIdx) (hindex : slotIndex startIdx = .ok index) :
    s.advance fd = ((s.tables.available side).slots index).elim (.error .checkFailed)
      fun unixFd => .ok (s.goto fd (.obtained unixFd)) := by
  simp only [advance, hphase, hindex, bind, Except.bind]
  cases (s.tables.available side).slots index <;> rfl

/-- **A client that reads its slot in time** gets what its ticket is for. -/
theorem Sane.slot_of_ticketed (h : Sane start g s) {side : Side} {startIdx : Int32}
    (hphase : s.phase fd = .ticketed side startIdx)
    (hwritten : ¬Bound s.returns side startIdx.toNatClampNeg) :
    ∃ unixFd, (g.pushed side)[startIdx.toNatClampNeg]? = some unixFd ∧
      s.advance fd = .ok (s.goto fd (.obtained unixFd)) := by
  have htakes : s.takes fd = some (side, startIdx.toNatClampNeg) := by
    rw [takes, hphase]
    rfl
  have hnonneg : 0 ≤ startIdx := by
    have := h.nonneg fd
    rwa [hphase] at this
  obtain ⟨hlt, hslot, -⟩ := h.rings.read htakes hwritten
  refine ⟨(g.pushed side)[startIdx.toNatClampNeg], List.getElem?_eq_getElem hlt, ?_⟩
  rw [advance_of_ticketed hphase (slotIndex_of_nonneg hnonneg), hslot]
  rfl

theorem Sane.advance_ticketed (h : Sane start g s) {side : Side} {startIdx : Int32} {unixFd : ℕ}
    (hphase : s.phase fd = .ticketed side startIdx)
    (hwritten : ¬Bound s.returns side startIdx.toNatClampNeg)
    (hentry : (g.pushed side)[startIdx.toNatClampNeg]? = some unixFd) :
    Refines start g s (s.goto fd (.obtained unixFd)) := by
  have hadv : Advanced s fd (.obtained unixFd) (s.goto fd (.obtained unixFd)) :=
    ⟨rfl, fun _ _ => rfl⟩
  obtain ⟨hself, hunix⟩ := h.live_self (.obtained unixFd) (by rw [hphase]; nofun) nofun
  have htakes : s.takes fd = some (side, startIdx.toNatClampNeg) := by
    rw [takes, hphase]
    rfl
  have hreturns : s.returns fd = none := by
    rw [returns, hphase]
    rfl
  have hheld : (lease g s).held fd = some unixFd := by
    simp only [lease, hphase]
    exact hentry
  have hlease : lease g (s.goto fd (.obtained unixFd)) = lease g s := by
    have hsame : (lease g (s.goto fd (.obtained unixFd))).held = (lease g s).held := by
      rw [hadv.held, ← Function.update_eq_self fd (lease g s).held, hheld,
        Function.update_idem]
      rfl
    exact congrArg (Lease.Pool.mk _) hsame
  refine ⟨g, h.move hadv rfl (fun _ => List.prefix_refl _) h.pushed_mem ?_ (hlease ▸ h.sound)
    (h.inverse_of_unpaired hadv rfl (by rw [paired, hphase]; rfl)) ?_ nofun nofun trivial
    (fun _ _ => Iff.rfl) hself hunix, .inl hlease⟩
  · have hsame : (Phase.obtained unixFd).returns? = s.returns fd := hreturns.symm
    rw [hadv.takes, hadv.returns, hsame, Function.update_eq_self]
    obtain ⟨-, -, hread⟩ := h.rings.read htakes hwritten
    exact hread
  · have := h.entry fd
    rw [hphase] at this
    exact this

/-- A number to be put back under is the end of a lease. -/
theorem Sane.advance_unmapped (h : Sane start g s) {unixFd : ℕ}
    (hphase : s.phase fd = .unmapped unixFd)
    (htime : 0 ≤ (s.tables.available (s.tables.side unixFd)).endIdx) :
    Refines start g s ((s.setRing (s.tables.side unixFd)
      { s.tables.available (s.tables.side unixFd) with
        endIdx := (s.tables.available (s.tables.side unixFd)).endIdx + 1 }).goto fd
        (.returning (s.tables.side unixFd)
          (s.tables.available (s.tables.side unixFd)).endIdx unixFd)) := by
  have hside : s.tables.side unixFd = home start unixFd := congrFun h.side_eq unixFd
  generalize s.tables.side unixFd = side at *
  have hcount := h.rings.endIdx side
  have hlt : (g.pushed side).length < 2 ^ 31 := by
    refine Nat.lt_of_le_of_ne (h.rings.length_le side) fun heq => ?_
    rw [hcount, heq] at htime
    exact absurd htime (by decide)
  have hclamp : (s.tables.available side).endIdx.toNatClampNeg = (g.pushed side).length := by
    rw [hcount]
    exact toNatClampNeg_ofNat hlt
  have hadv : Advanced s fd (.returning side (s.tables.available side).endIdx unixFd)
      ((s.setRing side { s.tables.available side with
        endIdx := (s.tables.available side).endIdx + 1 }).goto fd
          (.returning side (s.tables.available side).endIdx unixFd)) := ⟨rfl, fun _ _ => rfl⟩
  obtain ⟨hself, hunix⟩ := h.live_self
    (.returning side (s.tables.available side).endIdx unixFd)
    (by rw [hphase]; nofun) nofun
  have hheld : (lease g s).held fd = some unixFd := by
    simp only [lease, hphase]
    rfl
  have htakes : s.takes fd = none := by
    rw [takes, hphase]
    rfl
  have hreturns : s.returns fd = none := by
    rw [returns, hphase]
    rfl
  -- what the other tickets are for is where it was
  have hothers : (lease (g.push side unixFd) s).held = (lease g s).held := by
    funext other
    simp only [lease]
    cases hother : s.phase other with
    | ticketed side' startIdx =>
        have hbound := h.rings.takes_lt side' startIdx.toNatClampNeg
          ⟨other, by rw [takes, hother]; rfl⟩
        have hle := h.rings.popped_le side'
        simp only [Phase.held?]
        by_cases heq : side' = side
        · subst heq
          rw [History.push_pushed_self, List.getElem?_append_left (by omega)]
        · rw [History.push_pushed_of_ne heq]
    | closed | accepted | assigned | obtained | listed | connected | erasing | unlisted
    | unmapped | returning | returned => rfl
  have hgive : (lease g s).give (home start) fd = some (lease (g.push side unixFd)
      ((s.setRing side { s.tables.available side with
        endIdx := (s.tables.available side).endIdx + 1 }).goto fd
          (.returning side (s.tables.available side).endIdx unixFd))) := by
    refine (Lease.give_of_held hheld).trans (congrArg some ?_)
    refine Lease.Pool.mk.injEq _ _ _ _ ▸ ⟨?_, ?_⟩
    · rw [← hside]
      funext other
      by_cases heq : other = side
      · subst heq
        rw [Function.update_self, History.push_pushed_self, History.push_popped,
          List.drop_append_of_le_length (h.rings.popped_le other)]
        rfl
      · rw [Function.update_of_ne heq, History.push_pushed_of_ne heq]
        rfl
    · refine Eq.trans ?_ (hadv.held (g := g.push side unixFd)).symm
      rw [hothers]
      rfl
  have hmoved := Lease.Moved.give hgive
  refine ⟨g.push side unixFd, h.move hadv rfl (fun other => ?_) (fun other u hu => ?_) ?_ (h.sound.moved hmoved)
    (h.inverse_of_unpaired hadv rfl (by rw [paired, hphase]; rfl)) ?_ nofun ?_ htime
    (fun _ _ => Iff.rfl) hself hunix, .inr hmoved⟩
  · by_cases heq : other = side
    · subst heq
      rw [History.push_pushed_self]
      exact List.prefix_append _ _
    · rw [History.push_pushed_of_ne heq]
  · by_cases heq : other = side
    · subst heq
      rw [History.push_pushed_self, List.mem_append, List.mem_singleton] at hu
      rcases hu with hu | rfl
      · exact h.pushed_mem other u hu
      · obtain ⟨side', hmem⟩ := h.sound.owned_of_held hheld
        have hhome : home start u = side' := (orderly_init start).side_eq hmem
        rwa [hside, hhome]
    · rw [History.push_pushed_of_ne heq] at hu
      exact h.pushed_mem other u hu
  · have hsame : (Phase.returning side (s.tables.available side).endIdx unixFd).takes? =
        s.takes fd := htakes.symm
    rw [hadv.takes, hadv.returns, hsame, Function.update_eq_self]
    have hgave := h.rings.give hreturns unixFd hlt
    rw [← hclamp] at hgave
    exact hgave
  · have := h.entry fd
    rw [hphase] at this
    exact this
  · rintro side' endIdx unixFd' ⟨rfl, rfl, rfl⟩
    rw [hclamp, History.push_pushed_self, List.getElem?_concat_length]

/-- The slot of a number that is written in time. -/
theorem Sane.advance_returning (h : Sane start g s) {side : Side} {endIdx : Int32} {unixFd : ℕ}
    (hphase : s.phase fd = .returning side endIdx unixFd)
    (htime : endIdx.toNatClampNeg < kMaxConnections ∨
      ¬Bound s.takes side (endIdx.toNatClampNeg - kMaxConnections)) :
    Refines start g s ((s.setRing side { s.tables.available side with
      slots := Function.update (s.tables.available side).slots
        (endIdx.toNatClampNeg % kMaxConnections) (some unixFd) }).goto fd .returned) := by
  have hadv : Advanced s fd .returned ((s.setRing side { s.tables.available side with
      slots := Function.update (s.tables.available side).slots
        (endIdx.toNatClampNeg % kMaxConnections) (some unixFd) }).goto fd .returned) :=
    ⟨rfl, fun _ _ => rfl⟩
  obtain ⟨hself, hunix⟩ := h.live_self .returned (by rw [hphase]; nofun) nofun
  have htakes : s.takes fd = none := by
    rw [takes, hphase]
    rfl
  have hreturns : s.returns fd = some (side, endIdx.toNatClampNeg) := by
    rw [returns, hphase]
    rfl
  have hunheld : (lease g s).held fd = none := by
    simp only [lease, hphase]
    rfl
  have hlease : lease g ((s.setRing side { s.tables.available side with
      slots := Function.update (s.tables.available side).slots
        (endIdx.toNatClampNeg % kMaxConnections) (some unixFd) }).goto fd .returned) =
      lease g s := by
    refine congrArg (Lease.Pool.mk _) ?_
    refine (hadv.held (g := g)).trans ?_
    have hsame : Phase.returned.held? g (s.tables.tcpToUnix fd) = (lease g s).held fd :=
      hunheld.symm
    exact (congrArg (Function.update _ fd) hsame).trans (Function.update_eq_self _ _)
  refine ⟨g, h.move hadv rfl (fun _ => List.prefix_refl _) h.pushed_mem ?_ (hlease ▸ h.sound)
    (h.inverse_of_unpaired hadv rfl (by rw [paired, hphase]; rfl)) ?_ nofun nofun trivial
    (fun _ _ => Iff.rfl) hself hunix, .inl hlease⟩
  · have hsame : Phase.returned.takes? = s.takes fd := htakes.symm
    rw [hadv.takes, hadv.returns, hsame, Function.update_eq_self]
    refine h.rings.put hreturns (h.numbered fd side endIdx unixFd hphase) fun m hm hunread => ?_
    have hlast := (h.rings.holds side).pending_lt _ ⟨fd, hreturns⟩
    have hwindow := h.pushed_le side
    have hsub : endIdx.toNatClampNeg - kMaxConnections = m := by omega
    rcases hunread with hle | hbound
    · omega
    · rcases htime with hfirst | hread
      · omega
      · exact hread (hsub ▸ hbound)
  · have := h.entry fd
    rw [hphase] at this
    exact this

/-! ## Every run -/

theorem ok_of_toOption {α : Type} {result : Except Fault α} {a : α}
    (h : result.toOption = some a) : result = .ok a := by
  cases result with
  | error => cases h
  | ok b => exact congrArg Except.ok (Option.some.inj h)

/-- **One step.** In time, every access leaves the pool as it is, or is a
take or a giving back. -/
theorem Sane.of_step (h : Sane start g s) {a : Action} (htime : InTime s a)
    (hstep : step start s a = some s') : Refines start g s s' := by
  unfold step at hstep
  split at hstep
  swap
  · cases hstep
  rename_i henabled
  have hok := ok_of_toOption hstep
  cases a with
  | accept infd =>
      obtain rfl := Except.ok.inj hok
      exact h.accept henabled.1 henabled.2
  | readEnd fd =>
      obtain ⟨unixFd, hentry⟩ := h.connected fd henabled
      simp only [perform, hentry] at hok
      obtain rfl := Except.ok.inj hok
      exact h.readEnd henabled hentry
  | advance fd =>
      change s.UsesInTime (s.phase fd) at htime
      change s.advance fd = .ok s' at hok
      cases hphase : s.phase fd with
      | closed => exact absurd hphase henabled.1
      | connected => exact absurd hphase henabled.2
      | accepted =>
          simp only [advance, hphase] at hok
          obtain rfl := Except.ok.inj hok
          exact h.advance_accepted hphase _ _
      | assigned side =>
          rw [hphase] at htime
          simp only [advance, hphase] at hok
          obtain rfl := Except.ok.inj hok
          exact h.advance_assigned hphase htime
      | ticketed side startIdx =>
          rw [hphase] at htime
          have hwritten := h.not_bound_returns htime
          obtain ⟨unixFd, hentry, hadvance⟩ := h.slot_of_ticketed hphase hwritten
          rw [hadvance] at hok
          obtain rfl := Except.ok.inj hok
          exact h.advance_ticketed hphase hwritten hentry
      | obtained unixFd =>
          simp only [advance, hphase] at hok
          split at hok
          · obtain rfl := Except.ok.inj hok
            exact h.advance_obtained hphase
          · cases hok
      | listed unixFd =>
          simp only [advance, hphase] at hok
          obtain rfl := Except.ok.inj hok
          exact h.advance_listed hphase
      | erasing unixFd =>
          simp only [advance, hphase] at hok
          obtain rfl := Except.ok.inj hok
          exact h.advance_erasing hphase
      | unlisted unixFd =>
          simp only [advance, hphase] at hok
          obtain rfl := Except.ok.inj hok
          exact h.advance_unlisted hphase
      | unmapped unixFd =>
          rw [hphase] at htime
          simp only [advance, hphase] at hok
          obtain rfl := Except.ok.inj hok
          exact h.advance_unmapped hphase htime
      | returning side endIdx unixFd =>
          rw [hphase] at htime
          have hnonneg : 0 ≤ endIdx := by
            have := h.nonneg fd
            rwa [hphase] at this
          simp only [advance, hphase, slotIndex_of_nonneg hnonneg] at hok
          obtain rfl := Except.ok.inj hok
          exact h.advance_returning hphase (htime.imp_right h.not_bound_takes)
      | returned =>
          simp only [advance, hphase] at hok
          obtain rfl := Except.ok.inj hok
          exact h.advance_returned hphase

/-- The pool before anything is taken. -/
def fullPool (start : Startup) : Lease.Pool Side ℕ ℕ := ⟨start.unixFds, fun _ => none⟩

/-- **Every run** is one of the pool. -/
theorem sane_of_guarded
    (h : Lts.Reachable (Lts.Guarded InTime (Lts.ofFun (step start))) (init start) s) :
    ∃ g, Sane start g s ∧
      Relation.ReflTransGen (Lease.Moved (home start)) (fullPool start) (lease g s) := by
  refine h.invariant (I := fun s => ∃ g, Sane start g s ∧
    Relation.ReflTransGen (Lease.Moved (home start)) (fullPool start) (lease g s)) ?_ ?_
  · exact ⟨.init start, sane_init start, .refl⟩
  · rintro s a s' ⟨g, hsane, hrun⟩ ⟨htime, hstep⟩
    obtain ⟨g', hsane', hsame | hmoved⟩ := hsane.of_step htime hstep
    · exact ⟨g', hsane', hsame ▸ hrun⟩
    · exact ⟨g', hsane', hrun.tail hmoved⟩

/-! ## Nobody in the middle of anything -/

/-- **The tables are those of the atomic router** where no thread is in the
middle of an operation. -/
theorem Sane.orderly (h : Sane start g s) (hquiet : s.Quiet) : Orderly start g s.toState := by
  have hentry : ∀ fd, (s.phase fd).held? g (s.tables.tcpToUnix fd) = s.tables.tcpToUnix fd ∧
      s.paired fd = s.tables.tcpToUnix fd := by
    intro fd
    have hentry := h.entry fd
    rcases hquiet fd with hphase | hphase
    · rw [hphase] at hentry
      rw [paired, hphase, hentry]
      exact ⟨rfl, rfl⟩
    · rw [paired, hphase]
      exact ⟨rfl, rfl⟩
  have hlease : g.lease s.tables = lease g s :=
    congrArg (Lease.Pool.mk _) (funext fun fd => (hentry fd).1.symm)
  have hpending : ∀ side n, ¬Bound s.returns side n := by
    rintro side n ⟨fd, hfd⟩
    rw [returns] at hfd
    rcases hquiet fd with hphase | hphase <;> rw [hphase] at hfd <;> cases hfd
  constructor
  case ring =>
    exact fun side => {
      startIdx := h.rings.startIdx side
      endIdx := h.rings.endIdx side
      popped_le := h.rings.popped_le side
      length_le := h.rings.length_le side
      queue := (h.rings.holds side).queue (hpending side) }
  case pushed_mem => exact h.pushed_mem
  case side_eq =>
    intro side unixFd hmem
    exact (congrFun h.side_eq unixFd).trans ((orderly_init start).side_eq hmem)
  case sound =>
    change Lease.Sound s.tables.side start.IsUnix (g.lease s.tables)
    rw [h.side_eq, hlease]
    exact h.sound
  case inverse =>
    have hpaired : s.paired = s.tables.tcpToUnix := funext fun fd => (hentry fd).2
    have hinverse := h.inverse
    rwa [hpaired] at hinverse
  case live_iff =>
    intro fd
    refine (h.live_iff fd).trans ⟨fun hne => ?_, ?_⟩
    · exact h.connected fd ((hquiet fd).resolve_left hne)
    · rintro ⟨unixFd, hfd⟩ hclosed
      have hnone := h.entry fd
      rw [hclosed] at hnone
      rw [show s.toState.tables.tcpToUnix fd = s.tables.tcpToUnix fd from rfl, hnone] at hfd
      cases hfd
  case not_unix => exact fun hfd => h.not_unix _ hfd

end Threads
end Router
end Rinha
