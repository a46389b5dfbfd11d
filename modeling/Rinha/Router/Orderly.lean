import Mathlib.Data.List.Perm.Subperm
import Rinha.Common.Lease
import Rinha.Router.Model.Pool
import Rinha.Router.Ring
/-!
# The router as a pool of leases

What waits in the windows of the two rings, together with `tcp_to_unix`,
is a pool of leases (`History.lease`), and `Orderly` says it is a sound
one that the other tables agree with. An accept on a side whose window is
not empty is a take, a close is a giving back.
-/

namespace Rinha
namespace Router

/-- What has been put in each ring, and how much of it taken out. -/
structure History where
  pushed : Side → List ℕ
  popped : Side → ℕ

/-- The windows of the rings, and who was given what. -/
def History.lease (g : History) (tables : Tables) : Lease.Pool Side ℕ ℕ where
  free side := (g.pushed side).drop (g.popped side)
  held := tables.tcpToUnix

/-- The tables are those of a sound pool with this history. -/
structure Orderly (start : Startup) (g : History) (s : State) : Prop where
  ring : ∀ side, (s.tables.available side).Follows (g.pushed side) (g.popped side)
  pushed_mem : ∀ side, ∀ unixFd ∈ g.pushed side, unixFd ∈ start.unixFds side
  side_eq : ∀ {side unixFd}, unixFd ∈ start.unixFds side → s.tables.side unixFd = side
  sound : Lease.Sound s.tables.side start.IsUnix (g.lease s.tables)
  inverse : Lease.Inverse s.tables.tcpToUnix s.tables.unixToTcp
  live_iff : ∀ {fd}, fd ∈ s.live ↔ ∃ unixFd, s.tables.tcpToUnix fd = some unixFd
  not_unix : ∀ {fd}, fd ∈ s.live → ¬start.IsUnix fd

variable {start : Startup} {g : History} {s : State} {side : Side} {infd fd unixFd : ℕ} {t : Tables}

/-! ## Start-up -/

/-- The rings after the start-up loop has gone through `done`. -/
structure Connected (done : List (ℕ × ℕ)) (tables : Tables) : Prop where
  one : (tables.available .one).Follows (done.map Prod.fst) 0
  two : (tables.available .two).Follows (done.map Prod.snd) 0
  connection1Fds : ∀ unixFd, tables.connection1Fds unixFd = true ↔ unixFd ∈ done.map Prod.fst
  tcpToUnix : tables.tcpToUnix = fun _ => none
  unixToTcp : tables.unixToTcp = fun _ => none

theorem connected_blank : Connected [] .blank where
  one := Ring.follows_blank
  two := Ring.follows_blank
  connection1Fds := by simp [Tables.blank]
  tcpToUnix := rfl
  unixToTcp := rfl

theorem Connected.addConnections {done : List (ℕ × ℕ)} {fds : ℕ × ℕ} (h : Connected done t)
    (hlt : done.length < kMaxConnections) : Connected (done ++ [fds]) (t.addConnections fds) where
  one := by
    rw [List.map_append]
    exact h.one.add (by rwa [List.length_map])
  two := by
    rw [List.map_append]
    exact h.two.add (by rwa [List.length_map])
  connection1Fds := by
    intro unixFd
    rw [List.map_append, List.mem_append, ← h.connection1Fds]
    by_cases heq : unixFd = fds.1
    · simp [Tables.addConnections, heq]
    · simp [Tables.addConnections, heq]
  tcpToUnix := h.tcpToUnix
  unixToTcp := h.unixToTcp

theorem Connected.foldl {done rest : List (ℕ × ℕ)} (h : Connected done t)
    (hlt : (done ++ rest).length ≤ kMaxConnections) :
    Connected (done ++ rest) (rest.foldl Tables.addConnections t) := by
  induction rest generalizing done t with
  | nil => simpa using h
  | cons fds rest ih =>
      rw [List.length_append, List.length_cons] at hlt
      have hadd : Connected (done ++ [fds]) (t.addConnections fds) := h.addConnections (by omega)
      have hnext := ih hadd
        (by simp only [List.length_append, List.length_cons, List.length_nil]; omega)
      rwa [List.append_assoc] at hnext

theorem connected_init (start : Startup) : Connected start.fds (initializeThreadPool start) := by
  have hlen : ([] ++ start.fds).length ≤ kMaxConnections := by
    rw [List.nil_append, start.length_fds]
    decide
  have h := connected_blank.foldl hlen
  rwa [List.nil_append] at h

/-- The rings hold the connections of their side, and none has been taken. -/
def History.init (start : Startup) : History := ⟨start.unixFds, fun _ => 0⟩

/-- **The router starts as a sound pool** in which everything is free. -/
theorem orderly_init (start : Startup) : Orderly start (.init start) (.init start) := by
  have h := connected_init start
  have hnodup := List.nodup_append.mp start.nodup
  have hside : ∀ {side unixFd}, unixFd ∈ start.unixFds side →
      (initializeThreadPool start).side unixFd = side := by
    intro side unixFd hmem
    cases side with
    | one => exact if_pos ((h.connection1Fds unixFd).mpr hmem)
    | two =>
        refine if_neg fun hone => ?_
        exact hnodup.2.2 _ ((h.connection1Fds unixFd).mp hone) _ hmem rfl
  have htcp : (State.init start).tables.tcpToUnix = fun _ => none := h.tcpToUnix
  have hunix : (State.init start).tables.unixToTcp = fun _ => none := h.unixToTcp
  constructor
  · rintro (_ | _)
    · exact h.one
    · exact h.two
  · exact fun _ _ hmem => hmem
  · exact hside
  · refine Lease.sound_of_unheld ?_ ?_ fun fd => congrFun htcp fd
    · rintro (_ | _)
      · exact hnodup.1
      · exact hnodup.2.1
    · intro side unixFd
      refine ⟨fun hmem => ⟨⟨side, hmem⟩, hside hmem⟩, ?_⟩
      rintro ⟨⟨side', hmem⟩, rfl⟩
      rw [show (State.init start).tables.side unixFd = side' from hside hmem]
      exact hmem
  · intro fd unixFd
    rw [htcp, hunix]
    simp
  · intro fd
    rw [htcp]
    simp [State.init]
  · intro fd hfd
    simp [State.init] at hfd

/-! ## What an orderly state tells -/

/-- The tables of a connected client agree. -/
theorem Orderly.pair_of_live (h : Orderly start g s) (hfd : fd ∈ s.live) :
    ∃ unixFd, s.tables.tcpToUnix fd = some unixFd ∧ s.tables.unixToTcp unixFd = some fd := by
  obtain ⟨unixFd, htcp⟩ := h.live_iff.mp hfd
  exact ⟨unixFd, htcp, (h.inverse fd unixFd).mpr htcp⟩

/-- A paired connection's bytes go to its client. -/
theorem Orderly.dstFd_unix (h : Orderly start g s)
    (hunix : s.tables.unixToTcp unixFd = some fd) : s.tables.dstFd unixFd = .ok fd := by
  -- `HandleMessage` asks `tcp_to_unix` first, and no client sits at a unix descriptor
  have hnot : s.tables.tcpToUnix unixFd = none := by
    refine Option.eq_none_iff_forall_ne_some.mpr fun other hother => ?_
    have hown := h.sound.owned_of_held ((h.inverse fd unixFd).mp hunix)
    exact h.not_unix (h.live_iff.mpr ⟨other, hother⟩) hown
  simp only [Tables.dstFd, hnot, hunix]

theorem Startup.length_unixFds (start : Startup) (side : Side) :
    (start.unixFds side).length = kInitialUnixConnections := by
  cases side <;> simp [Startup.unixFds, start.length_fds]

/-- No more than its fifty connections wait in a window. -/
theorem Orderly.pushed_le_fifty (h : Orderly start g s) (side : Side) :
    (g.pushed side).length ≤ g.popped side + kInitialUnixConnections := by
  -- what waits is of the side, and nothing waits twice
  have hsub : (g.pushed side).drop (g.popped side) ⊆ start.unixFds side :=
    fun _ hmem => h.pushed_mem side _ (List.mem_of_mem_drop hmem)
  have hlen := ((h.sound.nodup side).subperm hsub).length_le
  have hdrop : ((g.lease s.tables).free side).length =
      (g.pushed side).length - g.popped side := List.length_drop
  rw [start.length_unixFds side] at hlen
  omega

/-- So they are less than a lap of the ring. -/
theorem Orderly.pushed_le (h : Orderly start g s) (side : Side) :
    (g.pushed side).length ≤ g.popped side + kMaxConnections :=
  Nat.le_trans (h.pushed_le_fifty side) (Nat.add_le_add_left (by decide) _)

/-- **A side is exhausted just when its window is empty.** -/
theorem Orderly.exhausted_iff (h : Orderly start g s) :
    Exhausted start s side ↔ g.popped side = (g.pushed side).length := by
  have hempty := (h.sound.free_eq_nil_iff (i := side)).symm
  have hdrop : (g.lease s.tables).free side = [] ↔ (g.pushed side).length ≤ g.popped side :=
    List.drop_eq_nil_iff
  rw [hdrop] at hempty
  have hle := (h.ring side).popped_le
  have heq : (g.pushed side).length ≤ g.popped side ↔ g.popped side = (g.pushed side).length := by
    omega
  rw [← heq, ← hempty]
  constructor
  · rintro hall unixFd ⟨side', hmem⟩ hside
    obtain rfl : side' = side := (h.side_eq hmem).symm.trans hside
    obtain ⟨fd, -, hfd⟩ := hall unixFd hmem
    exact ⟨fd, hfd⟩
  · intro hall unixFd hmem
    obtain ⟨fd, hfd⟩ := hall unixFd ⟨side, hmem⟩ (h.side_eq hmem)
    exact ⟨fd, h.live_iff.mpr ⟨unixFd, hfd⟩, hfd⟩

/-- The first lap, by the count of what was put in. -/
theorem Orderly.firstLap_iff (h : Orderly start g s) :
    FirstLap s side ↔ (g.pushed side).length < kMaxConnections := by
  rw [FirstLap, (h.ring side).endIdx]
  exact counter_lt_iff (h.ring side).length_le

/-! ## The operations keep it -/

/-- A client of the side is served from the window. -/
def History.pop (g : History) (side : Side) : History :=
  { g with popped := Function.update g.popped side (g.popped side + 1) }

/-- A connection goes back to its side. -/
def History.push (g : History) (side : Side) (unixFd : ℕ) : History :=
  { g with pushed := Function.update g.pushed side (g.pushed side ++ [unixFd]) }

section

variable {other : Side}

@[simp] theorem History.pop_pushed : (g.pop side).pushed = g.pushed := rfl

@[simp] theorem History.pop_popped_self : (g.pop side).popped side = g.popped side + 1 :=
  Function.update_self ..

@[simp] theorem History.pop_popped_of_ne (h : other ≠ side) :
    (g.pop side).popped other = g.popped other := Function.update_of_ne h ..

@[simp] theorem History.push_popped : (g.push side unixFd).popped = g.popped := rfl

@[simp] theorem History.push_pushed_self :
    (g.push side unixFd).pushed side = g.pushed side ++ [unixFd] := Function.update_self ..

@[simp] theorem History.push_pushed_of_ne (h : other ≠ side) :
    (g.push side unixFd).pushed other = g.pushed other := Function.update_of_ne h ..

end

/-- The head of a window that is not empty. -/
theorem lease_free (t : Tables) (hne : g.popped side < (g.pushed side).length) :
    (g.lease t).free side =
      (g.pushed side)[g.popped side] :: (g.pushed side).drop (g.popped side + 1) :=
  List.drop_eq_getElem_cons hne

/-- Taking the head of a window. -/
theorem lease_take (t : Tables) (ring : Ring) (infd : ℕ)
    (hne : g.popped side < (g.pushed side).length) :
    (g.lease t).take side infd =
      some ((g.pop side).lease (t.pair side ring infd (g.pushed side)[g.popped side])) := by
  refine (Lease.take_of_free (lease_free t hne)).trans (congrArg some ?_)
  simp only [History.lease, Lease.Pool.mk.injEq]
  refine ⟨?_, rfl⟩
  funext other
  rcases eq_or_ne other side with rfl | hother
  · simp
  · simp [hother]

/-- Giving back to the end of a window. -/
theorem lease_give (ring : Ring) (hheld : t.tcpToUnix fd = some unixFd)
    (hle : g.popped (t.side unixFd) ≤ (g.pushed (t.side unixFd)).length) :
    (g.lease t).give t.side fd =
      some ((g.push (t.side unixFd) unixFd).lease (t.unpair (t.side unixFd) ring fd unixFd)) := by
  refine (Lease.give_of_held (p := g.lease t) hheld).trans (congrArg some ?_)
  simp only [History.lease, Lease.Pool.mk.injEq]
  refine ⟨?_, rfl⟩
  funext other
  rcases eq_or_ne other (t.side unixFd) with rfl | hother
  · simp [List.drop_append_of_le_length hle]
  · simp [hother]

/-- An accept, by what the ring of its side hands out. -/
theorem accept_of_pop {slot : Option ℕ} {ring : Ring} (infd : ℕ)
    (hpop : (s.tables.available s.nextSide).pop = .ok (slot, ring)) :
    s.tables.accept infd =
      match slot with
      | none => .error .checkFailed
      | some unixFd =>
          if infd < kMaxConnections then .ok (s.tables.pair s.nextSide ring infd unixFd)
          else .error .outOfBounds := by
  unfold State.nextSide at hpop
  simp only [Tables.accept, hpop]
  cases slot <;> rfl

theorem accept_of_pop_error {fault : Fault} (infd : ℕ)
    (hpop : (s.tables.available s.nextSide).pop = .error fault) :
    s.tables.accept infd = .error fault := by
  unfold State.nextSide at hpop
  simp only [Tables.accept, hpop]
  rfl

/-- What an accept that succeeds has done. -/
theorem accept_eq_ok (h : s.tables.accept infd = .ok t) :
    ∃ unixFd ring, (s.tables.available s.nextSide).pop = .ok (some unixFd, ring) ∧
      infd < kMaxConnections ∧ t = s.tables.pair s.nextSide ring infd unixFd := by
  cases hpop : (s.tables.available s.nextSide).pop with
  | error fault =>
      rw [accept_of_pop_error infd hpop] at h
      cases h
  | ok popped =>
      obtain ⟨slot, ring⟩ := popped
      rw [accept_of_pop infd hpop] at h
      cases slot with
      | none => cases h
      | some unixFd =>
          simp only at h
          split at h
          · rename_i hlt
            exact ⟨unixFd, ring, rfl, hlt, (Except.ok.inj h).symm⟩
          · cases h

/-- And a close. -/
theorem eraseFromMaps_eq_ok {tables : Tables} (h : tables.eraseFromMaps fd = .ok t) :
    ∃ unixFd ring, tables.tcpToUnix fd = some unixFd ∧
      (tables.available (tables.side unixFd)).push unixFd = .ok ring ∧
      t = tables.unpair (tables.side unixFd) ring fd unixFd := by
  cases htcp : tables.tcpToUnix fd with
  | none =>
      simp only [Tables.eraseFromMaps, htcp] at h
      cases h
  | some unixFd =>
      simp only [Tables.eraseFromMaps, htcp] at h
      cases hpush : (tables.available (tables.side unixFd)).push unixFd with
      | error fault =>
          rw [hpush] at h
          cases h
      | ok ring =>
          rw [hpush] at h
          exact ⟨unixFd, ring, rfl, hpush, (Except.ok.inj h).symm⟩

/-- **Accepting on a side whose window is not empty** pairs the client
with the head of the window. -/
theorem Orderly.accept_eq (h : Orderly start g s) (infd : ℕ)
    (hne : g.popped s.nextSide < (g.pushed s.nextSide).length) :
    ∃ ring, ring.Follows (g.pushed s.nextSide) (g.popped s.nextSide + 1) ∧
      s.tables.accept infd =
        if infd < kMaxConnections then
          .ok (s.tables.pair s.nextSide ring infd (g.pushed s.nextSide)[g.popped s.nextSide])
        else .error .outOfBounds := by
  obtain ⟨ring, hpop, hfollows⟩ := (h.ring s.nextSide).pop hne (h.pushed_le _)
  exact ⟨ring, hfollows, accept_of_pop infd hpop⟩

theorem Orderly.accept_ok (h : Orderly start g s)
    (hne : g.popped s.nextSide < (g.pushed s.nextSide).length) (hlt : infd < kMaxConnections) :
    ∃ unixFd ∈ start.unixFds s.nextSide, ∃ ring,
      s.tables.accept infd = .ok (s.tables.pair s.nextSide ring infd unixFd) := by
  obtain ⟨ring, -, heq⟩ := h.accept_eq infd hne
  rw [if_pos hlt] at heq
  exact ⟨_, h.pushed_mem _ _ (List.getElem_mem hne), ring, heq⟩

/-- One ring changes, the other follows the history it had. -/
theorem Orderly.ring_update (h : Orderly start g s) (g' : History) {ring : Ring}
    (hring : ring.Follows (g'.pushed side) (g'.popped side))
    (hother : ∀ other, other ≠ side →
      g'.pushed other = g.pushed other ∧ g'.popped other = g.popped other) (other : Side) :
    (Function.update s.tables.available side ring other).Follows (g'.pushed other)
      (g'.popped other) := by
  rcases eq_or_ne other side with rfl | hne
  · rwa [Function.update_self]
  · rw [Function.update_of_ne hne, (hother other hne).1, (hother other hne).2]
    exact h.ring other

/-- **An accept is a take**, of a connection no client has. -/
theorem Orderly.accept (h : Orderly start g s) (hlive : infd ∉ s.live) (hunix : ¬start.IsUnix infd)
    (hne : g.popped s.nextSide < (g.pushed s.nextSide).length)
    (hok : s.tables.accept infd = .ok t) :
    (∃ unixFd ring, t = s.tables.pair s.nextSide ring infd unixFd ∧
        s.tables.unixToTcp unixFd = none) ∧
      Orderly start (g.pop s.nextSide) ⟨t, insert infd s.live⟩ := by
  obtain ⟨ring, hring, heq⟩ := h.accept_eq infd hne
  rw [hok] at heq
  split at heq
  · obtain rfl := Except.ok.inj heq
    have hnone : s.tables.tcpToUnix infd = none :=
      Option.eq_none_iff_forall_ne_some.mpr fun u hu => hlive (h.live_iff.mpr ⟨u, hu⟩)
    -- the head of a window waits there, so no client holds it
    have hfree : s.tables.unixToTcp (g.pushed s.nextSide)[g.popped s.nextSide] = none := by
      refine Option.eq_none_iff_forall_ne_some.mpr fun f hf => ?_
      refine h.sound.unheld (i := s.nextSide) ?_ f ((h.inverse _ _).mp hf)
      rw [lease_free _ hne]
      exact List.mem_cons_self
    refine ⟨⟨_, ring, rfl, hfree⟩, ?_⟩
    constructor
    · refine h.ring_update (g.pop s.nextSide) ?_ fun other hother =>
        ⟨rfl, History.pop_popped_of_ne hother⟩
      simpa using hring
    · exact h.pushed_mem
    · exact h.side_eq
    · exact h.sound.take hnone (lease_take s.tables ring infd hne)
    · exact h.inverse.pair hnone hfree
    · intro f
      rcases eq_or_ne f infd with rfl | hf
      · simp [Tables.pair]
      · simpa [Tables.pair, hf] using h.live_iff
    · intro f hf
      rcases Finset.mem_insert.mp hf with rfl | hf
      · exact hunix
      · exact h.not_unix hf
  · cases heq

/-- **A close is a giving back.** -/
theorem Orderly.close (h : Orderly start g s) (htcp : s.tables.tcpToUnix fd = some unixFd)
    (hok : s.tables.eraseFromMaps fd = .ok t) :
    (∃ ring, t = s.tables.unpair (s.tables.side unixFd) ring fd unixFd) ∧
      Orderly start (g.push (s.tables.side unixFd) unixFd) ⟨t, s.live.erase fd⟩ := by
  obtain ⟨u, ring, hu, hpush, rfl⟩ := eraseFromMaps_eq_ok hok
  obtain rfl : unixFd = u := Option.some.inj (htcp.symm.trans hu)
  have hring := (h.ring _).of_push hpush
  refine ⟨⟨ring, rfl⟩, ?_⟩
  constructor
  · refine h.ring_update (g.push (s.tables.side unixFd) unixFd) ?_ fun other hother =>
      ⟨History.push_pushed_of_ne hother, rfl⟩
    simpa using hring
  · -- the one given back is a connection of its side: the client held it
    intro side u hu
    rcases eq_or_ne side (s.tables.side unixFd) with rfl | hside
    · rw [History.push_pushed_self, List.mem_append, List.mem_singleton] at hu
      rcases hu with hu | rfl
      · exact h.pushed_mem _ u hu
      · obtain ⟨side, hmem⟩ := h.sound.owned_of_held htcp
        rwa [h.side_eq hmem]
    · rw [History.push_pushed_of_ne hside] at hu
      exact h.pushed_mem side u hu
  · exact h.side_eq
  · exact h.sound.give (lease_give ring htcp (h.ring _).popped_le)
  · exact h.inverse.unpair htcp
  · intro f
    rcases eq_or_ne f fd with rfl | hf
    · simp [Tables.unpair]
    · simpa [Tables.unpair, hf] using h.live_iff
  · exact fun hf => h.not_unix (Finset.mem_of_mem_erase hf)

/-! ## Accepting on an exhausted side -/

/-- **On the first lap the `CHECK` stops it.** -/
theorem Orderly.accept_first (h : Orderly start g s) (infd : ℕ)
    (hempty : g.popped s.nextSide = (g.pushed s.nextSide).length)
    (hlap : (g.pushed s.nextSide).length < kMaxConnections) :
    s.tables.accept infd = .error .checkFailed :=
  accept_of_pop infd ((h.ring s.nextSide).pop_empty_first hempty hlap)

/-- **On every later lap it does not**: the client gets a connection of
the side, all of which are taken. -/
theorem Orderly.accept_later (h : Orderly start g s) (infd : ℕ)
    (hempty : g.popped s.nextSide = (g.pushed s.nextSide).length)
    (hlap : kMaxConnections ≤ (g.pushed s.nextSide).length)
    (hlt : (g.pushed s.nextSide).length < 2 ^ 31) :
    ∃ stale ∈ start.unixFds s.nextSide, ∃ ring, s.tables.accept infd =
      if infd < kMaxConnections then .ok (s.tables.pair s.nextSide ring infd stale)
      else .error .outOfBounds := by
  obtain ⟨stale, hstale, hpop⟩ := (h.ring s.nextSide).pop_empty_later hempty hlap hlt
  exact ⟨stale, h.pushed_mem _ _ hstale, _, accept_of_pop infd hpop⟩

/-- **The `CHECK` stops an accept on an exhausted side just on the first
lap of its ring.** -/
theorem Orderly.accept_checkFailed_iff (h : Orderly start g s) (infd : ℕ)
    (hexhausted : Exhausted start s s.nextSide) :
    s.tables.accept infd = .error .checkFailed ↔ FirstLap s s.nextSide := by
  have hempty := h.exhausted_iff.mp hexhausted
  rw [h.firstLap_iff]
  constructor
  · intro hfail
    by_contra hlap
    -- past the first lap a stale slot is handed out, or the counter has wrapped below zero
    rcases Nat.lt_or_eq_of_le (h.ring s.nextSide).length_le with hlt | hwrap
    · obtain ⟨_, _, _, heq⟩ := h.accept_later infd hempty (Nat.le_of_not_lt hlap) hlt
      rw [hfail] at heq
      split at heq <;> cases heq
    · have hpop := (h.ring s.nextSide).pop_wrapped (hempty.trans hwrap)
      rw [accept_of_pop_error infd hpop] at hfail
      cases hfail
  · exact h.accept_first infd hempty

end Router
end Rinha
