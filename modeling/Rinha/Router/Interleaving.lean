import Rinha.Router.Conservation
import Rinha.Router.Threads
/-!
# The router, with and without atomic operations

The two models of the router bound each other. What the interleaved one
does in time is what the pool of leases does, and with no thread in the
middle of an operation its tables are those of the atomic one
(`refines_of_guarded`). Every run of the atomic one is a run of the
interleaved one in which each thread finishes before the next begins
(`reachable_of_atomic`). Out of time a client may find no connection where
the counters say one is free (`checkFailed_iff`).
-/

namespace Rinha
namespace Router
namespace Threads

variable {start : Startup} {g : History} {s : Threads} {fd : ℕ}

/-! ## In time -/

/-- In time, no `CHECK` fails. -/
theorem Sane.advance_ne_checkFailed (h : Sane start g s) (htime : InTime s (.advance fd)) :
    s.advance fd ≠ .error .checkFailed := by
  have hsplit : ∀ {counter : Int32} {rest : ℕ → Except Fault Threads},
      (∀ index, rest index ≠ .error .checkFailed) →
        (slotIndex counter >>= rest) ≠ .error .checkFailed := by
    intro counter rest hrest
    unfold slotIndex
    simp only
    split
    · intro herror
      cases herror
    · exact hrest _
  change s.UsesInTime (s.phase fd) at htime
  cases hphase : s.phase fd with
  | ticketed side startIdx =>
      rw [hphase] at htime
      obtain ⟨unixFd, -, hadvance⟩ := h.slot_of_ticketed hphase (h.not_bound_returns htime)
      rw [hadvance]
      intro herror
      cases herror
  | obtained unixFd =>
      simp only [advance, hphase]
      split <;> intro herror <;> cases herror
  | returning side endIdx unixFd =>
      simp only [advance, hphase]
      exact hsplit fun _ herror => by cases herror
  | closed | accepted | assigned | listed | connected | erasing | unlisted | unmapped
  | returned =>
      simp only [advance, hphase]
      intro herror
      cases herror

/-- **The threads share a pool of leases.** In every run of accepts and
closes cut at every access, in any order, in which slots are used in time:
the connections change hands as in the pool, where each is free or one
client's, and never both; no `CHECK` fails; the tables have each other's
entries for a connected client; and with no thread in the middle of an
operation they are those of the atomic router. -/
theorem refines_of_guarded (start : Startup)
    (h : Lts.Reachable (Lts.Guarded InTime (Lts.ofFun (step start))) (init start) s) :
    ∃ g : History,
      Relation.ReflTransGen (Lease.Moved (home start)) (fullPool start) (lease g s) ∧
      Lease.Sound (home start) start.IsUnix (lease g s) ∧
      (∀ fd, InTime s (.advance fd) → s.advance fd ≠ .error .checkFailed) ∧
      (∀ fd, s.phase fd = .connected → ∃ unixFd,
        s.tables.tcpToUnix fd = some unixFd ∧ s.tables.unixToTcp unixFd = some fd) ∧
      (s.Quiet → Orderly start g s.toState) := by
  obtain ⟨g, hsane, hrun⟩ := sane_of_guarded h
  refine ⟨g, hrun, hsane.sound, fun fd => hsane.advance_ne_checkFailed, fun fd hfd => ?_,
    hsane.orderly⟩
  obtain ⟨unixFd, hentry⟩ := hsane.connected fd hfd
  refine ⟨unixFd, hentry, (hsane.inverse fd unixFd).mpr ?_⟩
  rw [paired, hfd]
  exact hentry

/-- Two clients of different sides, the second ahead of the first. -/
def overtaking : List Action :=
  [.accept 200, .advance 200, .accept 201, .advance 201, .advance 201, .advance 200,
    .advance 201, .advance 201, .advance 200, .advance 201]

/-- The second is connected and the first has a connection in hand. -/
theorem refines_of_guarded_overtaking :
    ∃ s : Threads, s.phase 200 = .obtained 5 ∧ s.phase 201 = .connected ∧
      ∃ g : History,
        Relation.ReflTransGen (Lease.Moved (home sampleStartup)) (fullPool sampleStartup)
          (lease g s) ∧
        Lease.Sound (home sampleStartup) sampleStartup.IsUnix (lease g s) ∧
        ∃ unixFd, s.tables.tcpToUnix 201 = some unixFd ∧ s.tables.unixToTcp unixFd = some 201 := by
  obtain ⟨s, hs, hfirst, hsecond⟩ : ∃ s : Threads,
      Lts.exec (Lts.guardedFun InTime (step sampleStartup)) (init sampleStartup) overtaking =
        some s ∧ s.phase 200 = .obtained 5 ∧ s.phase 201 = .connected :=
    ⟨_, rfl, by decide +kernel, by decide +kernel⟩
  obtain ⟨g, hrun, hsound, -, hconnected, -⟩ :=
    refines_of_guarded sampleStartup ⟨_, Lts.run_of_exec_guarded hs⟩
  exact ⟨s, hfirst, hsecond, g, hrun, hsound, hconnected 201 hsecond⟩

/-! ## One operation at a time -/

/-- The atomic router, with no thread in the middle of anything. -/
def ofState (p : State) : Threads :=
  ⟨p.tables, p.live, fun fd => if fd ∈ p.live then .connected else .closed⟩

variable {s' : Threads} {p p' : State} {infd : ℕ} {guard : Threads → Action → Prop}

/-- One thread is in the middle of an operation. -/
def during (p : State) (fd : ℕ) (tables : Tables) (live : Finset ℕ) (phase : Phase) : Threads :=
  ⟨tables, live, Function.update (ofState p).phase fd phase⟩

theorem phase_during {tables : Tables} {live : Finset ℕ} {phase : Phase} :
    (during p fd tables live phase).phase fd = phase := Function.update_self _ _ _

/-- It goes on, by what it does to the tables and to the clients. -/
theorem reachable_during {tables : Tables} {live : Finset ℕ} {phase : Phase}
    (live' : Finset ℕ) (tables' : Tables) (phase' : Phase)
    (h : Lts.Reachable (Lts.Guarded guard (Lts.ofFun (step start))) s
      (during p fd tables live phase))
    (hguard : guard (during p fd tables live phase) (.advance fd))
    (hclosed : phase ≠ .closed) (hconnected : phase ≠ .connected)
    (hadvance : (during p fd tables live phase).advance fd =
      .ok ⟨tables', live', Function.update (during p fd tables live phase).phase fd phase'⟩) :
    Lts.Reachable (Lts.Guarded guard (Lts.ofFun (step start))) s
      (during p fd tables' live' phase') := by
  have henabled : Enabled start (during p fd tables live phase) (.advance fd) :=
    ⟨by rwa [phase_during], by rwa [phase_during]⟩
  refine h.tail (a := .advance fd) ⟨hguard, ?_⟩
  simp only [Lts.ofFun, step, if_pos henabled, perform, hadvance]
  exact congrArg some (congrArg (Threads.mk _ _) (Function.update_idem _ _ _))

/-- It is done. -/
theorem during_connected {t : Tables} : during p infd t (insert infd p.live) .connected =
    ofState ⟨t, insert infd p.live⟩ := by
  refine congrArg (Threads.mk _ _) (funext fun other => ?_)
  by_cases heq : other = infd
  · subst heq
    simp [ofState]
  · simp [ofState, heq]

theorem during_closed {t : Tables} : during p fd t (p.live.erase fd) .closed =
    ofState ⟨t, p.live.erase fd⟩ := by
  refine congrArg (Threads.mk _ _) (funext fun other => ?_)
  by_cases heq : other = fd
  · subst heq
    simp [ofState]
  · simp [ofState, heq]

/-- A pop is a ticket and a slot. -/
theorem pop_eq_ok {ring ring' : Ring} {slot : Option ℕ} (h : ring.pop = .ok (slot, ring')) :
    ∃ index, slotIndex ring.startIdx = .ok index ∧ slot = ring.slots index ∧
      ring' = { ring with startIdx := ring.startIdx + 1 } := by
  unfold Ring.pop at h
  cases hindex : slotIndex ring.startIdx with
  | error fault =>
      rw [hindex] at h
      cases h
  | ok index =>
      rw [hindex] at h
      obtain ⟨rfl, rfl⟩ := Prod.mk.inj (Except.ok.inj h)
      exact ⟨index, rfl, rfl, rfl⟩

/-- And a push. -/
theorem push_eq_ok {ring ring' : Ring} {unixFd : ℕ} (h : ring.push unixFd = .ok ring') :
    ∃ index, slotIndex ring.endIdx = .ok index ∧
      ring' = { ring with
        slots := Function.update ring.slots index (some unixFd)
        endIdx := ring.endIdx + 1 } := by
  unfold Ring.push at h
  cases hindex : slotIndex ring.endIdx with
  | error fault =>
      rw [hindex] at h
      cases h
  | ok index =>
      rw [hindex] at h
      exact ⟨index, rfl, (Except.ok.inj h).symm⟩

/-- What an accept that runs alone finds when it takes a ticket, and that it
gives none back. -/
def Entering (p : State) (tables : Tables) : Phase → Prop
  | .assigned side => side = p.nextSide ∧ tables.available = p.tables.available
  | .unmapped _ => False
  | _ => True

/-- What a close that runs alone finds when it gets one, and that it takes
none. -/
def Leaving (p : State) (tables : Tables) : Phase → Prop
  | .unmapped unixFd =>
      tables.side unixFd = p.tables.side unixFd ∧ tables.available = p.tables.available
  | .assigned _ => False
  | _ => True

/-- **An accept that runs alone** is the atomic one, under any guard it
meets. -/
theorem reachable_accept (hlive : infd ∉ p.live) (hunix : ¬start.IsUnix infd) {t : Tables}
    (hok : p.tables.accept infd = .ok t) (hfirst : guard (ofState p) (.accept infd))
    (hguard : ∀ tables live phase, Entering p tables phase →
      guard (during p infd tables live phase) (.advance infd)) :
    Lts.Reachable (Lts.Guarded guard (Lts.ofFun (step start))) (ofState p)
      (ofState ⟨t, insert infd p.live⟩) := by
  obtain ⟨unixFd, ring, hpop, hlt, rfl⟩ := accept_eq_ok hok
  obtain ⟨index, hindex, hslot, rfl⟩ := pop_eq_ok hpop
  have henabled : Enabled start (ofState p) (.accept infd) := ⟨hlive, hunix⟩
  have haccepted : Lts.Reachable (Lts.Guarded guard (Lts.ofFun (step start))) (ofState p)
      (during p infd p.tables (insert infd p.live) .accepted) := by
    refine Lts.Reachable.refl.tail (a := .accept infd) ⟨hfirst, ?_⟩
    simp only [Lts.ofFun, step, if_pos henabled, perform]
    rfl
  have hassigned := reachable_during (insert infd p.live)
    { p.tables with roundRobinCounter := p.tables.roundRobinCounter + 1 }
    (.assigned p.nextSide) haccepted (hguard _ _ _ trivial) (by simp) (by simp)
    (by unfold advance; rw [phase_during]; rfl)
  have hticketed := reachable_during (insert infd p.live)
    { p.tables with
      roundRobinCounter := p.tables.roundRobinCounter + 1
      available := Function.update p.tables.available p.nextSide
        { p.tables.available p.nextSide with
          startIdx := (p.tables.available p.nextSide).startIdx + 1 } }
    (.ticketed p.nextSide (p.tables.available p.nextSide).startIdx) hassigned (hguard _ _ _ ⟨rfl, rfl⟩)
    (by simp) (by simp) (by unfold advance; rw [phase_during]; rfl)
  have hobtained := reachable_during _ _ (.obtained unixFd) hticketed (hguard _ _ _ trivial) (by simp) (by simp) (by
    rw [advance_of_ticketed phase_during hindex]
    simp only [during, Function.update_self, ← hslot]
    rfl)
  have hlisted := reachable_during (insert infd p.live)
    { p.tables with
      roundRobinCounter := p.tables.roundRobinCounter + 1
      available := Function.update p.tables.available p.nextSide
        { p.tables.available p.nextSide with
          startIdx := (p.tables.available p.nextSide).startIdx + 1 }
      tcpToUnix := Function.update p.tables.tcpToUnix infd (some unixFd) }
    (.listed unixFd) hobtained (hguard _ _ _ trivial) (by simp) (by simp)
    (by unfold advance; rw [phase_during]; simp only [if_pos hlt]; rfl)
  have hconnected := reachable_during (insert infd p.live)
    (p.tables.pair p.nextSide { p.tables.available p.nextSide with
      startIdx := (p.tables.available p.nextSide).startIdx + 1 } infd unixFd)
    .connected hlisted (hguard _ _ _ trivial) (by simp) (by simp) (by unfold advance; rw [phase_during]; rfl)
  rw [during_connected] at hconnected
  exact hconnected

/-- **And so is a close.** -/
theorem reachable_close (hlive : fd ∈ p.live) {t : Tables}
    (hok : p.tables.eraseFromMaps fd = .ok t) (hfirst : guard (ofState p) (.readEnd fd))
    (hguard : ∀ tables live phase, Leaving p tables phase →
      guard (during p fd tables live phase) (.advance fd)) :
    Lts.Reachable (Lts.Guarded guard (Lts.ofFun (step start))) (ofState p)
      (ofState ⟨t, p.live.erase fd⟩) := by
  obtain ⟨unixFd, ring, hentry, hpush, rfl⟩ := eraseFromMaps_eq_ok hok
  obtain ⟨index, hindex, rfl⟩ := push_eq_ok hpush
  have henabled : Enabled start (ofState p) (.readEnd fd) := if_pos hlive
  have herasing : Lts.Reachable (Lts.Guarded guard (Lts.ofFun (step start))) (ofState p)
      (during p fd p.tables p.live (.erasing unixFd)) := by
    have hentry' : (ofState p).tables.tcpToUnix fd = some unixFd := hentry
    refine Lts.Reachable.refl.tail (a := .readEnd fd) ⟨hfirst, ?_⟩
    simp only [Lts.ofFun, step, if_pos henabled, perform, hentry']
    rfl
  have hunlisted := reachable_during p.live
    { p.tables with unixToTcp := Function.update p.tables.unixToTcp unixFd none }
    (.unlisted unixFd) herasing (hguard _ _ _ trivial) (by simp) (by simp)
    (by unfold advance; rw [phase_during]; rfl)
  have hunmapped := reachable_during p.live
    { p.tables with
      unixToTcp := Function.update p.tables.unixToTcp unixFd none
      tcpToUnix := Function.update p.tables.tcpToUnix fd none }
    (.unmapped unixFd) hunlisted (hguard _ _ _ trivial) (by simp) (by simp)
    (by unfold advance; rw [phase_during]; rfl)
  have hreturning := reachable_during p.live
    { p.tables with
      unixToTcp := Function.update p.tables.unixToTcp unixFd none
      tcpToUnix := Function.update p.tables.tcpToUnix fd none
      available := Function.update p.tables.available (p.tables.side unixFd)
        { p.tables.available (p.tables.side unixFd) with
          endIdx := (p.tables.available (p.tables.side unixFd)).endIdx + 1 } }
    (.returning (p.tables.side unixFd)
      (p.tables.available (p.tables.side unixFd)).endIdx unixFd) hunmapped (hguard _ _ _ ⟨rfl, rfl⟩) (by simp) (by simp)
    (by unfold advance; rw [phase_during]; rfl)
  have hreturned := reachable_during p.live
    (p.tables.unpair (p.tables.side unixFd)
      { p.tables.available (p.tables.side unixFd) with
        slots := Function.update (p.tables.available (p.tables.side unixFd)).slots index
          (some unixFd)
        endIdx := (p.tables.available (p.tables.side unixFd)).endIdx + 1 } fd unixFd)
    .returned hreturning (hguard _ _ _ trivial) (by simp) (by simp) (by
      unfold advance
      rw [phase_during]
      simp only [hindex, during, setRing, goto, Function.update_self, Function.update_idem]
      rfl)
  have hclosed := reachable_during (p.live.erase fd)
    (p.tables.unpair (p.tables.side unixFd)
      { p.tables.available (p.tables.side unixFd) with
        slots := Function.update (p.tables.available (p.tables.side unixFd)).slots index
          (some unixFd)
        endIdx := (p.tables.available (p.tables.side unixFd)).endIdx + 1 } fd unixFd)
    .closed hreturned (hguard _ _ _ trivial) (by simp) (by simp) (by unfold advance; rw [phase_during]; rfl)
  rw [during_closed] at hclosed
  exact hclosed

/-- **Every run of the atomic router is an interleaved one**, of threads
that finish one after the other. -/
theorem reachable_of_atomic (start : Startup) (h : Lts.Reachable (Router.step start) (.init start) p) :
    Lts.Reachable (Lts.ofFun (step start)) (init start) (ofState p) := by
  have hguarded : Lts.Reachable (Lts.Guarded (fun _ _ => True) (Lts.ofFun (step start)))
      (init start) (ofState p) := by
    refine h.invariant (I := fun p => Lts.Reachable
      (Lts.Guarded (fun _ _ => True) (Lts.ofFun (step start))) (init start) (ofState p)) .refl ?_
    rintro p a p' hreach ⟨henabled, hok⟩
    cases a with
    | accept infd =>
        obtain ⟨t, haccept, rfl⟩ := perform_accept_eq_ok.mp hok
        exact hreach.trans (reachable_accept henabled.1 henabled.2 haccept trivial
          fun _ _ _ _ => trivial)
    | close fd =>
        obtain ⟨t, herase, rfl⟩ := perform_close_eq_ok.mp hok
        exact hreach.trans (reachable_close henabled herase trivial fun _ _ _ _ => trivial)
  obtain ⟨as, hrun⟩ := hguarded
  exact ⟨as, hrun.of_guarded⟩

/-- Clients of both sides, accepted and erased each in one go. -/
theorem reachable_of_atomic_comings : ∃ p : State, p.live = {200, 202, 203} ∧
    Lts.Reachable (Lts.ofFun (step sampleStartup)) (init sampleStartup) (ofState p) := by
  obtain ⟨p, hp, hlive⟩ := Option.map_eq_some_iff.mp (show
    (Lts.exec (performs sampleStartup) (.init sampleStartup) comings).map State.live =
      some {200, 202, 203} by decide +kernel)
  exact ⟨p, hlive, reachable_of_atomic sampleStartup ⟨_, run_of_performs hp⟩⟩

/-- An accept finds its side's window not empty, and a close no counter that
has wrapped. -/
def Steady (p : State) : Router.Action → Prop
  | .accept _ =>
      (p.tables.available p.nextSide).startIdx < (p.tables.available p.nextSide).endIdx
  | .close _ => 0 ≤ (p.tables.available .one).endIdx ∧ 0 ≤ (p.tables.available .two).endIdx

instance (p : State) (a : Router.Action) : Decidable (Steady p a) :=
  match a with
  | .accept _ => inferInstanceAs (Decidable (_ < _))
  | .close _ => inferInstanceAs (Decidable (_ ∧ _))

/-- Where one thread runs alone, nobody else is at a slot. -/
theorem idle_during {tables : Tables} {live : Finset ℕ} {phase : Phase} (other : ℕ)
    (h : other ≠ fd) : ((during p fd tables live phase).phase other).takes? = none ∧
      ((during p fd tables live phase).phase other).returns? = none := by
  have hphase : (during p fd tables live phase).phase other =
      if other ∈ p.live then .connected else .closed := Function.update_of_ne h ..
  rw [hphase]
  split <;> exact ⟨rfl, rfl⟩

/-- So it uses its slots in time where it finds the counters so. -/
theorem inTime_during {tables : Tables} {live : Finset ℕ} {phase : Phase}
    (hticket : ∀ side, phase = .assigned side →
      (tables.available side).startIdx < (tables.available side).endIdx)
    (hback : ∀ unixFd, phase = .unmapped unixFd →
      0 ≤ (tables.available (tables.side unixFd)).endIdx) :
    InTime (during p fd tables live phase) (.advance fd) := by
  change (during p fd tables live phase).UsesInTime
    ((during p fd tables live phase).phase fd)
  rw [phase_during]
  cases phase with
  | assigned side => exact hticket side rfl
  | unmapped unixFd => exact hback unixFd rfl
  | ticketed side startIdx =>
      intro other _
      by_cases hother : other = fd
      · rw [hother, phase_during]
        exact (Option.some_ne_none _).symm
      · rw [(idle_during other hother).2]
        exact (Option.some_ne_none _).symm
  | returning side endIdx unixFd =>
      refine .inr fun other _ => ?_
      by_cases hother : other = fd
      · rw [hother, phase_during]
        exact (Option.some_ne_none _).symm
      · rw [(idle_during other hother).1]
        exact (Option.some_ne_none _).symm
  | closed | accepted | obtained | listed | connected | erasing | unlisted | returned =>
      trivial

/-- **Steady runs of the atomic router are in time.** -/
theorem inTime_of_atomic (start : Startup)
    (h : Lts.Reachable (Lts.Guarded Steady (Router.step start)) (.init start) p) :
    Lts.Reachable (Lts.Guarded InTime (Lts.ofFun (step start))) (init start) (ofState p) := by
  refine h.invariant (I := fun p => Lts.Reachable (Lts.Guarded InTime (Lts.ofFun (step start)))
    (init start) (ofState p)) .refl ?_
  rintro p a p' hreach ⟨hsteady, henabled, hok⟩
  cases a with
  | accept infd =>
      obtain ⟨t, haccept, rfl⟩ := perform_accept_eq_ok.mp hok
      refine hreach.trans (reachable_accept henabled.1 henabled.2 haccept trivial
        fun tables live phase hentering => inTime_during ?_ ?_)
      · rintro side rfl
        obtain ⟨rfl, havailable⟩ := hentering
        rw [havailable]
        exact hsteady
      · rintro unixFd rfl
        exact hentering.elim
  | close fd =>
      obtain ⟨t, herase, rfl⟩ := perform_close_eq_ok.mp hok
      refine hreach.trans (reachable_close henabled herase trivial
        fun tables live phase hleaving => inTime_during ?_ ?_)
      · rintro side rfl
        exact hleaving.elim
      · rintro unixFd rfl
        obtain ⟨hside, havailable⟩ := hleaving
        rw [hside, havailable]
        cases p.tables.side unixFd
        · exact hsteady.1
        · exact hsteady.2

/-! ## Out of time -/

/-- **The `CHECK` of a client that has its ticket** fails just when the
first connection of its slot is still on its way back, although the window
was not empty when the ticket was taken. Otherwise the client obtains a
connection of its side. -/
theorem checkFailed_iff (start : Startup) {side : Side} {startIdx : Int32}
    (h : Lts.Reachable (Lts.Guarded InTime (Lts.ofFun (step start))) (init start) s)
    (hphase : s.phase fd = .ticketed side startIdx) :
    (s.advance fd = .error .checkFailed ↔ ∃ other, (s.phase other).returns? =
      some (side, startIdx.toNatClampNeg % kMaxConnections)) ∧
    (s.advance fd ≠ .error .checkFailed → ∃ unixFd ∈ start.unixFds side,
      s.advance fd = .ok (s.goto fd (.obtained unixFd))) := by
  obtain ⟨g, hsane, -⟩ := sane_of_guarded h
  have hnonneg : 0 ≤ startIdx := by
    have := hsane.nonneg fd
    rwa [hphase] at this
  have htakes : s.takes fd = some (side, startIdx.toNatClampNeg) := by
    rw [takes, hphase]
    rfl
  have hadvance := advance_of_ticketed hphase (slotIndex_of_nonneg hnonneg)
  have hlt := hsane.rings.takes_lt side _ ⟨fd, htakes⟩
  have hle := hsane.rings.popped_le side
  have hblank := (hsane.rings.holds side).eq_none_iff
    (Nat.mod_lt startIdx.toNatClampNeg (by decide : 0 < kMaxConnections))
  have hslot : startIdx.toNatClampNeg % kMaxConnections < (g.pushed side).length := by
    have := Nat.mod_le startIdx.toNatClampNeg kMaxConnections
    omega
  rw [hadvance]
  cases hentry : (s.tables.available side).slots
      (startIdx.toNatClampNeg % kMaxConnections) with
  | none => exact ⟨iff_of_true rfl (hblank.mp hentry hslot), fun hne => absurd rfl hne⟩
  | some unixFd =>
      refine ⟨iff_of_false (by simp) fun hbound => ?_, fun _ => ⟨unixFd, ?_, rfl⟩⟩
      · rw [hblank.mpr fun _ => hbound] at hentry
        cases hentry
      · exact hsane.pushed_mem side unixFd
          ((hsane.rings.holds side).mem_of_slot (Nat.mod_lt _ (by decide)) hentry)

/-- The first of a hundred clients is being erased and has taken `end_idx`,
and one more takes `start_idx`, which is the same. -/
def tooSoon : List Action :=
  [.readEnd 200, .advance 200, .advance 200, .advance 200, .accept 300, .advance 300, .advance 300]

/-- The slot is not written yet, and the `CHECK` fails. -/
theorem checkFailed_iff_tooSoon :
    ∃ s : Threads, s.phase 300 = .ticketed .one 50 ∧ s.phase 200 = .returning .one 50 5 ∧
      s.advance 300 = .error .checkFailed := by
  obtain ⟨p, hp, htail⟩ := Option.bind_eq_some_iff.mp (show
    ((Lts.exec (Lts.guardedFun Steady (performs sampleStartup)) (.init sampleStartup) hundred).bind
      fun p => (Lts.exec (Lts.guardedFun InTime (step sampleStartup)) (ofState p) tooSoon).map
        fun s => (s.phase 300, s.phase 200)) =
      some (.ticketed .one 50, .returning .one 50 5) by decide +kernel)
  obtain ⟨s, hs, hphases⟩ := Option.map_eq_some_iff.mp htail
  obtain ⟨hphase, hother⟩ := Prod.mk.inj hphases
  have hfull : Lts.Reachable (Lts.Guarded Steady (Router.step sampleStartup))
      (.init sampleStartup) p := by
    have hrun := Lts.run_of_exec_guarded hp
    rw [ofFun_performs] at hrun
    exact ⟨_, hrun⟩
  have hreach := (inTime_of_atomic sampleStartup hfull).trans ⟨_, Lts.run_of_exec_guarded hs⟩
  refine ⟨s, hphase, hother, (checkFailed_iff sampleStartup hreach hphase).1.mpr ⟨200, ?_⟩⟩
  rw [hother]
  rfl

end Threads
end Router
end Rinha
