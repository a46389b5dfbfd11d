import Rinha.Router.Orderly
/-!
# What an exhausted side does

A popped slot is not cleared. The slot an accept on an exhausted side
looks at is blank only until the ring has been filled once, so the `CHECK`
stops such an accept on the first lap of the ring and on no other
(`accept_of_guarded`). After that it hands out the connection of a
connected client (`not_accept_second_lap`).
-/

namespace Rinha
namespace Router

variable {start : Startup} {g : History} {s s' : State} {side : Side} {infd fd unixFd n m : ℕ}

/-! ## The steps -/

section Except

variable {ε α β : Type} {x : Except ε α} {f : α → β} {e : ε} {b : β}

theorem bind_return_eq_ok :
    (do let a ← x; return f a : Except ε β) = .ok b ↔ ∃ a, x = .ok a ∧ b = f a := by
  cases x with
  | error e => simp [bind, Except.bind]
  | ok a => simp [bind, Except.bind, pure, Except.pure, eq_comm]

theorem bind_return_eq_error :
    (do let a ← x; return f a : Except ε β) = .error e ↔ x = .error e := by
  cases x with
  | error e => simp [bind, Except.bind]
  | ok a => simp [bind, Except.bind, pure, Except.pure]

end Except

theorem perform_accept_eq_ok :
    perform s (.accept infd) = .ok s' ↔
      ∃ t, s.tables.accept infd = .ok t ∧ s' = ⟨t, insert infd s.live⟩ :=
  bind_return_eq_ok

theorem perform_accept_eq_error {fault : Fault} :
    perform s (.accept infd) = .error fault ↔ s.tables.accept infd = .error fault :=
  bind_return_eq_error

theorem perform_close_eq_ok :
    perform s (.close fd) = .ok s' ↔
      ∃ t, s.tables.eraseFromMaps fd = .ok t ∧ s' = ⟨t, s.live.erase fd⟩ :=
  bind_return_eq_ok

/-! ## Runs that never accept on an exhausted side too late -/

/-- An accept that is in time and succeeds was served from the window. -/
theorem Orderly.popped_lt (h : Orderly start g s) (htime : InTime start s (.accept infd))
    (hok : perform s (.accept infd) = .ok s') :
    g.popped s.nextSide < (g.pushed s.nextSide).length := by
  refine Nat.lt_of_le_of_ne (h.ring _).popped_le fun hempty => ?_
  have hexhausted := h.exhausted_iff.mpr hempty
  have hfail := (h.accept_checkFailed_iff infd hexhausted).mpr (htime hexhausted)
  rw [perform_accept_eq_error.mpr hfail] at hok
  cases hok

/-- A client that comes while a connection waits is served from the window. -/
theorem Orderly.of_accept (h : Orderly start g s)
    (hne : g.popped s.nextSide < (g.pushed s.nextSide).length)
    (hstep : step start s (.accept infd) s') : Orderly start (g.pop s.nextSide) s' := by
  obtain ⟨⟨hlive, hunix⟩, hok⟩ := hstep
  obtain ⟨t, ht, rfl⟩ := perform_accept_eq_ok.mp hok
  exact (h.accept hlive hunix hne ht).2

/-- One that goes gives its connection back. -/
theorem Orderly.of_close (h : Orderly start g s) (hstep : step start s (.close fd) s') :
    ∃ side unixFd, Orderly start (g.push side unixFd) s' := by
  obtain ⟨hlive, hok⟩ := hstep
  obtain ⟨t, ht, rfl⟩ := perform_close_eq_ok.mp hok
  obtain ⟨unixFd, htcp⟩ := h.live_iff.mp hlive
  exact ⟨_, _, (h.close htcp ht).2⟩

/-- **One step.** In time, the router stays an orderly pool. -/
theorem Orderly.of_step {a : Action} (h : Orderly start g s) (htime : InTime start s a)
    (hstep : step start s a s') : ∃ g', Orderly start g' s' := by
  cases a with
  | accept infd => exact ⟨_, h.of_accept (h.popped_lt htime hstep.2) hstep⟩
  | close fd =>
      obtain ⟨side, unixFd, hs'⟩ := h.of_close hstep
      exact ⟨_, hs'⟩

/-- A pair stays one while a client is accepted in time. -/
theorem Orderly.paired_accept (h : Orderly start g s) (htime : InTime start s (.accept infd))
    (hstep : step start s (.accept infd) s') (hfd : fd ∈ s.live)
    (hpair : s.tables.unixToTcp unixFd = some fd) :
    fd ≠ infd ∧ fd ∈ s'.live ∧ s'.tables.unixToTcp unixFd = some fd := by
  obtain ⟨⟨hlive, hunix⟩, hok⟩ := hstep
  have hne := h.popped_lt htime hok
  obtain ⟨t, ht, rfl⟩ := perform_accept_eq_ok.mp hok
  obtain ⟨⟨given, ring, rfl, hfree⟩, -⟩ := h.accept hlive hunix hne ht
  -- the connection given was free, and this one is paired
  have hgiven : unixFd ≠ given := by
    rintro rfl
    rw [hpair] at hfree
    cases hfree
  exact ⟨fun heq => hlive (heq ▸ hfd), Finset.mem_insert_of_mem hfd,
    (Function.update_of_ne hgiven ..).trans hpair⟩

/-- And while the client of another connection goes. -/
theorem Orderly.paired_close {dst : ℕ} (h : Orderly start g s)
    (htcp : s.tables.tcpToUnix infd = some dst) (hok : perform s (.close infd) = .ok s')
    (hne : unixFd ≠ dst) (hfd : fd ∈ s.live) (hpair : s.tables.unixToTcp unixFd = some fd) :
    fd ∈ s'.live ∧ s'.tables.unixToTcp unixFd = some fd := by
  obtain ⟨t, ht, rfl⟩ := perform_close_eq_ok.mp hok
  obtain ⟨⟨ring, rfl⟩, -⟩ := h.close htcp ht
  -- a client has one connection
  have hfdne : fd ≠ infd := by
    rintro rfl
    have hown := (h.inverse fd unixFd).mp hpair
    rw [htcp] at hown
    exact hne (Option.some.inj hown).symm
  exact ⟨Finset.mem_erase.mpr ⟨hfdne, hfd⟩, (Function.update_of_ne hne ..).trans hpair⟩

/-- **Every run.** -/
theorem orderly_of_guarded
    (h : Lts.Reachable (Lts.Guarded (InTime start) (step start)) (.init start) s) :
    ∃ g, Orderly start g s :=
  h.invariant (I := fun t => ∃ g, Orderly start g t) ⟨_, orderly_init start⟩
    fun ⟨_, ht⟩ ⟨htime, hs⟩ => ht.of_step htime hs

/-! ## Runs, executed -/

/-- The steps, as a partial function. -/
def performs (start : Startup) (s : State) (a : Action) : Option State :=
  if Enabled start s a then (perform s a).toOption else none

theorem performs_eq_some {a : Action} : performs start s a = some s' ↔ step start s a s' := by
  unfold performs step
  split
  · rename_i hen
    cases perform s a <;> simp [hen, Except.toOption]
  · rename_i hen
    simp [hen]

/-- They are the machine's. -/
theorem ofFun_performs (start : Startup) : Lts.ofFun (performs start) = step start := by
  funext s a s'
  exact propext performs_eq_some

theorem run_of_performs {as : List Action} (h : Lts.exec (performs start) s as = some s') :
    Lts.Run (step start) s as s' := by
  rw [← ofFun_performs]
  exact Lts.run_of_exec h

/-- The two sides at descriptors 5, 7, … and 6, 8, …. -/
def sampleStartup : Startup where
  fds := (List.range 50).map fun i => (5 + 2 * i, 6 + 2 * i)
  length_fds := rfl
  nodup := by decide +kernel
  lt_max := by decide +kernel

theorem sample_not_isUnix (hfd : 200 ≤ fd) : ¬sampleStartup.IsUnix fd := by
  rintro ⟨side, hmem⟩
  have hlt : ∀ side, ∀ unixFd ∈ sampleStartup.unixFds side, unixFd < 200 := by
    rintro (_ | _) <;> decide +kernel
  have := hlt side fd hmem
  omega

/-! ## Visits, and clients that stay -/

/-- The side of the `m`-th client, counted from an even one. -/
def turn (m : ℕ) : Side := if m % 2 = 0 then .one else .two

/-- `n` times two clients have come and gone, and `m` more are connected,
at descriptors from 200 on. -/
structure Stage (n m : ℕ) (g : History) (s : State) : Prop where
  orderly : Orderly sampleStartup g s
  length_pushed : ∀ side, (g.pushed side).length = 50 + n
  popped_one : g.popped .one = n + (m + 1) / 2
  popped_two : g.popped .two = n + m / 2
  counter : s.tables.roundRobinCounter = Int32.ofNat (2 * n + m)
  live_iff : ∀ fd, fd ∈ s.live ↔ 200 ≤ fd ∧ fd < 200 + m

theorem stage_init : Stage 0 0 (.init sampleStartup) (.init sampleStartup) where
  orderly := orderly_init sampleStartup
  length_pushed := by rintro (_ | _) <;> rfl
  popped_one := rfl
  popped_two := rfl
  counter := by decide +kernel
  live_iff := by
    intro fd
    have hnil : fd ∉ (State.init sampleStartup).live := Finset.notMem_empty fd
    exact ⟨fun h => absurd h hnil, fun h => by omega⟩

theorem Stage.nextSide (h : Stage n m g s) : s.nextSide = turn m := by
  rw [State.nextSide, h.counter, sideOf_ofNat, turn]
  congr 2
  omega

theorem Stage.popped_turn (h : Stage n m g s) : g.popped (turn m) = n + m / 2 := by
  unfold turn
  split
  · rw [h.popped_one]
    omega
  · exact h.popped_two

/-- One more client connects, while its side has a connection left. -/
theorem Stage.accept (h : Stage n m g s) (hm : m < 100) :
    ∃ g' s', Lts.Guarded (InTime sampleStartup) (step sampleStartup) s (.accept (200 + m)) s' ∧
      Stage n (m + 1) g' s' ∧
      ∃ unixFd ∈ sampleStartup.unixFds (turn m),
        s'.tables.tcpToUnix = Function.update s.tables.tcpToUnix (200 + m) (some unixFd) := by
  have hside := h.nextSide
  have hne : g.popped s.nextSide < (g.pushed s.nextSide).length := by
    rw [hside, h.popped_turn, h.length_pushed]
    omega
  have hlive : 200 + m ∉ s.live := fun hmem => by
    have := (h.live_iff _).mp hmem
    omega
  have hunix : ¬sampleStartup.IsUnix (200 + m) := sample_not_isUnix (by omega)
  obtain ⟨unixFd, hmem, ring, heq⟩ := h.orderly.accept_ok hne
    (show 200 + m < kMaxConnections by unfold kMaxConnections; omega)
  have hnext := (h.orderly.accept hlive hunix hne heq).2
  have htime : InTime sampleStartup s (.accept (200 + m)) := fun hexhausted =>
    absurd (h.orderly.exhausted_iff.mp hexhausted) (Nat.ne_of_lt hne)
  rw [hside] at hnext hmem heq
  refine ⟨g.pop (turn m), _, ⟨htime, ⟨hlive, hunix⟩, perform_accept_eq_ok.mpr ⟨_, heq, rfl⟩⟩,
    ⟨hnext, h.length_pushed, ?_, ?_, ?_, ?_⟩, _, hmem, ?_⟩
  · unfold turn
    split
    · rw [History.pop_popped_self, h.popped_one]
      omega
    · rw [History.pop_popped_of_ne (by decide), h.popped_one]
      omega
  · unfold turn
    split
    · rw [History.pop_popped_of_ne (by decide), h.popped_two]
      omega
    · rw [History.pop_popped_self, h.popped_two]
      omega
  · change s.tables.roundRobinCounter + 1 = _
    rw [h.counter, ofNat_succ, Nat.add_assoc]
  · intro fd
    rw [Finset.mem_insert, h.live_iff]
    omega
  · rfl

/-- The client at `fd`, which has `unixFd`, goes. -/
theorem Orderly.close_eq (h : Orderly start g s) (htcp : s.tables.tcpToUnix fd = some unixFd)
    (hside : unixFd ∈ start.unixFds side) (hlt : (g.pushed side).length < 2 ^ 31) :
    ∃ s', step start s (.close fd) s' ∧ Orderly start (g.push side unixFd) s' ∧
      s'.tables.tcpToUnix = Function.update s.tables.tcpToUnix fd none ∧
      s'.tables.roundRobinCounter = s.tables.roundRobinCounter ∧ s'.live = s.live.erase fd := by
  obtain rfl := h.side_eq hside
  obtain ⟨ring, hpush, -⟩ := (h.ring _).push unixFd hlt
  have heq : s.tables.eraseFromMaps fd =
      .ok (s.tables.unpair (s.tables.side unixFd) ring fd unixFd) := by
    simp only [Tables.eraseFromMaps, htcp, hpush]
    rfl
  exact ⟨_, ⟨h.live_iff.mpr ⟨_, htcp⟩, perform_close_eq_ok.mpr ⟨_, heq, rfl⟩⟩,
    (h.close htcp heq).2, rfl, rfl, rfl⟩

/-- Two clients come and go. -/
def visit : List Action := [.accept 200, .accept 201, .close 200, .close 201]

theorem Stage.visit (h : Stage n 0 g s) (hn : 50 + n < 2 ^ 31) :
    ∃ g' s', Lts.Run (step sampleStartup) s visit s' ∧ Stage (n + 1) 0 g' s' := by
  obtain ⟨g₁, s₁, hs₁, h₁, u₁, hu₁, hp₁⟩ := h.accept (by decide)
  obtain ⟨g₂, s₂, hs₂, h₂, u₂, hu₂, hp₂⟩ := h₁.accept (by decide)
  have hone : u₁ ∈ sampleStartup.unixFds .one := hu₁
  have htwo : u₂ ∈ sampleStartup.unixFds .two := hu₂
  have hc₁ : s₂.tables.tcpToUnix 200 = some u₁ := by simp [hp₂, hp₁]
  obtain ⟨s₃, hs₃, h₃, hp₃, hk₃, hl₃⟩ := h₂.orderly.close_eq hc₁ hone
    (by rw [h₂.length_pushed]; omega)
  have hc₂ : s₃.tables.tcpToUnix 201 = some u₂ := by simp [hp₃, hp₂]
  obtain ⟨s₄, hs₄, h₄, hp₄, hk₄, hl₄⟩ := h₃.close_eq hc₂ htwo
    (by rw [History.push_pushed_of_ne (by decide), h₂.length_pushed]; omega)
  -- each side has got one connection and given it back
  refine ⟨_, s₄, (((Lts.Run.single hs₁.2).snoc hs₂.2).snoc hs₃).snoc hs₄, h₄, ?_, ?_, ?_, ?_, ?_⟩
  · rintro (_ | _)
    · rw [History.push_pushed_of_ne (by decide), History.push_pushed_self, List.length_append,
        h₂.length_pushed]
      rfl
    · rw [History.push_pushed_self, History.push_pushed_of_ne (by decide), List.length_append,
        h₂.length_pushed]
      rfl
  · rw [History.push_popped, History.push_popped, h₂.popped_one]
  · rw [History.push_popped, History.push_popped, h₂.popped_two]
  · rw [hk₄, hk₃, h₂.counter]
    congr 1
  · intro fd
    rw [hl₄, hl₃, Finset.mem_erase, Finset.mem_erase, h₂.live_iff]
    omega

/-- `n` visits, one after the other. -/
theorem stage_visits (hn : 50 + n ≤ 2 ^ 31) :
    ∃ g s, Lts.Run (step sampleStartup) (.init sampleStartup) (List.replicate n visit).flatten s ∧
      Stage n 0 g s := by
  induction n with
  | zero => exact ⟨_, _, .nil, stage_init⟩
  | succ n ih =>
      obtain ⟨g, s, hrun, hs⟩ := ih (by omega)
      obtain ⟨g', s', hrun', hs'⟩ := hs.visit (by omega)
      refine ⟨g', s', ?_, hs'⟩
      rw [List.replicate_succ', List.flatten_append, List.flatten_singleton]
      exact hrun.append hrun'

/-- `m` clients connect and stay. -/
theorem Stage.arrivals (h : Stage n 0 g s) (hm : m ≤ 100) :
    ∃ g' s', Lts.Run (Lts.Guarded (InTime sampleStartup) (step sampleStartup)) s
        ((List.range m).map fun i => .accept (200 + i)) s' ∧ Stage n m g' s' := by
  induction m with
  | zero => exact ⟨g, s, .nil, h⟩
  | succ m ih =>
      obtain ⟨g₁, s₁, hrun, h₁⟩ := ih (by omega)
      obtain ⟨g₂, s₂, hstep, h₂, -⟩ := h₁.accept (by omega)
      refine ⟨g₂, s₂, ?_, h₂⟩
      rw [List.range_succ, List.map_append]
      exact hrun.snoc hstep

/-! ## An exhausted pool -/

/-- **Pool exhaustion.** In a run in which every accept on an exhausted
side comes on the first lap of that side's ring, no table forgets a
connected client; an accept on an exhausted side fails the `CHECK` just
where it is in time; and an accept that succeeds gets a connection that no
connected client has. -/
theorem accept_of_guarded (start : Startup) {s : State}
    (h : Lts.Reachable (Lts.Guarded (InTime start) (step start)) (.init start) s) :
    (∀ fd ∈ s.live, ∃ unixFd, s.tables.tcpToUnix fd = some unixFd ∧
        s.tables.unixToTcp unixFd = some fd) ∧
      ∀ infd, Enabled start s (.accept infd) →
        (Exhausted start s s.nextSide →
          (perform s (.accept infd) = .error .checkFailed ↔ InTime start s (.accept infd))) ∧
        ∀ s', InTime start s (.accept infd) → perform s (.accept infd) = .ok s' →
          ∃ unixFd, s'.tables.tcpToUnix infd = some unixFd ∧
            ∀ fd ∈ s.live, s.tables.tcpToUnix fd ≠ some unixFd := by
  obtain ⟨g, hs⟩ := orderly_of_guarded h
  refine ⟨fun fd hfd => hs.pair_of_live hfd, fun infd hen => ⟨fun hexhausted => ?_, ?_⟩⟩
  · rw [perform_accept_eq_error, hs.accept_checkFailed_iff infd hexhausted]
    exact ⟨fun hlap _ => hlap, fun htime => htime hexhausted⟩
  · intro s' htime hok
    have hne := hs.popped_lt htime hok
    obtain ⟨t, ht, rfl⟩ := perform_accept_eq_ok.mp hok
    obtain ⟨⟨unixFd, ring, rfl, hfree⟩, -⟩ := hs.accept hen.1 hen.2 hne ht
    refine ⟨unixFd, Function.update_self .., fun fd _ hfd => ?_⟩
    rw [(hs.inverse fd unixFd).mpr hfd] at hfree
    cases hfree

/-- A hundred clients have every connection. -/
def hundred : List Action := (List.range 100).map fun i => .accept (200 + i)

/-- The `CHECK` of one more fails, in time. -/
theorem accept_of_guarded_hundred :
    ∃ s, Lts.Run (Lts.Guarded (InTime sampleStartup) (step sampleStartup)) (.init sampleStartup)
        hundred s ∧
      Exhausted sampleStartup s s.nextSide ∧ perform s (.accept 300) = .error .checkFailed ∧
      ∃ unixFd, s.tables.tcpToUnix 299 = some unixFd ∧ s.tables.unixToTcp unixFd = some 299 := by
  obtain ⟨g, s, hrun, h⟩ := stage_init.arrivals (Nat.le_refl 100)
  have hside : s.nextSide = .one := h.nextSide
  have hempty : g.popped s.nextSide = (g.pushed s.nextSide).length := by
    rw [hside, h.popped_one, h.length_pushed]
  have hexhausted := h.orderly.exhausted_iff.mpr hempty
  have hlive : 300 ∉ s.live := fun hmem => by
    have := (h.live_iff 300).mp hmem
    omega
  -- fifty puts are not a lap of the ring
  have hlap : FirstLap s s.nextSide := (h.orderly.accept_checkFailed_iff 300 hexhausted).mp
    (h.orderly.accept_first 300 hempty (by rw [h.length_pushed]; decide))
  obtain ⟨hpaired, haccept⟩ := accept_of_guarded sampleStartup ⟨_, hrun⟩
  have hfails := (haccept 300 ⟨hlive, sample_not_isUnix (by decide)⟩).1 hexhausted
  exact ⟨s, hrun, hexhausted, hfails.mpr fun _ => hlap,
    hpaired 299 ((h.live_iff 299).mpr (by omega))⟩

/-- 950 visits of two clients fill both rings; 100 more clients take
every connection. -/
def secondLap : List Action :=
  (List.replicate 950 visit).flatten ++ (List.range 100).map fun i => .accept (200 + i)

/-- **The next client is paired with a connection still in use**, and
`unix_to_tcp` forgets the client that has it. -/
theorem not_accept_second_lap :
    ∃ s s' : State, Lts.Run (step sampleStartup) (.init sampleStartup) secondLap s ∧
      Exhausted sampleStartup s s.nextSide ∧ step sampleStartup s (.accept 300) s' ∧
      ∃ fd ∈ s'.live, ∃ unixFd, fd ≠ 300 ∧ s.tables.unixToTcp unixFd = some fd ∧
        s'.tables.tcpToUnix fd = some unixFd ∧ s'.tables.unixToTcp unixFd = some 300 := by
  obtain ⟨g₁, s₁, hrun₁, h₁⟩ := stage_visits (show 50 + 950 ≤ 2 ^ 31 by decide)
  obtain ⟨g, s, hrun, h⟩ := h₁.arrivals (Nat.le_refl 100)
  have hside : s.nextSide = .one := h.nextSide
  have hempty : g.popped s.nextSide = (g.pushed s.nextSide).length := by
    rw [hside, h.popped_one, h.length_pushed]
  -- fifty and 950 puts are a thousand: the ring's first lap is over
  have hlen : (g.pushed s.nextSide).length = 1000 := h.length_pushed _
  obtain ⟨stale, hstale, ring, heq⟩ := h.orderly.accept_later 300 hempty
    (by rw [hlen]; decide) (by rw [hlen]; decide)
  rw [if_pos (by decide)] at heq
  have hexhausted := h.orderly.exhausted_iff.mpr hempty
  obtain ⟨fd, hfd, htcp⟩ := hexhausted stale hstale
  have hne : fd ≠ 300 := by
    have := (h.live_iff fd).mp hfd
    omega
  have hlive : 300 ∉ s.live := fun hmem => by
    have := (h.live_iff 300).mp hmem
    omega
  refine ⟨s, _, hrun₁.append hrun.of_guarded, hexhausted,
    ⟨⟨hlive, sample_not_isUnix (by decide)⟩, perform_accept_eq_ok.mpr ⟨_, heq, rfl⟩⟩,
    fd, Finset.mem_insert_of_mem hfd, stale, hne, (h.orderly.inverse _ _).mpr htcp, ?_, ?_⟩
  · simpa [Tables.pair, hne] using htcp
  · simp [Tables.pair]

end Router
end Rinha
