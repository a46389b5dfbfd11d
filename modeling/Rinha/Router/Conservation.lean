import Mathlib.Data.Finset.Card
import Rinha.Common.Versioned
import Rinha.Router.Exhaustion
/-!
# Where the connections are

While every accept finds its side's window occupied, each of the hundred
unix connections is in the window of its own side or paired with one
client. The windows are read off the rings as the code has them, by their
two counters, which a run of fewer than `2 ^ 31` operations does not wrap.

Which side an accept goes to is the round robin's choice, and it does not
look at the windows: an accept obtains a free connection just where the
side it is sent to has one (`accept_obtains_iff`), however many are free
on the other side (`not_obtains_uneven`).
-/

namespace Rinha
namespace Router

variable {start : Startup} {g : History} {s s' : State} {side : Side} {infd fd unixFd n : ℕ}
variable {ring : Ring} {pushed : List ℕ} {popped : ℕ} {t : Tables}

/-! ## The window of a ring -/

/-- The slots from `start_idx` up to `end_idx`. -/
def Ring.window (ring : Ring) : List (Option ℕ) :=
  (List.range (ring.endIdx - ring.startIdx).toNatClampNeg).map fun k =>
    ring.slots ((ring.startIdx.toNatClampNeg + k) % kMaxConnections)

/-- The counters are apart by what waits, though they may have wrapped. -/
theorem toNatClampNeg_sub {m : ℕ} (hle : n ≤ m) (hnear : m ≤ n + kMaxConnections) :
    (Int32.ofNat m - Int32.ofNat n).toNatClampNeg = m - n := by
  have hsub : Int32.ofNat m - Int32.ofNat n = Int32.ofNat (m - n) := by
    rw [Int32.sub_eq_iff_eq_add, ← Int32.ofNat_add, Nat.sub_add_cancel hle]
  unfold kMaxConnections at hnear
  rw [hsub, Int32.toNatClampNeg, Int32.toInt_ofNat_of_lt (by omega), Int.toNat_natCast]

/-- **The window is what was put in and not taken out.** -/
theorem Ring.Follows.window_eq (h : ring.Follows pushed popped) (hlt : popped < 2 ^ 31)
    (hlap : pushed.length ≤ popped + kMaxConnections) :
    ring.window = (pushed.drop popped).map some := by
  have hstart : ring.startIdx.toNatClampNeg = popped := by
    rw [h.startIdx, Int32.toNatClampNeg, Int32.toInt_ofNat_of_lt hlt, Int.toNat_natCast]
  have hsize : (ring.endIdx - ring.startIdx).toNatClampNeg = pushed.length - popped := by
    rw [h.endIdx, h.startIdx, toNatClampNeg_sub h.popped_le hlap]
  rw [Ring.window, hstart, hsize]
  refine List.ext_getElem (by simp) fun k hk _ => ?_
  have hk' : popped + k < pushed.length := by
    simp only [List.length_map, List.length_range] at hk
    omega
  rw [List.getElem_map, List.getElem_range, List.getElem_map, List.getElem_drop,
    h.queue.slot hk' (by omega)]

/-! ## Runs that accept from a window -/

/-- An accept goes to a side whose window is not empty, on a descriptor
that is an index of the tables. -/
def FromWindow (s : State) : Action → Prop
  | .accept infd =>
      infd < kMaxConnections ∧
        (s.tables.available s.nextSide).startIdx ≠ (s.tables.available s.nextSide).endIdx
  | .close _ => True

instance (s : State) (a : Action) : Decidable (FromWindow s a) :=
  match a with
  | .accept infd => inferInstanceAs (Decidable (infd < kMaxConnections ∧ _ ≠ _))
  | .close _ => inferInstanceAs (Decidable True)

/-- A ring whose counters differ has something in its window. -/
theorem Ring.Follows.popped_lt (h : ring.Follows pushed popped)
    (hne : ring.startIdx ≠ ring.endIdx) : popped < pushed.length := by
  refine Nat.lt_of_le_of_ne h.popped_le fun heq => hne ?_
  rw [h.startIdx, h.endIdx, heq]

/-- The operations on the rings, start-up included. -/
def History.ops (g : History) : ℕ :=
  (g.popped .one + (g.pushed .one).length) + (g.popped .two + (g.pushed .two).length)

theorem History.ops_init (start : Startup) : (History.init start).ops = 100 := by
  simp [History.ops, History.init, Startup.unixFds, start.length_fds, kInitialUnixConnections]

theorem History.ops_pop : (g.pop side).ops = g.ops + 1 := by
  cases side <;> simp [History.ops, History.pop] <;> omega

theorem History.ops_push : (g.push side unixFd).ops = g.ops + 1 := by
  cases side <;> simp [History.ops, History.push] <;> omega

/-- **A run of fewer than `2 ^ 31` operations wraps no counter.** -/
theorem Orderly.bounds (h : Orderly start g s) (hops : g.ops = n + 100) (hn : n < 2 ^ 31)
    (side : Side) : g.popped side < 2 ^ 31 ∧ (g.pushed side).length < 2 ^ 31 - 1 := by
  have hone := h.pushed_le_fifty .one
  have htwo := h.pushed_le_fifty .two
  have hpone := (h.ring .one).popped_le
  have hptwo := (h.ring .two).popped_le
  unfold kInitialUnixConnections at hone htwo
  unfold History.ops at hops
  cases side <;> omega

/-- **One step** is one operation of an orderly pool. -/
theorem Orderly.of_window_step {a : Action} (h : Orderly start g s) (hguard : FromWindow s a)
    (hstep : step start s a s') : ∃ g', Orderly start g' s' ∧ g'.ops = g.ops + 1 := by
  cases a with
  | accept infd =>
      have hne := (h.ring s.nextSide).popped_lt hguard.2
      exact ⟨_, h.of_accept hne hstep, History.ops_pop⟩
  | close fd =>
      obtain ⟨side, unixFd, hs'⟩ := h.of_close hstep
      exact ⟨_, hs', History.ops_push⟩

/-- **Every run.** -/
theorem orderly_of_window_run {as : List Action}
    (h : Lts.Run (Lts.Guarded FromWindow (step start)) (.init start) as s) :
    ∃ g, Orderly start g s ∧ g.ops = as.length + 100 := by
  induction h with
  | nil => exact ⟨_, orderly_init start, by rw [History.ops_init, List.length_nil]⟩
  | snoc _ hs ih =>
      obtain ⟨g, hg, hops⟩ := ih
      obtain ⟨g', hg', hops'⟩ := hg.of_window_step hs.1 hs.2
      refine ⟨g', hg', ?_⟩
      rw [hops', hops, List.length_append, List.length_singleton]

/-! ## Conservation -/

/-- Every connection is in the window of its side or paired with one
client, and the maps say which. -/
structure Conserved (start : Startup) (s : State) : Prop where
  inverse : ∀ fd unixFd, s.tables.unixToTcp unixFd = some fd ↔ s.tables.tcpToUnix fd = some unixFd
  live_iff : ∀ fd, fd ∈ s.live ↔ s.tables.tcpToUnix fd ≠ none
  paired_mem : ∀ fd unixFd, s.tables.tcpToUnix fd = some unixFd → start.IsUnix unixFd
  window_nodup : ∀ side, (s.tables.available side).window.Nodup
  window_mem : ∀ side, ∀ slot ∈ (s.tables.available side).window,
    ∃ unixFd ∈ start.unixFds side, slot = some unixFd
  free_iff : ∀ side, ∀ unixFd ∈ start.unixFds side,
    (some unixFd ∈ (s.tables.available side).window ↔ s.tables.unixToTcp unixFd = none)

theorem Orderly.conserved (h : Orderly start g s) (hlt : ∀ side, g.popped side < 2 ^ 31) :
    Conserved start s := by
  have hwindow : ∀ side, (s.tables.available side).window =
      ((g.lease s.tables).free side).map some := fun side =>
    (h.ring side).window_eq (hlt side) (h.pushed_le side)
  constructor
  case inverse => exact h.inverse
  case live_iff =>
    intro fd
    rw [h.live_iff, Option.ne_none_iff_exists']
  case paired_mem => exact fun fd unixFd hfd => h.sound.owned_of_held hfd
  case window_nodup =>
    intro side
    rw [hwindow]
    exact (h.sound.nodup side).map (Option.some_injective _)
  case window_mem =>
    intro side slot hslot
    rw [hwindow] at hslot
    obtain ⟨unixFd, hfree, rfl⟩ := List.mem_map.mp hslot
    exact ⟨unixFd, h.pushed_mem side unixFd (List.mem_of_mem_drop hfree), rfl⟩
  case free_iff =>
    intro side unixFd hmem
    have hfree := h.sound.free_iff (r := unixFd) ⟨side, hmem⟩
    rw [h.side_eq hmem] at hfree
    rw [hwindow, List.mem_map_of_injective (Option.some_injective _), hfree,
      Option.eq_none_iff_forall_ne_some]
    exact forall_congr' fun fd => not_congr (h.inverse fd unixFd).symm

/-- An operation that accepts from a window is not cut short. -/
theorem Orderly.perform_ok {a : Action} (h : Orderly start g s)
    (hlt : ∀ side, (g.pushed side).length < 2 ^ 31) (hen : Enabled start s a)
    (hguard : FromWindow s a) : ∃ s', perform s a = .ok s' := by
  cases a with
  | accept infd =>
      have hne := (h.ring s.nextSide).popped_lt hguard.2
      obtain ⟨_, -, _, heq⟩ := h.accept_ok hne hguard.1
      exact ⟨_, perform_accept_eq_ok.mpr ⟨_, heq, rfl⟩⟩
  | close fd =>
      obtain ⟨unixFd, htcp⟩ := h.live_iff.mp hen
      obtain ⟨side, hmem⟩ := h.sound.owned_of_held htcp
      obtain ⟨s', hs', -⟩ := h.close_eq htcp hmem (hlt side)
      exact ⟨s', hs'.2⟩

/-- **Pool conservation.** In every state of every run of fewer than
`2 ^ 31` operations whose accepts each find their side's window occupied,
the maps are inverse to each other, and each connection waits once in its
own side's window or is paired, and not both. Nor does the next such
operation fail. -/
theorem conserved_of_run (start : Startup) {as : List Action} {s : State}
    (h : Lts.Run (Lts.Guarded FromWindow (step start)) (.init start) as s)
    (hlen : as.length < 2 ^ 31) :
    Conserved start s ∧
      ∀ a, Enabled start s a → FromWindow s a → ∃ s', perform s a = .ok s' := by
  obtain ⟨g, hg, hops⟩ := orderly_of_window_run h
  have hbounds := hg.bounds hops hlen
  exact ⟨hg.conserved fun side => (hbounds side).1,
    fun a => hg.perform_ok fun side => Nat.lt_trans (hbounds side).2 (by decide)⟩

/-- Clients of both sides come and go, and the first one's descriptor is used
again. -/
def comings : List Action :=
  [.accept 200, .accept 201, .accept 202, .close 200, .close 201, .accept 203, .accept 200]

/-- Each connection is in one place after it. -/
theorem conserved_of_run_comings :
    ∃ s, Lts.Run (Lts.Guarded FromWindow (step sampleStartup)) (.init sampleStartup) comings s ∧
      s.live = {200, 202, 203} ∧ Conserved sampleStartup s := by
  obtain ⟨s, hs, hlive⟩ := Option.map_eq_some_iff.mp (show
    (Lts.exec (Lts.guardedFun FromWindow (performs sampleStartup)) (.init sampleStartup)
      comings).map State.live = some {200, 202, 203} by decide +kernel)
  have hrun := Lts.run_of_exec_guarded hs
  rw [ofFun_performs] at hrun
  exact ⟨s, hrun, hlive, (conserved_of_run sampleStartup hrun (by decide)).1⟩

/-! ## Which accepts obtain a connection -/

/-- The accept gets a unix connection that no connected client has. -/
def Obtains (start : Startup) (s : State) (infd : ℕ) : Prop :=
  ∃ s' unixFd, perform s (.accept infd) = .ok s' ∧ s'.tables.tcpToUnix infd = some unixFd ∧
    start.IsUnix unixFd ∧ ∀ fd ∈ s.live, s.tables.tcpToUnix fd ≠ some unixFd

/-- The round robin comes to a side that has a connection left. -/
def HasRoom (start : Startup) (s : State) : Action → Prop
  | .accept _ => ¬Exhausted start s s.nextSide
  | .close _ => True

/-- An accept on an exhausted side gets nothing, or what is in use. -/
theorem Orderly.not_obtains (h : Orderly start g s) (hexhausted : Exhausted start s s.nextSide) :
    ¬Obtains start s infd := by
  rintro ⟨s', unixFd, hok, htcp, -, hfree⟩
  have hempty := h.exhausted_iff.mp hexhausted
  obtain ⟨t, ht, rfl⟩ := perform_accept_eq_ok.mp hok
  rcases Nat.lt_or_ge (g.pushed s.nextSide).length kMaxConnections with hlap | hlap
  · rw [h.accept_first infd hempty hlap] at ht
    cases ht
  rcases Nat.lt_or_eq_of_le (h.ring s.nextSide).length_le with hlt | hwrap
  · -- the slot still holds a connection of the side, and every one of them is in use
    obtain ⟨stale, hstale, ring, heq⟩ := h.accept_later infd hempty hlap hlt
    rw [heq] at ht
    split at ht
    · obtain rfl := Except.ok.inj ht
      simp only [Tables.pair, Function.update_self] at htcp
      obtain rfl := Option.some.inj htcp
      obtain ⟨fd, hfd, heq⟩ := hexhausted stale hstale
      exact hfree fd hfd heq
    · cases ht
  · have hpop := (h.ring s.nextSide).pop_wrapped (hempty.trans hwrap)
    rw [accept_of_pop_error infd hpop] at ht
    cases ht

/-- One on a side with room gets the connection at the head of its window. -/
theorem Orderly.obtains (h : Orderly start g s) (hen : Enabled start s (.accept infd))
    (hroom : ¬Exhausted start s s.nextSide) (hlt : infd < kMaxConnections) :
    Obtains start s infd := by
  -- with room left, the window is not empty
  have hne : g.popped s.nextSide < (g.pushed s.nextSide).length :=
    Nat.lt_of_le_of_ne (h.ring _).popped_le fun hempty => hroom (h.exhausted_iff.mpr hempty)
  obtain ⟨unixFd, hmem, ring, heq⟩ := h.accept_ok hne hlt
  obtain ⟨⟨given, _, hpair, hnone⟩, -⟩ := h.accept hen.1 hen.2 hne heq
  have hgiven : given = unixFd := by
    have hmap := congrFun (congrArg Tables.tcpToUnix hpair) infd
    simp only [Tables.pair, Function.update_self] at hmap
    exact (Option.some.inj hmap).symm
  refine ⟨_, unixFd, perform_accept_eq_ok.mpr ⟨_, heq, rfl⟩, Function.update_self ..,
    ⟨_, hmem⟩, fun fd _ hfd => ?_⟩
  rw [hgiven, (h.inverse fd unixFd).mpr hfd] at hnone
  cases hnone

/-- **A run whose accepts go to sides with room** keeps the pool orderly. -/
theorem orderly_of_room
    (h : Lts.Reachable (Lts.Guarded (HasRoom start) (step start)) (.init start) s) :
    ∃ g, Orderly start g s := by
  refine h.invariant (I := fun t => ∃ g, Orderly start g t) ⟨_, orderly_init start⟩ ?_
  rintro t a u ⟨g, hg⟩ ⟨hroom, hs⟩
  cases a with
  | accept infd =>
      exact hg.of_step (a := .accept infd) (fun hexhausted => absurd hexhausted hroom) hs
  | close fd => exact hg.of_step (a := .close fd) trivial hs

/-- **An accept obtains a free connection** just where the side the round
robin comes to has one left, in every run whose earlier accepts did. How
many clients are connected does not matter otherwise. -/
theorem accept_obtains_iff (start : Startup) {s : State}
    (h : Lts.Reachable (Lts.Guarded (HasRoom start) (step start)) (.init start) s)
    (infd : ℕ) (hen : Enabled start s (.accept infd)) :
    Obtains start s infd ↔ ¬Exhausted start s s.nextSide ∧ infd < kMaxConnections := by
  obtain ⟨g, hg⟩ := orderly_of_room h
  constructor
  · intro hobtains
    refine ⟨fun hexhausted => hg.not_obtains hexhausted hobtains, ?_⟩
    obtain ⟨s', unixFd, hok, -⟩ := hobtains
    obtain ⟨t, ht, -⟩ := perform_accept_eq_ok.mp hok
    obtain ⟨_, _, -, hlt, -⟩ := accept_eq_ok ht
    exact hlt
  · rintro ⟨hroom, hlt⟩
    exact hg.obtains hen hroom hlt

instance (start : Startup) (s : State) (a : Action) : Decidable (HasRoom start s a) :=
  match a with
  | .accept _ => inferInstanceAs (Decidable (¬_))
  | .close _ => inferInstanceAs (Decidable True)

/-- After clients of both sides have come and gone one more obtains a
connection, at a descriptor that was one's of them. -/
theorem accept_obtains_comings :
    ∃ s, Lts.Run (Lts.Guarded (HasRoom sampleStartup) (step sampleStartup)) (.init sampleStartup)
        comings s ∧ Obtains sampleStartup s 201 := by
  obtain ⟨s, hs, hready⟩ := Option.map_eq_some_iff.mp (show
    (Lts.exec (Lts.guardedFun (HasRoom sampleStartup) (performs sampleStartup))
      (.init sampleStartup) comings).map (fun s => decide (Enabled sampleStartup s (.accept 201) ∧
        ¬Exhausted sampleStartup s s.nextSide)) = some true by decide +kernel)
  obtain ⟨hen, hroom⟩ := of_decide_eq_true hready
  have hrun := Lts.run_of_exec_guarded hs
  rw [ofFun_performs] at hrun
  exact ⟨s, hrun, (accept_obtains_iff sampleStartup ⟨_, hrun⟩ 201 hen).mpr ⟨hroom, by decide⟩⟩

/-- A hundred clients connect, and one of the second side goes. -/
def uneven : List Action := (List.range 100).map (fun i => .accept (200 + i)) ++ [.close 201]

/-- **With one client fewer than connections** the next accept is sent to
the full side, where the `CHECK` ends the process. -/
theorem not_obtains_uneven :
    ∃ s, Lts.Run (step sampleStartup) (.init sampleStartup) uneven s ∧ s.live.card = 99 ∧
      Enabled sampleStartup s (.accept 300) ∧ perform s (.accept 300) = .error .checkFailed ∧
      ¬Obtains sampleStartup s 300 := by
  have hexec : (Lts.exec (performs sampleStartup) (.init sampleStartup) uneven).map
      (fun s => (s.live.card, decide (Enabled sampleStartup s (.accept 300)),
        (s.tables.available s.nextSide).slots 50, (s.tables.available s.nextSide).startIdx)) =
      some (99, true, none, 50) := by decide +kernel
  obtain ⟨s, hs, hfacts⟩ := Option.map_eq_some_iff.mp hexec
  simp only [Prod.mk.injEq, decide_eq_true_eq] at hfacts
  obtain ⟨hcard, hen, hslot, hidx⟩ := hfacts
  have hpop : (s.tables.available s.nextSide).pop =
      .ok (none, { s.tables.available s.nextSide with startIdx := 51 }) := by
    have hindex : slotIndex 50 = .ok 50 := by decide +kernel
    rw [Ring.pop, hidx, hindex]
    simp only [bind, Except.bind, hslot]
    rfl
  have hfail : perform s (.accept 300) = .error .checkFailed :=
    perform_accept_eq_error.mpr (accept_of_pop 300 hpop)
  refine ⟨s, run_of_performs hs, hcard, hen, hfail, ?_⟩
  rintro ⟨s', -, hok, -⟩
  rw [hfail] at hok
  cases hok

end Router
end Rinha
