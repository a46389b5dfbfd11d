import Rinha.Common.RingCounter
import Rinha.Router.Conservation
/-!
# Which slots the rings use

Every accept takes its connection from the slot `start_idx` comes to, and
every close puts one in the slot `end_idx` comes to. The counters only go
up, and by their remainders the slots come in order, round and round, and
are taken from in the order they are put in. A connection that is not in
its ring is with a client (`stocked_of_run`), also where a stale one was
handed out, so what waits is never more than a lap.

The remainder of a negative counter is negative. So the order holds just
until a counter wraps (`keepsOrder_iff`), and what would be the next slot
is then one before the array (`not_keepsOrder_wrapped`).
-/

namespace Rinha
namespace Router

variable {start : Startup} {s s' : State} {side : Side} {as : List Action} {a : Action}
variable {ring ring' : Ring} {t : Tables} {infd fd unixFd n n' : ℕ}

/-! ## The indices -/

/-- `… % kMaxConnections`, of either sign. -/
def idxOf (counter : Int32) : ℤ := (counter % Int32.ofNat kMaxConnections).toInt

/-- The `start_idx` of an accept, if it goes to the side. -/
def startIdxOf (side : Side) (s : State) : Action → List ℤ
  | .accept _ => if s.nextSide = side then [idxOf (s.tables.available side).startIdx] else []
  | .close _ => []

/-- The `end_idx` of a close, if the client's connection is of the side. -/
def endIdxOf (side : Side) (s : State) : Action → List ℤ
  | .accept _ => []
  | .close fd =>
      match s.tables.tcpToUnix fd with
      | some unixFd =>
          if s.tables.side unixFd = side then [idxOf (s.tables.available side).endIdx] else []
      | none => []

/-- The indices of the start-up loop, which are the counter itself. -/
def addIdxs (side : Side) : Tables → List (ℕ × ℕ) → List ℤ
  | _, [] => []
  | tables, fds :: rest =>
      (tables.available side).endIdx.toInt :: addIdxs side (tables.addConnections fds) rest

/-- Where the side's ring is taken from along a run. -/
def startIdxs (start : Startup) (as : List Action) (side : Side) : List ℤ :=
  Lts.trace (performs start) (startIdxOf side) (.init start) as

/-- And where it is put into, from start-up on. -/
def endIdxs (start : Startup) (as : List Action) (side : Side) : List ℤ :=
  addIdxs side .blank start.fds ++ Lts.trace (performs start) (endIdxOf side) (.init start) as

/-- The side's ring is taken from slot by slot, and put into slot by slot,
and what was put in first is taken first. -/
structure KeepsOrder (start : Startup) (as : List Action) (side : Side) : Prop where
  pops : RingCounter.Cyclic kMaxConnections (startIdxs start as side)
  pushes : RingCounter.Cyclic kMaxConnections (endIdxs start as side)
  fifo : ∀ (n : ℕ) (i j : ℤ), (startIdxs start as side)[n]? = some i →
    (endIdxs start as side)[n]? = some j → i = j

/-- The connection of a client that goes, if it is of the side. -/
def putFdOf (side : Side) (s : State) : Action → List ℕ
  | .accept _ => []
  | .close fd =>
      match s.tables.tcpToUnix fd with
      | some unixFd => if s.tables.side unixFd = side then [unixFd] else []
      | none => []

/-- The connections put in the side's ring, from start-up on. -/
def putFds (start : Startup) (as : List Action) (side : Side) : List ℕ :=
  start.unixFds side ++ Lts.trace (performs start) (putFdOf side) (.init start) as

/-- The one that has waited longest: as many were put in before it as have
been taken. -/
def headFd (start : Startup) (as : List Action) (side : Side) : Option ℕ :=
  (putFds start as side)[(startIdxs start as side).length]?

/-- An accept is handed the connection that has waited longest, if any
waits. -/
def ServesHead (start : Startup) (as : List Action) (s : State) : Action → Prop
  | .accept _ => ∀ unixFd, headFd start as s.nextSide = some unixFd →
      ∃ ring, (s.tables.available s.nextSide).pop = .ok (some unixFd, ring)
  | .close _ => True

/-- The counter the step counts up is not negative. -/
def NotWrapped (s : State) : Action → Prop
  | .accept _ => 0 ≤ (s.tables.available s.nextSide).startIdx
  | .close fd => ∀ unixFd ∈ s.tables.tcpToUnix fd,
      0 ≤ (s.tables.available (s.tables.side unixFd)).endIdx

/-! ## What the operations do to the counters -/

theorem idxOf_eq (counter : Int32) :
    idxOf counter = RingCounter.idx kMaxConnections counter.toBitVec := Int32.toInt_mod ..

/-- Only a remainder that is not negative is an index of the array. -/
theorem slotIndex_eq_ok {counter : Int32} {index : ℕ} (h : slotIndex counter = .ok index) :
    idxOf counter = index := by
  simp only [slotIndex] at h
  split at h
  · cases h
  · rename_i hneg
    have hnonneg : 0 ≤ idxOf counter :=
      Int.not_lt.mp fun hlt => hneg (Int32.lt_iff_toInt_lt.mpr hlt)
    rw [← Except.ok.inj h]
    exact (Int.toNat_of_nonneg hnonneg).symm

theorem Ring.of_pop {slot : Option ℕ} (h : ring.pop = .ok (slot, ring')) :
    0 ≤ idxOf ring.startIdx ∧ ring'.startIdx = ring.startIdx + 1 ∧ ring'.endIdx = ring.endIdx := by
  obtain ⟨index, hindex, heq⟩ := bind_return_eq_ok.mp h
  obtain ⟨-, rfl⟩ := Prod.mk.inj heq
  exact ⟨by rw [slotIndex_eq_ok hindex]; exact Int.natCast_nonneg _, rfl, rfl⟩

theorem Ring.of_push (h : ring.push unixFd = .ok ring') :
    0 ≤ idxOf ring.endIdx ∧ ring'.endIdx = ring.endIdx + 1 ∧ ring'.startIdx = ring.startIdx := by
  obtain ⟨index, hindex, rfl⟩ := bind_return_eq_ok.mp h
  exact ⟨by rw [slotIndex_eq_ok hindex]; exact Int.natCast_nonneg _, rfl, rfl⟩

/-- The counters of a side go up by what the step notes of it. -/
structure Counted (side : Side) (s : State) (a : Action) (s' : State) : Prop where
  startIdx : (s'.tables.available side).startIdx.toBitVec =
    (s.tables.available side).startIdx.toBitVec + BitVec.ofNat 32 (startIdxOf side s a).length
  endIdx : (s'.tables.available side).endIdx.toBitVec =
    (s.tables.available side).endIdx.toBitVec + BitVec.ofNat 32 (endIdxOf side s a).length
  start_nonneg : ∀ i ∈ startIdxOf side s a, 0 ≤ i
  end_nonneg : ∀ i ∈ endIdxOf side s a, 0 ≤ i

theorem counted_accept {infd : ℕ} (hok : perform s (.accept infd) = .ok s') (side : Side) :
    Counted side s (.accept infd) s' := by
  obtain ⟨t, ht, rfl⟩ := perform_accept_eq_ok.mp hok
  obtain ⟨unixFd, ring, hpop, -, rfl⟩ := accept_eq_ok ht
  obtain ⟨hnonneg, hstart, hend⟩ := Ring.of_pop hpop
  rcases eq_or_ne s.nextSide side with rfl | hne
  · constructor
    · simp [Tables.pair, startIdxOf, hstart]
    · simp [Tables.pair, endIdxOf, hend]
    · simpa [startIdxOf] using hnonneg
    · simp [endIdxOf]
  · constructor <;> simp [Tables.pair, startIdxOf, endIdxOf, hne, hne.symm]

theorem counted_close {fd : ℕ} (hok : perform s (.close fd) = .ok s') (side : Side) :
    Counted side s (.close fd) s' := by
  obtain ⟨t, ht, rfl⟩ := perform_close_eq_ok.mp hok
  obtain ⟨unixFd, ring, htcp, hpush, rfl⟩ := eraseFromMaps_eq_ok ht
  obtain ⟨hnonneg, hend, hstart⟩ := Ring.of_push hpush
  rcases eq_or_ne (s.tables.side unixFd) side with rfl | hne
  · constructor
    · simp [Tables.unpair, startIdxOf, hstart]
    · simp [Tables.unpair, endIdxOf, htcp, hend]
    · simp [startIdxOf]
    · simpa [endIdxOf, htcp] using hnonneg
  · constructor <;> simp [Tables.unpair, startIdxOf, endIdxOf, htcp, hne, hne.symm]

/-- **One step** counts. -/
theorem counted_of_step (h : performs start s a = some s') (side : Side) : Counted side s a s' := by
  have hok := (performs_eq_some.mp h).2
  cases a with
  | accept infd => exact counted_accept hok side
  | close fd => exact counted_close hok side

theorem startIdxOf_eq (side : Side) (s : State) (a : Action) :
    startIdxOf side s a = [] ∨
      startIdxOf side s a = [idxOf (s.tables.available side).startIdx] := by
  cases a with
  | accept infd =>
      simp only [startIdxOf]
      split
      · exact .inr rfl
      · exact .inl rfl
  | close fd => exact .inl rfl

theorem endIdxOf_eq (side : Side) (s : State) (a : Action) :
    endIdxOf side s a = [] ∨ endIdxOf side s a = [idxOf (s.tables.available side).endIdx] := by
  cases a with
  | accept infd => exact .inl rfl
  | close fd =>
      simp only [endIdxOf]
      split
      · split
        · exact .inr rfl
        · exact .inl rfl
      · exact .inl rfl

theorem counts_startIdx (start : Startup) (side : Side) :
    RingCounter.Counts kMaxConnections (performs start)
      (fun s => (s.tables.available side).startIdx.toBitVec) (startIdxOf side) where
  note_eq s a := idxOf_eq (s.tables.available side).startIdx ▸ startIdxOf_eq side s a
  counter_eq h := (counted_of_step h side).startIdx
  nonneg h := (counted_of_step h side).start_nonneg

theorem counts_endIdx (start : Startup) (side : Side) :
    RingCounter.Counts kMaxConnections (performs start)
      (fun s => (s.tables.available side).endIdx.toBitVec) (endIdxOf side) where
  note_eq s a := idxOf_eq (s.tables.available side).endIdx ▸ endIdxOf_eq side s a
  counter_eq h := (counted_of_step h side).endIdx
  nonneg h := (counted_of_step h side).end_nonneg

/-! ## Start-up -/

theorem Connected.endIdx {done : List (ℕ × ℕ)} (h : Connected done t) (side : Side) :
    (t.available side).endIdx = Int32.ofNat done.length := by
  cases side with
  | one => rw [h.one.endIdx, List.length_map]
  | two => rw [h.two.endIdx, List.length_map]

/-- The start-up loop fills the first slots, in order. -/
theorem Connected.addIdxs_eq {done rest : List (ℕ × ℕ)} (h : Connected done t)
    (hlt : (done ++ rest).length ≤ kMaxConnections) (side : Side) :
    addIdxs side t rest = RingCounter.idxs 32 kMaxConnections done.length rest.length := by
  induction rest generalizing done t with
  | nil => rfl
  | cons fds rest ih =>
      rw [List.length_append, List.length_cons] at hlt
      have hadd : Connected (done ++ [fds]) (t.addConnections fds) := h.addConnections (by omega)
      have hrest := ih hadd
        (by simp only [List.length_append, List.length_cons, List.length_nil]; omega)
      -- short of the ring's length the counter is its own remainder
      unfold kMaxConnections at hlt
      have hidx : (t.available side).endIdx.toInt =
          RingCounter.idx kMaxConnections (BitVec.ofNat 32 done.length) := by
        have hmod : done.length % kMaxConnections = done.length :=
          Nat.mod_eq_of_lt (by unfold kMaxConnections; omega)
        rw [h.endIdx, Int32.toInt_ofNat_of_lt (by omega),
          RingCounter.idx_ofNat (by decide) (by omega), hmod]
      rw [addIdxs, hrest, hidx, List.length_append]
      exact RingCounter.idxs_succ.symm

theorem addIdxs_startUp (start : Startup) (side : Side) :
    addIdxs side .blank start.fds =
      RingCounter.idxs 32 kMaxConnections 0 kInitialUnixConnections := by
  have hlt : ([] ++ start.fds).length ≤ kMaxConnections := by
    rw [List.nil_append, start.length_fds]
    decide
  rw [connected_blank.addIdxs_eq hlt, start.length_fds, List.length_nil]

theorem endIdx_init (start : Startup) (side : Side) :
    ((State.init start).tables.available side).endIdx = Int32.ofNat kInitialUnixConnections := by
  rw [((orderly_init start).ring side).endIdx]
  exact congrArg Int32.ofNat (start.length_unixFds side)

/-! ## What the slots hold -/

/-- The clients that have a connection of the side. -/
def State.clientsOf (s : State) (side : Side) : Finset ℕ :=
  s.live.filter fun fd => (s.tables.tcpToUnix fd).map s.tables.side = some side

/-- The ring with nothing taken out. -/
def Ring.untaken (ring : Ring) : Ring := { ring with startIdx := 0 }

theorem Ring.push_untaken (h : ring.push unixFd = .ok ring') :
    ring.untaken.push unixFd = .ok ring'.untaken := by
  obtain ⟨index, hindex, rfl⟩ := bind_return_eq_ok.mp h
  exact bind_return_eq_ok.mpr ⟨index, hindex, rfl⟩

theorem Ring.slot_of_pop {slot : Option ℕ} (h : ring.pop = .ok (slot, ring')) :
    ring'.untaken = ring.untaken ∧ ∃ index < kMaxConnections, ring.slots index = slot := by
  obtain ⟨index, hindex, heq⟩ := bind_return_eq_ok.mp h
  obtain ⟨rfl, rfl⟩ := Prod.mk.inj heq
  have hlt : idxOf ring.startIdx < kMaxConnections := by
    rw [idxOf_eq]
    exact Int.tmod_lt_of_pos _ (by decide)
  rw [slotIndex_eq_ok hindex] at hlt
  exact ⟨rfl, index, Int.ofNat_lt.mp hlt, rfl⟩

/-- The side's ring has had `pushed` put in it, all connections of the
side, and what was taken out since start-up is with a client or back. -/
structure Stocked (s : State) (side : Side) (pushed : List ℕ) (popped : ℕ) : Prop where
  follows : (s.tables.available side).untaken.Follows pushed 0
  side_eq : ∀ unixFd ∈ pushed, s.tables.side unixFd = side
  clients : pushed.length + (s.clientsOf side).card = kInitialUnixConnections + popped

theorem stocked_init (start : Startup) (side : Side) :
    Stocked (.init start) side (start.unixFds side) 0 where
  follows := by
    have h := (orderly_init start).ring side
    have hstart : ((State.init start).tables.available side).startIdx = 0 := h.startIdx
    have huntaken : ((State.init start).tables.available side).untaken =
        (State.init start).tables.available side := by
      rw [Ring.untaken, ← hstart]
    rw [huntaken]
    exact h
  side_eq _ hmem := (orderly_init start).side_eq hmem
  clients := by
    rw [start.length_unixFds side]
    rfl

theorem Stocked.side_of_slot {pushed : List ℕ} {popped i : ℕ} (h : Stocked s side pushed popped)
    (hi : i < kMaxConnections) (hslot : (s.tables.available side).slots i = some unixFd) :
    s.tables.side unixFd = side :=
  h.side_eq _ (h.follows.queue.mem_of_slot hi hslot)

section Filter

variable {live : Finset ℕ} {tcpToUnix : ℕ → Option ℕ} {owner : ℕ → Side}

theorem filter_insert_update (side : Side) (hlive : infd ∉ live) :
    ((insert infd live).filter fun fd =>
        (Function.update tcpToUnix infd (some unixFd) fd).map owner = some side) =
      if owner unixFd = side then
        insert infd (live.filter fun fd => (tcpToUnix fd).map owner = some side)
      else live.filter fun fd => (tcpToUnix fd).map owner = some side := by
  ext fd
  rcases eq_or_ne fd infd with rfl | hne
  · split <;> simp [*]
  · split <;> simp [hne]

theorem filter_erase_update (side : Side) :
    ((live.erase fd).filter fun f =>
        (Function.update tcpToUnix fd none f).map owner = some side) =
      (live.filter fun f => (tcpToUnix f).map owner = some side).erase fd := by
  ext f
  rcases eq_or_ne f fd with rfl | hne
  · simp
  · simp [hne]

end Filter

theorem clientsOf_accept (ring : Ring) (unixFd : ℕ) (side : Side) (hlive : infd ∉ s.live) :
    State.clientsOf ⟨s.tables.pair s.nextSide ring infd unixFd, insert infd s.live⟩ side =
      if s.tables.side unixFd = side then insert infd (s.clientsOf side) else s.clientsOf side :=
  filter_insert_update side hlive

theorem clientsOf_close (s : State) (ring : Ring) (fd unixFd : ℕ) (side : Side) :
    State.clientsOf ⟨s.tables.unpair (s.tables.side unixFd) ring fd unixFd, s.live.erase fd⟩ side =
      (s.clientsOf side).erase fd :=
  filter_erase_update side

/-- An accept takes a connection of its side. -/
theorem Stocked.accept {pushed : Side → List ℕ} {popped : Side → ℕ}
    (h : ∀ side, Stocked s side (pushed side) (popped side))
    (hstep : step start s (.accept infd) s') (side : Side) :
    Stocked s' side (pushed side) (popped side + (startIdxOf side s (.accept infd)).length) := by
  obtain ⟨⟨hlive, -⟩, hok⟩ := hstep
  obtain ⟨t, ht, rfl⟩ := perform_accept_eq_ok.mp hok
  obtain ⟨unixFd, ring, hpop, -, rfl⟩ := accept_eq_ok ht
  obtain ⟨huntaken, index, hindex, hslot⟩ := Ring.slot_of_pop hpop
  have hown := (h s.nextSide).side_of_slot hindex hslot
  have hclients := clientsOf_accept ring unixFd side hlive
  rw [hown] at hclients
  have hnot : infd ∉ s.clientsOf side := fun hmem => hlive (Finset.mem_filter.mp hmem).1
  rcases eq_or_ne s.nextSide side with rfl | hne
  · refine ⟨?_, (h s.nextSide).side_eq, ?_⟩
    · simpa [Tables.pair, huntaken] using (h s.nextSide).follows
    · rw [hclients, if_pos rfl, Finset.card_insert_of_notMem hnot]
      have hcount := (h s.nextSide).clients
      simp only [startIdxOf, if_true, List.length_singleton]
      omega
  · refine ⟨?_, (h side).side_eq, ?_⟩
    · simpa [Tables.pair, hne.symm] using (h side).follows
    · rw [hclients, if_neg hne]
      simpa [startIdxOf, hne] using (h side).clients

/-- A close puts one back. -/
theorem Stocked.close {pushed : List ℕ} {popped : ℕ} (h : Stocked s side pushed popped)
    (hstep : step start s (.close fd) s') :
    Stocked s' side (pushed ++ putFdOf side s (.close fd)) popped := by
  obtain ⟨hlive, hok⟩ := hstep
  obtain ⟨t, ht, rfl⟩ := perform_close_eq_ok.mp hok
  obtain ⟨unixFd, ring, htcp, hpush, rfl⟩ := eraseFromMaps_eq_ok ht
  have hclients := clientsOf_close s ring fd unixFd side
  have hcount := h.clients
  rcases eq_or_ne (s.tables.side unixFd) side with rfl | hne
  · have hput : putFdOf (s.tables.side unixFd) s (.close fd) = [unixFd] := by
      simp [putFdOf, htcp]
    have hmem : fd ∈ s.clientsOf (s.tables.side unixFd) :=
      Finset.mem_filter.mpr ⟨hlive, by rw [htcp]; rfl⟩
    rw [hput]
    refine ⟨?_, ?_, ?_⟩
    · simpa [Tables.unpair] using h.follows.of_push (Ring.push_untaken hpush)
    · intro u hu
      rw [List.mem_append, List.mem_singleton] at hu
      rcases hu with hu | rfl
      · exact h.side_eq u hu
      · rfl
    · have herase := Finset.card_erase_add_one hmem
      rw [hclients, List.length_append, List.length_singleton]
      omega
  · have hput : putFdOf side s (.close fd) = [] := by simp [putFdOf, htcp, hne]
    have hnot : fd ∉ s.clientsOf side := by
      intro hmem
      have hside := (Finset.mem_filter.mp hmem).2
      rw [htcp] at hside
      exact hne (Option.some.inj hside)
    rw [hput, List.append_nil]
    refine ⟨?_, h.side_eq, ?_⟩
    · simpa [Tables.unpair, hne.symm] using h.follows
    · rwa [hclients, Finset.erase_eq_of_notMem hnot]

/-- **Every run** keeps the rings stocked. -/
theorem stocked_of_run (h : Lts.Run (step start) (.init start) as s) :
    ∀ side, Stocked s side (putFds start as side) (startIdxs start as side).length := by
  induction h with
  | nil =>
      intro side
      have hput : putFds start [] side = start.unixFds side := List.append_nil _
      rw [hput]
      exact stocked_init start side
  | @snoc as a t u hrun hstep ih =>
      intro side
      rw [← ofFun_performs] at hrun
      rw [startIdxs, putFds, Lts.trace_concat hrun, Lts.trace_concat hrun, List.length_append,
        ← List.append_assoc]
      cases a with
      | accept infd =>
          have hnone : putFdOf side t (.accept infd) = [] := rfl
          rw [hnone, List.append_nil]
          exact Stocked.accept ih hstep side
      | close fd => exact (ih side).close hstep

/-! ## Runs -/

/-- The slots so far are those of two counts, which the counters hold. -/
structure Slotted (start : Startup) (as : List Action) (s : State) (side : Side)
    (popped pushed : ℕ) : Prop where
  pops : startIdxs start as side = RingCounter.idxs 32 kMaxConnections 0 popped
  pushes : endIdxs start as side = RingCounter.idxs 32 kMaxConnections 0 pushed
  startIdx : (s.tables.available side).startIdx.toBitVec = BitVec.ofNat 32 popped
  endIdx : (s.tables.available side).endIdx.toBitVec = BitVec.ofNat 32 pushed
  popped_le : popped ≤ 2 ^ 31
  pushed_le : pushed ≤ 2 ^ 31

theorem wraps_kMaxConnections : RingCounter.Wraps 32 kMaxConnections where
  width_pos := by decide
  slots_pos := by decide
  not_dvd := by decide

/-- **Every run** keeps to its counts. -/
theorem slotted_of_run (h : Lts.Run (step start) (.init start) as s) (side : Side) :
    ∃ popped pushed, Slotted start as s side popped pushed := by
  rw [← ofFun_performs] at h
  have hstart : ((State.init start).tables.available side).startIdx.toBitVec = BitVec.ofNat 32 0 :=
    congrArg Int32.toBitVec ((orderly_init start).ring side).startIdx
  have hend : ((State.init start).tables.available side).endIdx.toBitVec =
      BitVec.ofNat 32 kInitialUnixConnections := congrArg Int32.toBitVec (endIdx_init start side)
  obtain ⟨popped, hpopped, hpops, hs⟩ :=
    (counts_startIdx start side).trace_eq wraps_kMaxConnections h hstart (Nat.zero_le _)
  obtain ⟨pushed, hpushed, hpushes, he⟩ :=
    (counts_endIdx start side).trace_eq wraps_kMaxConnections h hend (by decide)
  rw [Nat.zero_add] at hpopped hs
  refine ⟨popped, kInitialUnixConnections + pushed, hpops, ?_, hs, he, hpopped, hpushed⟩
  -- the pushes of the run go on where start-up's end
  rw [endIdxs, addIdxs_startUp, hpushes]
  nth_rewrite 2 [← Nat.zero_add kInitialUnixConnections]
  exact RingCounter.idxs_append

theorem keepsOrder_of_idxs
    (hpops : startIdxs start as side = RingCounter.idxs 32 kMaxConnections 0 n)
    (hpushes : endIdxs start as side = RingCounter.idxs 32 kMaxConnections 0 n') :
    KeepsOrder start as side ↔
      RingCounter.Cyclic kMaxConnections (RingCounter.idxs 32 kMaxConnections 0 n) ∧
        RingCounter.Cyclic kMaxConnections (RingCounter.idxs 32 kMaxConnections 0 n') := by
  constructor
  · intro h
    exact ⟨hpops ▸ h.pops, hpushes ▸ h.pushes⟩
  · rintro ⟨hcpops, hcpushes⟩
    refine ⟨hpops ▸ hcpops, hpushes ▸ hcpushes, fun i x y hx hy => ?_⟩
    -- taken as the `i`-th, and put in as the `i`-th: the same remainder
    rw [hpops] at hx
    rw [hpushes] at hy
    rw [RingCounter.eq_idx_of_getElem? hx, RingCounter.eq_idx_of_getElem? hy]

theorem Slotted.keepsOrder {popped pushed : ℕ} (h : Slotted start as s side popped pushed) :
    KeepsOrder start as side :=
  (keepsOrder_of_idxs h.pops h.pushes).mpr
    ⟨wraps_kMaxConnections.cyclic_of_le (by rw [Nat.zero_add]; exact h.popped_le),
      wraps_kMaxConnections.cyclic_of_le (by rw [Nat.zero_add]; exact h.pushed_le)⟩

/-- One more operation keeps it unless it uses a counter that is negative. -/
theorem Slotted.keepsOrder_concat_iff {popped pushed : ℕ}
    (h : Slotted start as s side popped pushed)
    (hrun : Lts.Run (step start) (.init start) as s) (a : Action) :
    KeepsOrder start (as ++ [a]) side ↔
      (startIdxOf side s a = [] ∨ 0 ≤ (s.tables.available side).startIdx.toInt) ∧
        (endIdxOf side s a = [] ∨ 0 ≤ (s.tables.available side).endIdx.toInt) := by
  have hs := counts_startIdx start side
  have he := counts_endIdx start side
  rw [← ofFun_performs] at hrun
  have hpops : startIdxs start (as ++ [a]) side =
      RingCounter.idxs 32 kMaxConnections 0 (popped + (startIdxOf side s a).length) := by
    rw [← hs.idxs_append_note (by rw [Nat.zero_add]; exact h.startIdx), ← h.pops]
    exact Lts.trace_concat hrun
  have hpushes : endIdxs start (as ++ [a]) side =
      RingCounter.idxs 32 kMaxConnections 0 (pushed + (endIdxOf side s a).length) := by
    rw [← he.idxs_append_note (by rw [Nat.zero_add]; exact h.endIdx), ← h.pushes, endIdxs, endIdxs,
      List.append_assoc, Lts.trace_concat hrun]
  rw [keepsOrder_of_idxs hpops hpushes,
    hs.cyclic_note_iff wraps_kMaxConnections h.startIdx h.popped_le,
    he.cyclic_note_iff wraps_kMaxConnections h.endIdx h.pushed_le]
  rfl

/-- A ring whose counter has not wrapped hands out what waits longest. -/
theorem Slotted.pop_head {popped pushed : ℕ} (h : Slotted start as s side popped pushed)
    (hs : Stocked s side (putFds start as side) (startIdxs start as side).length)
    (hhead : headFd start as side = some unixFd)
    (hcounter : 0 ≤ (s.tables.available side).startIdx.toInt) :
    ∃ ring, (s.tables.available side).pop = .ok (some unixFd, ring) := by
  have hlen : (startIdxs start as side).length = popped := by
    rw [h.pops, RingCounter.length_idxs]
  have hstart : (s.tables.available side).startIdx = Int32.ofNat popped :=
    Int32.toBitVec_inj.mp h.startIdx
  have hlt : popped < 2 ^ 31 := by
    rw [← Int32.toInt_toBitVec, h.startIdx] at hcounter
    exact (RingCounter.nonneg_iff (by decide) h.popped_le).mp hcounter
  rw [headFd, hlen] at hhead
  obtain ⟨hwaits, rfl⟩ := List.getElem?_eq_some_iff.mp hhead
  -- what is not waiting is with a client, so less than a lap waits
  have hlap : (putFds start as side).length ≤ popped + kMaxConnections := by
    have hclients := hs.clients
    rw [hlen] at hclients
    unfold kInitialUnixConnections at hclients
    unfold kMaxConnections
    omega
  have hslot : (s.tables.available side).slots (popped % kMaxConnections) =
      some (putFds start as side)[popped] := hs.follows.queue.slot hwaits hlap
  exact ⟨_, by rw [Ring.pop, hstart, slotIndex_ofNat hlt, ← hslot]; rfl⟩

/-- On either ring, that is the counter the operation counts up. -/
theorem notWrapped_iff :
    (∀ side, (startIdxOf side s a = [] ∨ 0 ≤ (s.tables.available side).startIdx.toInt) ∧
      (endIdxOf side s a = [] ∨ 0 ≤ (s.tables.available side).endIdx.toInt)) ↔ NotWrapped s a := by
  cases a with
  | accept infd =>
      simp [startIdxOf, endIdxOf, NotWrapped, Int32.le_iff_toInt_le, ← imp_iff_not_or]
  | close fd =>
      cases htcp : s.tables.tcpToUnix fd with
      | none => simp [startIdxOf, endIdxOf, NotWrapped, htcp]
      | some unixFd =>
          simp [startIdxOf, endIdxOf, NotWrapped, htcp, Int32.le_iff_toInt_le, ← imp_iff_not_or]

/-- **The order of the slots.** In every run, of any length, each ring's
indices are in the array, come in cyclic order, and are taken in the order
they were put in. The next operation keeps it so, and an accept gets the
connection that has waited longest, just where the counter the operation
counts up has not wrapped. -/
theorem keepsOrder_iff (start : Startup) {as : List Action} {s : State}
    (h : Lts.Run (step start) (.init start) as s) :
    (∀ side, KeepsOrder start as side) ∧
      ∀ a, (∀ side, KeepsOrder start (as ++ [a]) side) ∧ ServesHead start as s a ↔
        NotWrapped s a := by
  have horder : ∀ a, (∀ side, KeepsOrder start (as ++ [a]) side) ↔ NotWrapped s a := by
    intro a
    rw [← notWrapped_iff]
    refine forall_congr' fun side => ?_
    obtain ⟨popped, pushed, hside⟩ := slotted_of_run h side
    exact hside.keepsOrder_concat_iff h a
  constructor
  · intro side
    obtain ⟨popped, pushed, hside⟩ := slotted_of_run h side
    exact hside.keepsOrder
  · intro a
    rw [horder a]
    refine and_iff_left_of_imp fun hcounter => ?_
    cases a with
    | accept infd =>
        intro unixFd hhead
        obtain ⟨popped, pushed, hside⟩ := slotted_of_run h s.nextSide
        exact hside.pop_head (stocked_of_run h _) hhead (Int32.le_iff_toInt_le.mp hcounter)
    | close fd => trivial

/-- The `end_idx` of a stage counts its visits. -/
theorem Stage.endIdx {m : ℕ} {g : History} (h : Stage n m g s) (side : Side) :
    (s.tables.available side).endIdx = Int32.ofNat (50 + n) := by
  rw [(h.orderly.ring side).endIdx, h.length_pushed]

/-- A first client comes and goes. -/
theorem keepsOrder_first :
    KeepsOrder sampleStartup [.accept 200] .one ∧
      KeepsOrder sampleStartup [.accept 200, .close 200] .one := by
  obtain ⟨g, s, hstep, h, -⟩ := stage_init.accept (by decide)
  obtain ⟨hrun, hnext⟩ := keepsOrder_iff sampleStartup (.single hstep.2)
  have hcounter : NotWrapped s (.close 200) := by
    intro unixFd _
    rw [h.endIdx]
    decide
  exact ⟨hrun .one, ((hnext (.close 200)).mpr hcounter).1 .one⟩

/-- As many visits as `end_idx` can count, and a client more. -/
def lastLap : List Action := (List.replicate (2 ^ 31 - 50) visit).flatten ++ [.accept 200]

/-- **When that client goes** its connection is put 648 slots before the
array, and not behind slot 647. -/
theorem not_keepsOrder_wrapped :
    ∃ s, Lts.Run (step sampleStartup) (.init sampleStartup) lastLap s ∧
      Enabled sampleStartup s (.close 200) ∧ endIdxOf .one s (.close 200) = [-648] ∧
      ¬KeepsOrder sampleStartup (lastLap ++ [.close 200]) .one := by
  obtain ⟨g₁, s₁, hrun₁, h₁⟩ := stage_visits (show 50 + (2 ^ 31 - 50) ≤ 2 ^ 31 by decide)
  obtain ⟨g, s, hstep, h, unixFd, hmem, htcp⟩ := h₁.accept (by decide)
  have hrun : Lts.Run (step sampleStartup) (.init sampleStartup) lastLap s := hrun₁.snoc hstep.2
  have hside : s.tables.side unixFd = .one := h.orderly.side_eq hmem
  have hpair : s.tables.tcpToUnix 200 = some unixFd := by rw [htcp, Function.update_self]
  have hidx : endIdxOf .one s (.close 200) = [-648] := by
    simp only [endIdxOf, hpair, hside, if_true, h.endIdx]
    decide +kernel
  refine ⟨s, hrun, h.orderly.live_iff.mpr ⟨unixFd, hpair⟩, hidx, fun hkeeps => ?_⟩
  -- the remainder the close computes is among the slots put into
  have hlast : -648 ∈ endIdxs sampleStartup (lastLap ++ [.close 200]) .one := by
    rw [← ofFun_performs] at hrun
    rw [endIdxs, Lts.trace_concat hrun, hidx]
    simp
  exact absurd (hkeeps.pushes.inside _ hlast).1 (by decide)

end Router
end Rinha
