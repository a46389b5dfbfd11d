import Rinha.Router.HandleMessage
import Rinha.Router.Exhaustion
import Rinha.Router.Model.Traffic
import Rinha.Server.ReadLoop
/-!
# What makes the router abort

`HandleMessage` takes a full buffer for the end of the file, and asserts
that nothing came before an end; `erase_from_maps` asserts that a backend
never closes, which it does with a full buffer of its own. Where no read
fills a buffer and no stream ends right behind its last bytes, neither
assertion fails (`no_check_fails`). A client chooses both.
-/

namespace Rinha
namespace Router
namespace Traffic

variable {start : Startup} {g : History} {s s' : Traffic} {fd unixFd dst : ℕ}

/-! ## Tame traffic -/

/-- Clients are accepted on a side with fewer than fifty of them. A read of
one finds less than a buffer full, and the stream goes on, or has ended, and
was not broken off, with nothing before its end. Backends are read from, and
read, before a buffer is full. -/
def Tame (start : Startup) (s : Traffic) : Event → Prop
  | .connect _ => ¬Exhausted start s.pool s.pool.nextSide
  | .clientReadable fd _ _ =>
      (s.fromClient fd).length < kBufferSize ∧
        (s.ending fd = .eagain ∨ s.ending fd = .endOfFile ∧ s.fromClient fd = [])
  | .backendReads unixFd _ _ => (s.atBackend unixFd).length < kBufferWrittableSize
  | .backendReadable unixFd _ => (s.fromBackend unixFd).length < kBufferSize
  | .send _ _ | .finish _ | .hangUp _ _ | .reset _ | .epollError _ => True

/-- A client's stream ends with nothing under way on its connection, and
`epoll` reports none that was reset. -/
def Quiet (s : Traffic) : Event → Prop
  | .clientReadable fd _ _ => s.ending fd = .endOfFile →
      ∀ unixFd ∈ s.pool.tables.tcpToUnix fd, s.atBackend unixFd = [] ∧ s.fromBackend unixFd = []
  | .epollError fd => ¬(s.peer fd).IsReset
  | _ => True

/-- The pool is orderly, and no backend has closed a connection. -/
structure Sane (start : Startup) (s : Traffic) : Prop where
  orderly : ∃ g, Orderly start g s.pool
  backendOpen : ∀ unixFd, s.backendClosed unixFd = false

/-! ## What a tame step can do -/

/-- The ways tame traffic moves a sane state. -/
inductive Stepped (start : Startup) (s : Traffic) : Event → Traffic → Prop
  | connected (infd pool) : Router.step start s.pool (.accept infd) pool →
      Stepped start s (.connect infd) (s.addClient infd pool)
  | refused (infd fault) : fault ≠ .checkFailed →
      Stepped start s (.connect infd) { s with aborted := some (.accept, fault) }
  | sent (fd bytes) : Stepped start s (.send fd bytes)
      { s with fromClient := Function.update s.fromClient fd (s.fromClient fd ++ bytes) }
  | finished (fd : ℕ) : Stepped start s (.finish fd) (s.turn fd .finished)
  | hungUp (fd orderly peer) : Stepped start s (.hangUp fd orderly) (s.turn fd peer)
  | arrived (fd : ℕ) : Stepped start s (.reset fd) (s.turn fd .broken)
  | reported (fd : ℕ) : (s.peer fd).IsReset → Stepped start s (.epollError fd)
      { s with aborted := some (.errorBranch, .checkFailed) }
  | forwarded (fd chunks taken dst bytes) : s.aborted = none → fd ∈ s.pool.live →
      s.pool.tables.unixToTcp dst = some fd →
      Stepped start s (.clientReadable fd chunks taken) (s.forward fd dst bytes)
  | erased (fd chunks taken dst pool) : s.aborted = none → s.ending fd = .endOfFile →
      s.pool.tables.tcpToUnix fd = some dst → Router.step start s.pool (.close fd) pool →
      Stepped start s (.clientReadable fd chunks taken) { s.forward fd dst [] with pool := pool }
  | wrapped (fd chunks taken dst fault) : fault ≠ .checkFailed →
      Stepped start s (.clientReadable fd chunks taken)
        { s.forward fd dst [] with aborted := some (.handleMessage, fault) }
  | answered (unixFd chunks response total) : s.atBackend unixFd ≠ [] →
      Stepped start s (.backendReads unixFd chunks response) (s.answer unixFd total response false)
  | unpaired (unixFd chunks fault) : s.fromBackend unixFd ≠ [] →
      s.pool.tables.dstFd unixFd = .error fault →
      Stepped start s (.backendReadable unixFd chunks)
        { s with aborted := some (.dataBranch, fault) }
  | delivered (unixFd chunks dst bytes) : s.aborted = none →
      Stepped start s (.backendReadable unixFd chunks) (s.deliver unixFd dst bytes)

/-- A connected client is erased, unless the ring's counter has wrapped. -/
theorem eraseFromMaps_error {tables : Tables} {fault : Fault} (h : tables.tcpToUnix fd = some dst)
    (herr : tables.eraseFromMaps fd = .error fault) : fault = .outOfBounds := by
  simp only [Tables.eraseFromMaps, h] at herr
  have hpush := bind_return_eq_error.mp herr
  have hindex := bind_return_eq_error.mp hpush
  unfold slotIndex at hindex
  simp only at hindex
  split at hindex <;> cases hindex
  rfl

theorem handled_error {fault : Fault} (h : s.aborted = none) :
    s.handled fd (.error fault) = { s with aborted := some (.handleMessage, fault) } :=
  if_neg (not_not.mpr h)

theorem handled_ok {tables : Tables} {closed : Bool} (h : s.aborted = none) :
    s.handled fd (.ok (tables, closed)) =
      { s with pool := ⟨tables, if closed then s.pool.live.erase fd else s.pool.live⟩ } :=
  if_neg (not_not.mpr h)

/-- A call that changes no table and returns changes nothing. -/
theorem handled_again : s.handled fd (.ok (s.pool.tables, false)) = s := ite_self s

/-- The traffic goes on as it was but for what the `write` made of it. -/
@[simp] theorem deliver_pool {bytes : Bytes} : (s.deliver unixFd dst bytes).pool = s.pool := by
  unfold deliver
  split <;> rfl

@[simp] theorem deliver_atBackend {bytes : Bytes} :
    (s.deliver unixFd dst bytes).atBackend = s.atBackend := by
  unfold deliver
  split <;> rfl

@[simp] theorem deliver_backendClosed {bytes : Bytes} :
    (s.deliver unixFd dst bytes).backendClosed = s.backendClosed := by
  unfold deliver
  split <;> rfl

/-- No `CHECK` fails over a `write`. -/
theorem deliver_aborted {bytes : Bytes} {site : Site} (h : s.aborted ≠ some (site, .checkFailed)) :
    (s.deliver unixFd dst bytes).aborted ≠ some (site, .checkFailed) := by
  unfold deliver
  split
  · exact h
  · simp only [write]
    split
    · simp
    · exact h

theorem stepped_connect {infd : ℕ} (h : Sane start s) (htame : Tame start s (.connect infd))
    (hs : s.step start (.connect infd) = some s') : Stepped start s (.connect infd) s' := by
  obtain ⟨g, hord⟩ := h.orderly
  simp only [Traffic.step] at hs
  split at hs
  · rename_i hen
    split at hs <;> obtain rfl := Option.some.inj hs
    · rename_i fault herr
      refine .refused infd fault ?_
      rintro rfl
      -- with a connection waiting, the accept fails for its descriptor alone
      have hne := Nat.lt_of_le_of_ne (hord.ring _).popped_le
        fun hempty => htame (hord.exhausted_iff.mpr hempty)
      obtain ⟨_, -, heq⟩ := hord.accept_eq infd hne
      rw [perform_accept_eq_error.mp herr] at heq
      split at heq <;> cases heq
    · rename_i pool hok
      exact .connected infd pool ⟨hen.2, hok⟩
  · cases hs

theorem stepped_clientReadable {chunks : List Bytes} {taken : ℕ} (h : Sane start s)
    (htame : Tame start s (.clientReadable fd chunks taken))
    (hs : s.step start (.clientReadable fd chunks taken) = some s') :
    Stepped start s (.clientReadable fd chunks taken) s' := by
  obtain ⟨g, hord⟩ := h.orderly
  simp only [Traffic.step] at hs
  split at hs
  · rename_i hen
    obtain ⟨hrunning, hlive, hchunks, -⟩ := hen
    obtain ⟨unixFd, htcp, hunix⟩ := hord.pair_of_live hlive
    have hdst : s.pool.tables.dstFd fd = .ok unixFd := by simp only [Tables.dstFd, htcp]
    obtain ⟨hshort, hend⟩ := htame
    rw [← hchunks] at hshort
    rw [hdst] at hs
    have hrunning' : ∀ bytes, (s.forward fd unixFd bytes).aborted = none := fun _ => hrunning
    rcases hend with hagain | ⟨hend, hnil⟩
    · simp only [hagain, handleMessage_again hshort] at hs
      obtain rfl := Option.some.inj hs
      rw [handled_ok (hrunning' _)]
      exact .forwarded fd chunks taken unixFd _ hrunning hlive hunix
    · have hempty : chunks.flatten = [] := hchunks.trans hnil
      simp only [hend, handleMessage_endOfFile hshort, hempty, List.length_nil, if_true,
        List.take_nil] at hs
      obtain rfl := Option.some.inj hs
      cases herase : s.pool.tables.eraseFromMaps fd with
      | error fault =>
          have hwrapped : fault ≠ .checkFailed := by
            rw [eraseFromMaps_error htcp herase]
            decide
          rw [show (do let tables ← Except.error fault; return (tables, true) :
            Except Fault (Tables × Bool)) = .error fault from rfl, handled_error (hrunning' _)]
          exact .wrapped fd chunks taken unixFd fault hwrapped
      | ok t =>
          rw [show (do let tables ← Except.ok t; return (tables, true) :
            Except Fault (Tables × Bool)) = .ok (t, true) from rfl, handled_ok (hrunning' _)]
          exact .erased fd chunks taken unixFd _ hrunning hend htcp
            ⟨hlive, perform_close_eq_ok.mpr ⟨t, herase, rfl⟩⟩
  · cases hs

theorem stepped_backendReadable {chunks : List Bytes} (h : Sane start s)
    (htame : Tame start s (.backendReadable unixFd chunks))
    (hs : s.step start (.backendReadable unixFd chunks) = some s') :
    Stepped start s (.backendReadable unixFd chunks) s' := by
  simp only [Traffic.step] at hs
  split at hs
  · rename_i hen
    obtain ⟨hrunning, hchunks, hsome⟩ := hen
    rw [h.backendOpen] at hsome hs
    have hsome' : s.fromBackend unixFd ≠ [] := hsome.resolve_right Bool.false_ne_true
    split at hs
    · rename_i fault herr
      obtain rfl := Option.some.inj hs
      exact .unpaired unixFd chunks fault hsome' herr
    · have hshort : chunks.flatten.length < kBufferSize := hchunks ▸ htame
      rename_i dst hdst
      simp only [Bool.false_eq_true, if_false, handleMessage_again hshort] at hs
      obtain rfl := Option.some.inj hs
      have hsame := @handled_again (s.deliver unixFd dst chunks.flatten) unixFd
      rw [deliver_pool] at hsame
      rw [hsame]
      exact .delivered unixFd chunks dst _ hrunning
  · cases hs

/-- **Every tame step is one of these.** -/
theorem stepped_of_step {event : Event} (h : Sane start s) (htame : Tame start s event)
    (hs : s.step start event = some s') : Stepped start s event s' := by
  cases event with
  | connect infd => exact stepped_connect h htame hs
  | send fd bytes =>
      simp only [Traffic.step] at hs
      split at hs
      · obtain rfl := Option.some.inj hs
        exact .sent fd bytes
      · cases hs
  | finish fd =>
      obtain ⟨-, ⟨⟩⟩ := Option.ite_none_right_eq_some.mp hs
      exact .finished fd
  | hangUp fd orderly =>
      obtain ⟨-, ⟨⟩⟩ := Option.ite_none_right_eq_some.mp hs
      exact .hungUp fd orderly _
  | reset fd =>
      obtain ⟨-, ⟨⟩⟩ := Option.ite_none_right_eq_some.mp hs
      exact .arrived fd
  | epollError fd =>
      obtain ⟨hen, ⟨⟩⟩ := Option.ite_none_right_eq_some.mp hs
      rw [h.backendOpen] at hen
      rcases hen.2 with ⟨-, hreset⟩ | hclosed
      · exact .reported fd hreset
      · cases hclosed
  | clientReadable fd chunks taken => exact stepped_clientReadable h htame hs
  | backendReads unixFd chunks response =>
      simp only [Traffic.step] at hs
      split at hs
      · rename_i hen
        -- less than a buffer is read to its end, so the backend does not close
        have hdone : (readLoop .eagain chunks (fun _ => 0) 0).2.2 = false := by
          rw [readLoop_eq (Nat.zero_le _), Nat.zero_add, hen.2.2]
          have hshort : (s.atBackend unixFd).length < kBufferWrittableSize := htame
          simpa using hshort
        obtain rfl := Option.some.inj hs
        rw [hdone]
        exact .answered unixFd chunks response _ hen.2.1
      · cases hs
  | backendReadable unixFd chunks => exact stepped_backendReadable h htame hs

/-! ## What it keeps -/

theorem sane_init (start : Startup) : Sane start (init start) :=
  ⟨⟨_, orderly_init start⟩, fun _ => rfl⟩

/-- **One step.** -/
theorem Sane.of_step {event : Event} (h : Sane start s) (htame : Tame start s event)
    (hs : s.step start event = some s') : Sane start s' := by
  obtain ⟨g, hord⟩ := h.orderly
  cases stepped_of_step h htame hs with
  | connected infd pool hpool =>
      have htime : InTime start s.pool (.accept infd) := fun hexhausted => absurd hexhausted htame
      exact ⟨hord.of_step htime hpool, h.backendOpen⟩
  | erased fd chunks taken dst pool _ _ _ hpool =>
      have htime : InTime start s.pool (.close fd) := trivial
      exact ⟨hord.of_step htime hpool, h.backendOpen⟩
  | answered unixFd chunks response total _ =>
      refine ⟨⟨g, hord⟩, fun other => ?_⟩
      rcases eq_or_ne other unixFd with rfl | hne
      · exact Function.update_self ..
      · exact (Function.update_of_ne hne ..).trans (h.backendOpen other)
  | delivered unixFd chunks dst bytes _ =>
      exact ⟨⟨g, by rwa [deliver_pool]⟩, fun other => by
        rw [deliver_backendClosed]
        exact h.backendOpen other⟩
  | _ => exact ⟨⟨g, hord⟩, h.backendOpen⟩

/-- No assertion of `HandleMessage` has failed. -/
def Unasserted (s : Traffic) : Prop := s.aborted ≠ some (.handleMessage, .checkFailed)

theorem Unasserted.of_step {event : Event} (h : Unasserted s) (hsane : Sane start s)
    (htame : Tame start s event) (hs : s.step start event = some s') : Unasserted s' := by
  cases stepped_of_step hsane htame hs with
  | refused infd fault hfault => simp [Unasserted]
  | wrapped fd chunks taken dst fault hfault => simpa [Unasserted] using hfault
  | unpaired unixFd chunks fault _ _ => simp [Unasserted]
  | reported fd _ => simp [Unasserted]
  | delivered unixFd chunks dst bytes _ => exact deliver_aborted h
  | _ => exact h

/-- What is under way on a unix connection has a client, and no assertion
at all has failed. -/
structure Attended (s : Traffic) : Prop where
  paired : ∀ unixFd, s.atBackend unixFd ≠ [] ∨ s.fromBackend unixFd ≠ [] →
    ∃ fd ∈ s.pool.live, s.pool.tables.unixToTcp unixFd = some fd
  unaborted : ∀ site, s.aborted ≠ some (site, .checkFailed)

theorem attended_init (start : Startup) : Attended (init start) where
  paired _ h := by simp [init] at h
  unaborted _ := by simp [init]

theorem Attended.of_step {event : Event} (h : Attended s) (hsane : Sane start s)
    (htame : Tame start s event) (hquiet : Quiet s event) (hs : s.step start event = some s') :
    Attended s' := by
  obtain ⟨g, hord⟩ := hsane.orderly
  cases stepped_of_step hsane htame hs with
  | connected infd pool hpool =>
      refine ⟨fun unixFd hunder => ?_, h.unaborted⟩
      obtain ⟨fd, hfd, hpair⟩ := h.paired unixFd hunder
      have htime : InTime start s.pool (.accept infd) := fun hexhausted => absurd hexhausted htame
      exact ⟨fd, (hord.paired_accept htime hpool hfd hpair).2⟩
  | refused infd fault hfault => exact ⟨h.paired, fun site => by simpa using fun _ => hfault⟩
  | sent fd bytes => exact ⟨h.paired, h.unaborted⟩
  | finished | hungUp | arrived => exact ⟨h.paired, h.unaborted⟩
  | reported fd hreset => exact absurd hreset hquiet
  | forwarded fd chunks taken dst bytes hrunning hlive hunix =>
      refine ⟨fun unixFd hunder => ?_, h.unaborted⟩
      rcases eq_or_ne unixFd dst with rfl | hne
      · exact ⟨fd, hlive, hunix⟩
      · simp only [forward, Function.update_of_ne hne] at hunder
        exact h.paired unixFd hunder
  | erased fd chunks taken dst pool hrunning hend htcp hpool =>
      refine ⟨fun unixFd hunder => ?_, h.unaborted⟩
      have hsame : (s.forward fd dst []).atBackend = s.atBackend := by simp [forward]
      rw [show ({ s.forward fd dst [] with pool := pool } : Traffic).atBackend = _ from hsame]
        at hunder
      -- the client ended quietly, so this is not its connection
      have hne : unixFd ≠ dst := by
        rintro rfl
        obtain ⟨hat, hfrom⟩ := hquiet hend unixFd htcp
        exact hunder.elim (· hat) (· hfrom)
      obtain ⟨other, hother, hpair⟩ := h.paired unixFd hunder
      exact ⟨other, hord.paired_close htcp hpool.2 hne hother hpair⟩
  | wrapped fd chunks taken dst fault hfault =>
      refine ⟨fun unixFd hunder => ?_, fun site => by simpa using fun _ => hfault⟩
      simp only [forward, List.append_nil, Function.update_eq_self] at hunder
      exact h.paired unixFd hunder
  | answered unixFd chunks response total hsome =>
      refine ⟨fun other hunder => ?_, h.unaborted⟩
      rcases eq_or_ne other unixFd with rfl | hne
      · exact h.paired other (.inl hsome)
      · simp only [answer, Function.update_of_ne hne] at hunder
        exact h.paired other hunder
  | unpaired unixFd chunks fault hsome herr =>
      -- what is under way has a client, so the look-up does not fail
      obtain ⟨fd, hfd, hpair⟩ := h.paired unixFd (.inr hsome)
      rw [hord.dstFd_unix hpair] at herr
      cases herr
  | delivered unixFd chunks dst bytes hrunning =>
      refine ⟨fun other hunder => ?_, fun site => deliver_aborted (h.unaborted site)⟩
      rw [deliver_pool]
      rw [deliver_atBackend] at hunder
      rcases eq_or_ne other unixFd with rfl | hne
      · refine h.paired other (hunder.imp_right fun hrest hnil => hrest ?_)
        simp [deliver, hnil]
      · simp only [deliver, Function.update_of_ne hne] at hunder
        exact h.paired other hunder

/-! ## What is not tame -/

/-- A call of `HandleMessage` that fails a `CHECK`. -/
theorem step_of_checkFailed {chunks : List Bytes} {taken : ℕ} {buf : Bytes}
    (h : s.pool.tables.dstFd fd = .ok dst)
    (hs : s.step start (.clientReadable fd chunks taken) = some s')
    (hfail : s.pool.tables.handleMessage fd (s.ending fd) chunks = (buf, .error .checkFailed)) :
    s'.aborted = some (.handleMessage, .checkFailed) := by
  simp only [Traffic.step, h, hfail] at hs
  split at hs
  · rename_i hen
    have hrunning : (s.forward fd dst (buf.take taken)).aborted = none := hen.1
    rw [handled_error hrunning] at hs
    obtain rfl := Option.some.inj hs
    rfl
  · cases hs

/-- **A read of a client fails a `CHECK` of `HandleMessage` just when it is
not tame.** -/
theorem aborted_iff {chunks : List Bytes} {taken : ℕ} (h : Sane start s)
    (hs : s.step start (.clientReadable fd chunks taken) = some s') :
    s'.aborted = some (.handleMessage, .checkFailed) ↔
      ¬Tame start s (.clientReadable fd chunks taken) := by
  constructor
  · intro haborted htame
    cases stepped_of_step h htame hs with
    | forwarded _ _ _ dst bytes hrunning =>
        rw [show (s.forward fd dst bytes).aborted = none from hrunning] at haborted
        cases haborted
    | erased _ _ _ dst pool hrunning =>
        rw [show ({ s.forward fd dst [] with pool := pool } : Traffic).aborted = none from
          hrunning] at haborted
        cases haborted
    | wrapped _ _ _ dst fault hfault => exact hfault (congrArg Prod.snd (Option.some.inj haborted))
  · intro htame
    obtain ⟨g, hord⟩ := h.orderly
    have hen : fd ∈ s.pool.live ∧ chunks.flatten = s.fromClient fd := by
      simp only [Traffic.step] at hs
      split at hs
      · rename_i hen
        exact ⟨hen.2.1, hen.2.2.1⟩
      · cases hs
    obtain ⟨unixFd, htcp, -⟩ := hord.pair_of_live hen.1
    have hdst : s.pool.tables.dstFd fd = .ok unixFd := by simp only [Tables.dstFd, htcp]
    -- a read that is not tame is of a full buffer, or of an end that is not quiet
    rcases Nat.lt_or_ge chunks.flatten.length kBufferSize with hshort | hlong
    · -- a short read is tame unless the stream has ended behind it
      cases hend : s.ending fd with
      | eagain => exact absurd ⟨hen.2 ▸ hshort, .inl hend⟩ htame
      | endOfFile =>
          have hsome : chunks.flatten.length ≠ 0 := by
            intro hzero
            have hnil := List.eq_nil_of_length_eq_zero hzero
            exact htame ⟨hen.2 ▸ hshort, .inr ⟨hend, hen.2 ▸ hnil⟩⟩
          have hfail := @handleMessage_endOfFile _ s.pool.tables fd chunks hshort
          rw [if_neg hsome, ← hend] at hfail
          exact step_of_checkFailed hdst hs hfail
      | error => exact step_of_checkFailed hdst hs (hend ▸ handleMessage_broken hshort)
    · exact step_of_checkFailed hdst hs (handleMessage_full hlong)

/-! ## Every run -/

instance (start : Startup) (s : Traffic) (event : Event) : Decidable (Tame start s event) :=
  match event with
  | .connect _ => inferInstanceAs (Decidable (¬_))
  | .clientReadable _ _ _ => inferInstanceAs (Decidable (_ ∧ (_ ∨ _ ∧ _)))
  | .backendReads _ _ _ => inferInstanceAs (Decidable (_ < _))
  | .backendReadable _ _ => inferInstanceAs (Decidable (_ < _))
  | .send _ _ | .finish _ | .hangUp _ _ | .reset _ | .epollError _ =>
      inferInstanceAs (Decidable True)

instance (s : Traffic) (event : Event) : Decidable (Quiet s event) :=
  match event with
  | .clientReadable _ _ _ => inferInstanceAs (Decidable (_ → ∀ unixFd ∈ _, _))
  | .epollError _ => inferInstanceAs (Decidable (¬_))
  | .connect _ | .send _ _ | .finish _ | .hangUp _ _ | .reset _ | .backendReads _ _ _
  | .backendReadable _ _ => inferInstanceAs (Decidable True)

/-- Tame traffic, with clients that end their streams quietly. -/
def TameQuiet (start : Startup) (s : Traffic) (event : Event) : Prop :=
  Tame start s event ∧ Quiet s event

instance (start : Startup) (s : Traffic) (event : Event) : Decidable (TameQuiet start s event) :=
  inferInstanceAs (Decidable (_ ∧ _))

/-- **No `CHECK` fails on tame traffic.** In a run on which no read fills a
buffer and no stream ends right behind its last bytes, neither
`HandleMessage` nor `erase_from_maps` fails one, and the first read of a
client that is not tame does; where moreover a client's end is only read
with nothing under way on its connection, and `epoll` reports none that was
reset, none fails in the router. -/
theorem no_check_fails (start : Startup) {s : Traffic} :
    (Lts.Reachable (Lts.Guarded (Tame start) (Lts.ofFun (Traffic.step start))) (init start) s →
        s.aborted ≠ some (.handleMessage, .checkFailed) ∧
          ∀ fd chunks taken s', s.step start (.clientReadable fd chunks taken) = some s' →
            (s'.aborted = some (.handleMessage, .checkFailed) ↔
              ¬Tame start s (.clientReadable fd chunks taken))) ∧
      (Lts.Reachable (Lts.Guarded (TameQuiet start) (Lts.ofFun (Traffic.step start)))
          (init start) s →
        ∀ site, s.aborted ≠ some (site, .checkFailed)) := by
  constructor
  · intro h
    have hinv : Sane start s ∧ Unasserted s := by
      refine h.invariant (I := fun t => Sane start t ∧ Unasserted t)
        ⟨sane_init start, by simp [Unasserted, init]⟩ ?_
      intro t event u ⟨hsane, hun⟩ ⟨htame, hs⟩
      exact ⟨hsane.of_step htame hs, hun.of_step hsane htame hs⟩
    exact ⟨hinv.2, fun fd chunks taken s' hs => aborted_iff hinv.1 hs⟩
  · intro h
    have hinv : Sane start s ∧ Attended s := by
      refine h.invariant (I := fun t => Sane start t ∧ Attended t)
        ⟨sane_init start, attended_init start⟩ ?_
      intro t event u ⟨hsane, hatt⟩ ⟨⟨htame, hquiet⟩, hs⟩
      exact ⟨hsane.of_step htame hs, hatt.of_step hsane htame hquiet hs⟩
    exact hinv.2.unaborted

/-- A client's request in two pieces, its answer, and the end of its stream. -/
def visit : List Event :=
  [.connect 200, .send 200 [71, 72], .clientReadable 200 [[71], [72]] 2,
    .backendReads 5 [[71, 72]] [79, 75], .backendReadable 5 [[79, 75]],
    .hangUp 200 true, .clientReadable 200 [] 0]

/-- A whole visit, after which nobody is connected. -/
theorem no_check_fails_visit :
    ∃ s, Lts.Run (Lts.Guarded (TameQuiet sampleStartup) (Lts.ofFun (Traffic.step sampleStartup)))
        (init sampleStartup) visit s ∧ s.pool.live = ∅ ∧
      ∀ site, s.aborted ≠ some (site, .checkFailed) := by
  have hexec : (Lts.exec (Lts.guardedFun (TameQuiet sampleStartup) (Traffic.step sampleStartup))
      (init sampleStartup) visit).map (fun s => s.pool.live) = some ∅ := by decide +kernel
  obtain ⟨s, hs, hlive⟩ := Option.map_eq_some_iff.mp hexec
  have hrun := Lts.run_of_exec_guarded hs
  exact ⟨s, hrun, hlive, (no_check_fails sampleStartup).2 ⟨_, hrun⟩⟩

/-! ## What one client can do -/

/-- The run ends with a `CHECK` of `HandleMessage`. -/
def EndsInCheck (events : List Event) : Prop :=
  ∃ s, Lts.Run (Lts.ofFun (Traffic.step sampleStartup)) (init sampleStartup) events s ∧
    s.aborted = some (.handleMessage, .checkFailed)

theorem endsInCheck_of_exec {events : List Event}
    (h : (Lts.exec (Traffic.step sampleStartup) (init sampleStartup) events).map Traffic.aborted =
      some (some (.handleMessage, .checkFailed))) : EndsInCheck events := by
  obtain ⟨s, hs, haborted⟩ := Option.map_eq_some_iff.mp h
  exact ⟨s, Lts.run_of_exec hs, haborted⟩

/-- A buffer full at once. -/
def burst (bytes : Bytes) : List Event :=
  [.connect 200, .send 200 bytes, .clientReadable 200 [bytes] bytes.length]

theorem endsInCheck_burst {bytes : Bytes} (h : kBufferSize ≤ bytes.length) :
    EndsInCheck (burst bytes) := by
  have hconnect : ((init sampleStartup).step sampleStartup (.connect 200)).map (fun s =>
      decide (200 ∈ s.pool.live ∧ s.peer 200 = .connected ∧ s.fromClient 200 = [] ∧
        s.aborted = none)) = some true := by decide +kernel
  obtain ⟨s, hs, hready⟩ := Option.map_eq_some_iff.mp hconnect
  obtain ⟨hlive, hending, hnothing, hrunning⟩ := of_decide_eq_true hready
  have htameConnect : Tame sampleStartup (init sampleStartup) (.connect 200) := by decide +kernel
  have hsane := (sane_init sampleStartup).of_step htameConnect hs
  obtain ⟨sent, hsent, hbytes⟩ :
      ∃ sent, s.step sampleStartup (.send 200 bytes) = some sent ∧
        sent = { s with fromClient := Function.update s.fromClient 200 bytes } := by
    refine ⟨_, if_pos ⟨hlive, hending⟩, ?_⟩
    rw [hnothing, List.nil_append]
  have hqueue : sent.fromClient 200 = bytes := by
    rw [hbytes]
    exact Function.update_self 200 bytes s.fromClient
  have htameSend : Tame sampleStartup s (.send 200 bytes) := trivial
  have hsaneSent := hsane.of_step htameSend hsent
  have hne : bytes ≠ [] := by
    rintro rfl
    exact absurd h (by decide)
  have hen : sent.aborted = none ∧ 200 ∈ sent.pool.live ∧ [bytes].flatten = sent.fromClient 200 ∧
      (sent.fromClient 200 ≠ [] ∨ sent.ending 200 ≠ .eagain) := by
    rw [hqueue, hbytes]
    exact ⟨hrunning, hlive, List.flatten_singleton, .inl hne⟩
  obtain ⟨read, hread⟩ :
      ∃ read, sent.step sampleStartup (.clientReadable 200 [bytes] bytes.length) = some read := by
    simp only [Traffic.step]
    rw [if_pos hen]
    split <;> exact ⟨_, rfl⟩
  have htame : ¬Tame sampleStartup sent (.clientReadable 200 [bytes] bytes.length) := by
    rintro ⟨hshort, -⟩
    rw [hqueue] at hshort
    exact Nat.not_lt_of_le h hshort
  exact ⟨read, ((Lts.Run.single hs).snoc hsent).snoc hread,
    (aborted_iff hsaneSent hread).mpr htame⟩

/-- A byte, and the end right behind it. -/
def lastWords : List Event :=
  [.connect 200, .send 200 [65], .hangUp 200 true, .clientReadable 200 [[65]] 1]

/-- A request that fills a backend's buffer, which closes its connection. -/
def fullBackend : List Event :=
  [.connect 200, .send 200 (List.replicate 1024 65),
    .clientReadable 200 [List.replicate 1024 65] 1024,
    .backendReads 5 [List.replicate 1024 65] [79, 75], .backendReadable 5 [[79, 75]]]

/-- **One client can end the router**, in three ways: the first two fail the
`CHECK` on `total_count`, as does the end behind the answer to the third. -/
theorem not_unasserted :
    EndsInCheck (burst (List.replicate 4096 65)) ∧ EndsInCheck lastWords ∧
      EndsInCheck fullBackend := by
  refine ⟨endsInCheck_burst List.length_replicate.ge, endsInCheck_of_exec ?_,
    endsInCheck_of_exec ?_⟩
  · decide +kernel
  · decide +kernel

end Traffic
end Router
end Rinha
