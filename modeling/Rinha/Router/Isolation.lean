import Rinha.Router.Exhaustion
import Rinha.Router.HandleMessage
/-!
# Whose answers a client gets

A unix connection goes back to the pool when its client closes, whatever
is still under way on it. Where nothing ever is, every byte a client gets
answers a request of its own connection, and what is under way belongs to
a connected client; where moreover clients only close when they have their
answers, no answer that arrives ends the process, or has a client reset the
connection, which would end it later (`isolation_of_guarded`). Otherwise
the answer to a client that has gone ends the process in one of three ways,
or is written to the client that has its connection now
(`not_isolated_early_close`).
-/

namespace Rinha
namespace Router

variable {start : Startup} {g : History} {s s' : Network} {fd unixFd dst c : ℕ}

/-- The first request of a stream is its beginning, and not empty. -/
theorem nextRequest_eq_some {bytes request rest : List Sent}
    (h : nextRequest bytes = some (request, rest)) : bytes = request ++ rest ∧ request ≠ [] := by
  induction bytes generalizing request with
  | nil => cases h
  | cons byte bytes ih =>
      simp only [nextRequest] at h
      split at h
      · obtain ⟨rfl, rfl⟩ := Prod.mk.inj (Option.some.inj h)
        exact ⟨rfl, List.cons_ne_nil _ _⟩
      · obtain ⟨⟨request', rest'⟩, hnext, heq⟩ := Option.map_eq_some_iff.mp h
        obtain ⟨rfl, rfl⟩ := Prod.mk.inj heq
        obtain ⟨rfl, -⟩ := ih hnext
        exact ⟨rfl, List.cons_ne_nil _ _⟩

/-! ## Queues -/

section

variable {β : Type} {queues : ℕ → List β} {at' other : ℕ} {bytes : List β} {x : β}

/-- What is in a queue after one of them has grown. -/
theorem mem_update_append
    (h : x ∈ Function.update queues at' (queues at' ++ bytes) other) :
    x ∈ queues other ∨ (other = at' ∧ x ∈ bytes) := by
  rcases eq_or_ne other at' with rfl | hne
  · rw [Function.update_self, List.mem_append] at h
    exact h.imp_right fun hx => ⟨rfl, hx⟩
  · rw [Function.update_of_ne hne] at h
    exact .inl h

/-- What is in a queue after one of them has lost something. -/
theorem mem_update_of_subset (hsub : bytes ⊆ queues at')
    (h : x ∈ Function.update queues at' bytes other) : x ∈ queues other := by
  rcases eq_or_ne other at' with rfl | hne
  · rw [Function.update_self] at h
    exact hsub h
  · rwa [Function.update_of_ne hne] at h

end

/-! ## Who is at the other end -/

/-- The unix connection is paired with a connected client, whose
connection is `c`. -/
def Network.Serves (s : Network) (unixFd c : ℕ) : Prop :=
  ∃ fd ∈ s.pool.live, s.pool.tables.unixToTcp unixFd = some fd ∧ s.conn fd = c

/-- A connected client's bytes go to the connection it is paired with. -/
theorem Orderly.dstFd_client (h : Orderly start g s.pool) (hfd : fd ∈ s.pool.live)
    (hdst : s.pool.tables.dstFd fd = .ok dst) :
    s.pool.tables.tcpToUnix fd = some dst ∧ s.Serves dst (s.conn fd) := by
  obtain ⟨unixFd, htcp, hunix⟩ := h.pair_of_live hfd
  simp only [Tables.dstFd, htcp] at hdst
  obtain rfl := Except.ok.inj hdst
  exact ⟨htcp, fd, hfd, hunix, rfl⟩

/-- The other clients keep their connections when one is accepted, -/
theorem Orderly.tcpToUnix_accept {infd : ℕ} {p p' : State} (h : Orderly start g p)
    (htime : InTime start p (.accept infd)) (hstep : step start p (.accept infd) p')
    (hne : fd ≠ infd) : p'.tables.tcpToUnix fd = p.tables.tcpToUnix fd := by
  obtain ⟨⟨hlive, hunix⟩, hok⟩ := hstep
  have hlt := h.popped_lt htime hok
  obtain ⟨t, ht, rfl⟩ := perform_accept_eq_ok.mp hok
  obtain ⟨⟨_, _, rfl, -⟩, -⟩ := h.accept hlive hunix hlt ht
  exact Function.update_of_ne hne ..

/-- and when one is erased. -/
theorem tcpToUnix_close {other : ℕ} {p p' : State} (hok : perform p (.close other) = .ok p')
    (hne : fd ≠ other) : p'.tables.tcpToUnix fd = p.tables.tcpToUnix fd := by
  obtain ⟨t, ht, rfl⟩ := perform_close_eq_ok.mp hok
  obtain ⟨_, _, -, -, rfl⟩ := eraseFromMaps_eq_ok ht
  exact Function.update_of_ne hne ..

/-! ## The invariant -/

/-- Every byte is where its connection put it, or answers what is there. -/
structure Isolated (start : Startup) (s : Network) : Prop where
  orderly : ∃ g, Orderly start g s.pool
  fromClient : ∀ fd ∈ s.pool.live, ∀ byte ∈ s.fromClient fd, byte.conn = s.conn fd
  atBackend : ∀ unixFd, ∀ byte ∈ s.atBackend unixFd, s.Serves unixFd byte.conn
  fromBackend : ∀ unixFd, ∀ reply ∈ s.fromBackend unixFd,
    reply.request ≠ [] ∧ ∀ byte ∈ reply.request, s.Serves unixFd byte.conn
  delivered : ∀ c reply, (c, reply) ∈ s.delivered →
    reply.request ≠ [] ∧ ∀ byte ∈ reply.request, byte.conn = c

theorem isolated_init (start : Startup) : Isolated start (.init start) where
  orderly := ⟨_, orderly_init start⟩
  fromClient := fun _ _ _ h => absurd h List.not_mem_nil
  atBackend := fun _ _ h => absurd h List.not_mem_nil
  fromBackend := fun _ _ h => absurd h List.not_mem_nil
  delivered := fun _ _ h => absurd h List.not_mem_nil

/-- The end of the process leaves everything where it is. -/
theorem Isolated.of_aborted (h : Isolated start s) (aborted : Option Fault) :
    Isolated start { s with aborted := aborted } :=
  ⟨h.orderly, h.fromClient, h.atBackend, h.fromBackend, h.delivered⟩

/-- Nobody new is at the other end of a connection that serves a client. -/
theorem Orderly.serves_addClient {infd : ℕ} {pool : State} (h : Orderly start g s.pool)
    (htime : InTime start s.pool (.accept infd)) (hlive : infd ∉ s.pool.live)
    (hunix : ¬start.IsUnix infd) (hok : perform s.pool (.accept infd) = .ok pool)
    (hserves : s.Serves unixFd c) : (s.addClient infd pool).Serves unixFd c := by
  obtain ⟨fd, hfd, hpair, rfl⟩ := hserves
  obtain ⟨hne, hfd', hpair'⟩ := h.paired_accept htime ⟨⟨hlive, hunix⟩, hok⟩ hfd hpair
  exact ⟨fd, hfd', hpair', Function.update_of_ne hne ..⟩

/-- A client that goes takes only its own connection with it. -/
theorem Orderly.serves_close {pool : State} (h : Orderly start g s.pool)
    (htcp : s.pool.tables.tcpToUnix fd = some dst) (hok : perform s.pool (.close fd) = .ok pool)
    (hne : unixFd ≠ dst) (hserves : s.Serves unixFd c) :
    ({ s.forward fd dst [] with pool := pool } : Network).Serves unixFd c := by
  obtain ⟨other, hother, hpair, rfl⟩ := hserves
  obtain ⟨hother', hpair'⟩ := h.paired_close htcp hok hne hother hpair
  exact ⟨other, hother', hpair', rfl⟩

/-- A client that connects. -/
theorem Isolated.addClient {infd : ℕ} {pool : State} (h : Isolated start s)
    (htime : InTime start s.pool (.accept infd)) (hlive : infd ∉ s.pool.live)
    (hunix : ¬start.IsUnix infd) (hok : perform s.pool (.accept infd) = .ok pool) :
    Isolated start (s.addClient infd pool) := by
  obtain ⟨g, hord⟩ := h.orderly
  have hserves : ∀ {unixFd c}, s.Serves unixFd c → (s.addClient infd pool).Serves unixFd c :=
    hord.serves_addClient htime hlive hunix hok
  have hstep : step start s.pool (.accept infd) pool := ⟨⟨hlive, hunix⟩, hok⟩
  refine ⟨hord.of_step htime hstep, ?_, ?_, ?_, h.delivered⟩
  · intro fd hfd byte hbyte
    obtain ⟨t, -, rfl⟩ := perform_accept_eq_ok.mp hok
    rcases eq_or_ne fd infd with rfl | hne
    · simp [Network.addClient] at hbyte
    · have hold : fd ∈ s.pool.live := (Finset.mem_insert.mp hfd).resolve_left hne
      simp only [Network.addClient, Function.update_of_ne hne] at hbyte ⊢
      exact h.fromClient fd hold byte hbyte
  · exact fun u byte hbyte => hserves (h.atBackend u byte hbyte)
  · intro u reply hreply
    obtain ⟨hne, hall⟩ := h.fromBackend u reply hreply
    exact ⟨hne, fun byte hbyte => hserves (hall byte hbyte)⟩

/-- Bytes a client sent go to the backend its connection leads to. -/
theorem Isolated.forward {bytes : List Sent} (h : Isolated start s) (hfd : fd ∈ s.pool.live)
    (hdst : s.pool.tables.dstFd fd = .ok dst) (hsub : bytes ⊆ s.fromClient fd) :
    Isolated start (s.forward fd dst bytes) := by
  obtain ⟨g, hord⟩ := h.orderly
  refine ⟨⟨g, hord⟩, ?_, ?_, h.fromBackend, h.delivered⟩
  · intro other hother byte hbyte
    exact h.fromClient other hother byte (mem_update_of_subset (List.drop_subset _ _) hbyte)
  · intro u byte hbyte
    rcases mem_update_append hbyte with hold | ⟨rfl, hnew⟩
    · exact h.atBackend u byte hold
    · rw [h.fromClient fd hfd byte (hsub hnew)]
      exact (hord.dstFd_client hfd hdst).2

/-- A backend answers what came in on the same connection. -/
theorem Isolated.answer {bytes : List UInt8} {request rest : List Sent} (h : Isolated start s)
    (hreq : nextRequest (s.atBackend unixFd) = some (request, rest)) :
    Isolated start { s with
      atBackend := Function.update s.atBackend unixFd rest
      fromBackend := Function.update s.fromBackend unixFd
        (s.fromBackend unixFd ++ bytes.map fun value => ⟨request, value⟩) } := by
  obtain ⟨hsplit, hne⟩ := nextRequest_eq_some hreq
  refine ⟨h.orderly, h.fromClient, ?_, ?_, h.delivered⟩
  · intro u byte hbyte
    refine h.atBackend u byte (mem_update_of_subset ?_ hbyte)
    rw [hsplit]
    exact List.subset_append_right _ _
  · intro u reply hreply
    rcases mem_update_append hreply with hold | ⟨rfl, hnew⟩
    · exact h.fromBackend u reply hold
    · obtain ⟨value, -, rfl⟩ := List.mem_map.mp hnew
      refine ⟨hne, fun byte hbyte => h.atBackend u byte ?_⟩
      rw [hsplit]
      exact List.mem_append_left _ hbyte

/-- Answers go to the client whose requests they answer. -/
theorem Isolated.deliver {replies : List Reply} (h : Isolated start s)
    (hdst : s.pool.tables.dstFd unixFd = .ok dst) (hsub : replies ⊆ s.fromBackend unixFd) :
    Isolated start (s.deliver unixFd dst replies) := by
  obtain ⟨g, hord⟩ := h.orderly
  refine ⟨⟨g, hord⟩, h.fromClient, h.atBackend, ?_, ?_⟩
  · intro u reply hreply
    exact h.fromBackend u reply (mem_update_of_subset (List.drop_subset _ _) hreply)
  · intro c reply hmem
    rcases List.mem_append.mp hmem with hmem | hmem
    · exact h.delivered c reply hmem
    · split at hmem
      · exact absurd hmem List.not_mem_nil
      obtain ⟨_, hreply, heq⟩ := List.mem_map.mp hmem
      obtain ⟨rfl, rfl⟩ := Prod.mk.inj heq
      obtain ⟨hne, hall⟩ := h.fromBackend unixFd _ (hsub hreply)
      refine ⟨hne, fun byte hbyte => ?_⟩
      -- the client these bytes came from is the one the table leads to
      obtain ⟨fd, hfd, hpair, hconn⟩ := hall byte hbyte
      obtain rfl : fd = dst := Except.ok.inj ((hord.dstFd_unix hpair).symm.trans hdst)
      exact hconn.symm

/-- A client whose connection has nothing under way closes. -/
theorem Isolated.close {pool : State} (h : Isolated start s) (hfd : fd ∈ s.pool.live)
    (hdst : s.pool.tables.dstFd fd = .ok dst) (hok : perform s.pool (.close fd) = .ok pool)
    (hquiet : s.atBackend dst = [] ∧ s.fromBackend dst = []) :
    Isolated start { s.forward fd dst [] with pool := pool } := by
  have hsame := h.forward hfd hdst (List.nil_subset _)
  obtain ⟨g, hord⟩ := h.orderly
  obtain ⟨htcp, -⟩ := hord.dstFd_client hfd hdst
  have hserves : ∀ {unixFd c}, unixFd ≠ dst → s.Serves unixFd c →
      ({ s.forward fd dst [] with pool := pool } : Network).Serves unixFd c :=
    fun hne => hord.serves_close htcp hok hne
  have hatBackend : (s.forward fd dst []).atBackend = s.atBackend := by
    simp [Network.forward]
  have htime : InTime start s.pool (.close fd) := trivial
  refine ⟨hord.of_step htime ⟨hfd, hok⟩, ?_, ?_, ?_, h.delivered⟩
  · intro other hother byte hbyte
    obtain ⟨t, -, rfl⟩ := perform_close_eq_ok.mp hok
    exact hsame.fromClient other (Finset.mem_of_mem_erase hother) byte hbyte
  · intro u byte hbyte
    -- nothing is under way on the connection that goes back, so every byte is on another
    have hold : byte ∈ s.atBackend u := hatBackend ▸ hbyte
    refine hserves ?_ (h.atBackend u byte hold)
    rintro rfl
    rw [hquiet.1] at hold
    exact List.not_mem_nil hold
  · intro u reply hreply
    have hold : reply ∈ s.fromBackend u := hreply
    obtain ⟨hne, hall⟩ := h.fromBackend u reply hold
    refine ⟨hne, fun byte hbyte => hserves ?_ (hall byte hbyte)⟩
    rintro rfl
    rw [hquiet.2] at hold
    exact List.not_mem_nil hold

/-- **One step.** Settled steps keep every byte where it belongs. -/
theorem Isolated.of_step {event : Event} (h : Isolated start s) (hset : Settled start s event)
    (hstep : s.step start event = some s') : Isolated start s' := by
  cases Network.stepped_of_step hstep with
  | failed _ fault => exact h.of_aborted _
  | connected infd pool hlive hunix hok => exact h.addClient hset hlive hunix hok
  | sent fd bytes hlive =>
      refine ⟨h.orderly, ?_, h.atBackend, h.fromBackend, h.delivered⟩
      intro other hother byte hbyte
      rcases mem_update_append hbyte with hold | ⟨rfl, hnew⟩
      · exact h.fromClient other hother byte hold
      · obtain ⟨_, -, rfl⟩ := List.mem_map.mp hnew
        rfl
  | received | finished | hungUp | arrived =>
      exact ⟨h.orderly, h.fromClient, h.atBackend, h.fromBackend, h.delivered⟩
  | answered unixFd bytes request rest hreq => exact h.answer hreq
  | forwarded fd taken dst bytes aborted _ hlive hdst hsub =>
      exact (h.forward hlive hdst hsub).of_aborted aborted
  | closed fd taken dst pool hlive hdst hend hnil hok =>
      obtain ⟨g, hord⟩ := h.orderly
      exact h.close hlive hdst hok (hset hend hnil dst (hord.dstFd_client hlive hdst).1)
  | delivered unixFd taken dst replies aborted _ hne hdst hsub =>
      exact (h.deliver hdst hsub).of_aborted aborted

/-- **Every run** of settled steps, whenever the clients close. -/
theorem isolated_of_guarded
    (h : Lts.Reachable (Lts.Guarded (Settled start) (Lts.ofFun (Network.step start))) (.init start)
      s) : Isolated start s :=
  h.invariant (isolated_init start) fun ht ⟨hset, hs⟩ => ht.of_step hset hs

/-! ## Clients that have gone -/

/-- The client has closed, having read what it was sent: nothing is under way
to or from it, and nothing has been written to it since. -/
structure Network.Gone (s : Network) (fd : ℕ) : Prop where
  unread : s.unread fd = []
  undoomed : s.peer fd ≠ .doomed
  quiet : s.aborted = none → s.Quiet fd

/-- A connected client reads, or has gone. -/
def Attended (s : Network) : Prop := ∀ fd ∈ s.pool.live, (s.peer fd).Reads ∨ s.Gone fd

theorem attended_init (start : Startup) : Attended (.init start) :=
  fun _ h => absurd h (Finset.notMem_empty _)

/-- Steps of others leave a client that has gone as it is. -/
theorem attended_of_same (h : (s.peer fd).Reads ∨ s.Gone fd) (hpeer : s'.peer fd = s.peer fd)
    (hunread : s.unread fd = [] → s'.unread fd = [])
    (hquiet : s'.aborted = none → s.aborted = none ∧ (s.Quiet fd → s'.Quiet fd)) :
    (s'.peer fd).Reads ∨ s'.Gone fd := by
  rw [hpeer]
  refine h.imp_right fun hgone => ⟨hunread hgone.unread, hpeer ▸ hgone.undoomed, fun hnone => ?_⟩
  obtain ⟨hrunning, hkeeps⟩ := hquiet hnone
  exact hkeeps (hgone.quiet hrunning)

/-- What arrives from a backend is for a client that reads it. -/
theorem Isolated.reads_of_attended (h : Isolated start s) (ha : Attended s)
    (hrunning : s.aborted = none) (hne : s.fromBackend unixFd ≠ [])
    (hdst : s.pool.tables.dstFd unixFd = .ok dst) : (s.peer dst).Reads := by
  obtain ⟨g, hord⟩ := h.orderly
  obtain ⟨reply, hreply⟩ := List.exists_mem_of_ne_nil _ hne
  obtain ⟨hreq, hall⟩ := h.fromBackend unixFd reply hreply
  obtain ⟨byte, hbyte⟩ := List.exists_mem_of_ne_nil _ hreq
  obtain ⟨fd, hfd, hpair, -⟩ := hall byte hbyte
  obtain rfl : fd = dst := Except.ok.inj ((hord.dstFd_unix hpair).symm.trans hdst)
  refine (ha fd hfd).resolve_right fun hgone => ?_
  exact hne (hgone.quiet hrunning unixFd ((hord.inverse fd unixFd).mp hpair)).2

/-- A client that reads what it is sent makes nothing of it. -/
theorem Peer.written_of_reads {peer : Peer} (h : peer.Reads) : peer.written = peer := by
  rcases h with rfl | rfl <;> rfl

theorem Peer.ne_broken_of_reads {peer : Peer} (h : peer.Reads) : peer ≠ .broken := by
  rcases h with rfl | rfl <;> decide

/-- One client's end turns, and nobody else's. -/
theorem Attended.turn {peer : Peer} (ha : Attended s)
    (hturn : fd ∈ s.pool.live → peer.Reads ∨
      s.unread fd = [] ∧ peer ≠ .doomed ∧ (s.aborted = none → s.Quiet fd)) :
    Attended { s with peer := Function.update s.peer fd peer } := by
  intro other hother
  by_cases hne : other = fd
  · subst hne
    rcases hturn hother with hreads | ⟨hunread, hdoomed, hquiet⟩
    · refine .inl ?_
      simpa only [Function.update_self] using hreads
    · refine .inr ⟨hunread, ?_, hquiet⟩
      simpa only [Function.update_self] using hdoomed
  · exact attended_of_same (ha other hother) (Function.update_of_ne hne ..) id
      fun hrunning => ⟨hrunning, id⟩

/-- One that connects reads. -/
theorem Attended.addClient {infd : ℕ} {pool : State} (ha : Attended s)
    (hord : Orderly start g s.pool) (htime : InTime start s.pool (.accept infd))
    (hstep : step start s.pool (.accept infd) pool) : Attended (s.addClient infd pool) := by
  obtain ⟨t, -, rfl⟩ := perform_accept_eq_ok.mp hstep.2
  intro fd hfd
  by_cases hne : fd = infd
  · exact .inl (.inl (hne ▸ Function.update_self ..))
  · refine attended_of_same (ha fd ((Finset.mem_insert.mp hfd).resolve_left hne))
      (Function.update_of_ne hne ..) (fun hnil => (Function.update_of_ne hne ..).trans hnil)
      fun hrunning => ⟨hrunning, fun hquiet unixFd htcp => hquiet unixFd ?_⟩
    rwa [← hord.tcpToUnix_accept htime hstep hne]

/-- A client reads what it was sent. -/
theorem Attended.receive (ha : Attended s) :
    Attended { s with unread := Function.update s.unread fd [] } := by
  intro other hother
  refine attended_of_same (ha other hother) rfl (fun hnil => ?_) fun hrunning => ⟨hrunning, id⟩
  by_cases hne : other = fd
  · exact hne ▸ Function.update_self ..
  · exact (Function.update_of_ne hne ..).trans hnil

/-- A backend answers what it has got, and it has nothing of a client that
has gone. -/
theorem Attended.answer {bytes : List UInt8} {request rest : List Sent} (ha : Attended s)
    (hreq : nextRequest (s.atBackend unixFd) = some (request, rest)) :
    Attended { s with
      atBackend := Function.update s.atBackend unixFd rest
      fromBackend := Function.update s.fromBackend unixFd
        (s.fromBackend unixFd ++ bytes.map fun value => ⟨request, value⟩) } := by
  intro fd hfd
  refine attended_of_same (ha fd hfd) rfl id fun hrunning => ⟨hrunning, fun hquiet u hu => ?_⟩
  have hne : u ≠ unixFd := by
    rintro rfl
    rw [(hquiet u hu).1] at hreq
    cases hreq
  simpa only [Function.update_of_ne hne] using hquiet u hu

/-- What a client sends goes on to its own connection. -/
theorem Attended.forward {bytes : List Sent} {aborted : Option Fault} (ha : Attended s)
    (hord : Orderly start g s.pool) (hrunning : s.aborted = none) (hlive : fd ∈ s.pool.live)
    (hdst : s.pool.tables.dstFd fd = .ok dst)
    (hagain : s.peer fd = .connected ∨ aborted ≠ none) :
    Attended { s.forward fd dst bytes with aborted := aborted } := by
  intro other hother
  by_cases hne : other = fd
  · subst hne
    rcases hagain with hconnected | hfault
    · exact .inl (.inl hconnected)
    · exact attended_of_same (ha other hother) rfl id fun hnone => absurd hnone hfault
  · refine attended_of_same (ha other hother) rfl id fun _ => ⟨hrunning, fun hquiet u hu => ?_⟩
    have hu' : u ≠ dst := by
      rintro rfl
      exact hne (hord.sound.held_inj hu (hord.dstFd_client hlive hdst).1)
    simpa only [Network.forward, Function.update_of_ne hu'] using hquiet u hu

/-- The others stay as they are when one is erased. -/
theorem Attended.close {pool : State} (ha : Attended s)
    (hok : perform s.pool (.close fd) = .ok pool) :
    Attended { s.forward fd dst [] with pool := pool } := by
  obtain ⟨t, ht, rfl⟩ := perform_close_eq_ok.mp hok
  intro other hother
  have hne := Finset.ne_of_mem_erase hother
  refine attended_of_same (ha other (Finset.mem_of_mem_erase hother)) rfl id
    fun hrunning => ⟨hrunning, fun hquiet u hu => ?_⟩
  rw [tcpToUnix_close hok hne] at hu
  simpa [Network.forward] using hquiet u hu

/-- Answers go to a client that reads them. -/
theorem Attended.deliver {replies : List Reply} {aborted : Option Fault} (ha : Attended s)
    (hrunning : s.aborted = none) (hne : s.fromBackend unixFd ≠ []) (hreads : (s.peer dst).Reads) :
    Attended { s.deliver unixFd dst replies with aborted := aborted } := by
  intro fd hfd
  by_cases hfd' : fd = dst
  · subst hfd'
    refine .inl ?_
    change (Function.update s.peer fd (s.peer fd).written fd).Reads
    rwa [Function.update_self, Peer.written_of_reads hreads]
  · refine attended_of_same (ha fd hfd) (Function.update_of_ne hfd' ..) (fun hnil => ?_)
      fun _ => ⟨hrunning, fun hquiet u hu => ⟨(hquiet u hu).1, ?_⟩⟩
    · change (if (s.peer dst).Reads then
        Function.update s.unread dst (s.unread dst ++ replies) else s.unread) fd = []
      rw [if_pos hreads, Function.update_of_ne hfd', hnil]
    · have hempty := (hquiet u hu).2
      have hu' : u ≠ unixFd := by
        rintro rfl
        exact hne hempty
      exact (Function.update_of_ne hu' ..).trans hempty

/-- **One step.** Clients that leave when they are served stay so. -/
theorem Attended.of_step {event : Event} (ha : Attended s) (h : Isolated start s)
    (hguard : Awaited start s event) (hstep : s.step start event = some s') : Attended s' := by
  obtain ⟨g, hord⟩ := h.orderly
  obtain ⟨hset, hserved⟩ := hguard
  cases Network.stepped_of_step hstep with
  | failed event fault =>
      exact fun fd hfd => attended_of_same (ha fd hfd) rfl id
        fun hnone => absurd hnone (Option.some_ne_none _)
  | connected infd pool hlive hunix hok => exact ha.addClient hord hset ⟨⟨hlive, hunix⟩, hok⟩
  | sent fd bytes hlive =>
      exact fun other hother => attended_of_same (ha other hother) rfl id
        fun hrunning => ⟨hrunning, id⟩
  | received fd => exact ha.receive
  | finished fd hpeer => exact ha.turn fun _ => .inl (.inr rfl)
  | hungUp fd orderly peer hpeer =>
      exact ha.turn fun _ => .inr ⟨hserved.2, hpeer, fun _ => hserved.1⟩
  | arrived fd hpeer =>
      -- no reset is on its way to a client that reads, or has gone
      refine ha.turn fun hlive => absurd hpeer ?_
      rcases ha fd hlive with hreads | hgone
      · intro hdoomed
        rw [hdoomed] at hreads
        exact absurd hreads (by decide)
      · exact hgone.undoomed
  | answered unixFd bytes request rest hreq => exact ha.answer hreq
  | forwarded fd taken dst bytes aborted hrunning hlive hdst hsub hagain =>
      exact ha.forward hord hrunning hlive hdst hagain
  | closed fd taken dst pool hlive hdst hend hnil hok => exact ha.close hok
  | delivered unixFd taken dst replies aborted hrunning hne hdst hsub =>
      exact ha.deliver hrunning hne (h.reads_of_attended ha hrunning hne hdst)

/-- Answers for a client that reads them find it. -/
theorem Isolated.backendReadable {taken : ℕ} (h : Isolated start s) (ha : Attended s)
    (hlen : (s.fromBackend unixFd).length < kBufferSize)
    (hstep : s.step start (.backendReadable unixFd taken) = some s') :
    s'.aborted = none ∧ s'.peer = s.peer := by
  obtain ⟨g, hord⟩ := h.orderly
  simp only [Network.step] at hstep
  split at hstep
  · rename_i hen
    obtain ⟨hrunning, hne⟩ := hen
    obtain ⟨reply, hreply⟩ := List.exists_mem_of_ne_nil _ hne
    obtain ⟨hreq, hall⟩ := h.fromBackend unixFd reply hreply
    obtain ⟨byte, hbyte⟩ := List.exists_mem_of_ne_nil _ hreq
    obtain ⟨fd, -, hpair, -⟩ := hall byte hbyte
    have hdst := hord.dstFd_unix hpair
    have hreads := h.reads_of_attended ha hrunning hne hdst
    have hflat : [s.fromBackend unixFd].flatten.length < kBufferSize := by
      rwa [List.flatten_singleton]
    rw [hdst, handleMessage_again hflat] at hstep
    obtain rfl := Option.some.inj hstep
    have hwritten : ∀ replies, (s.deliver unixFd fd replies).aborted = none := fun replies =>
      (if_neg (Peer.ne_broken_of_reads hreads)).trans hrunning
    rw [Network.handled_ok (hwritten _)]
    refine ⟨hwritten _, ?_⟩
    change Function.update s.peer fd (s.peer fd).written = s.peer
    rw [Peer.written_of_reads hreads, Function.update_eq_self]
  · cases hstep

/-- Two clients, a request of each, and the answer to the first, which goes
when it has read it. -/
def exchange : List Event :=
  [.connect 200, .connect 201, .send 200 [(71, true)], .send 201 [(72, true)],
    .clientReadable 200 1, .clientReadable 201 1, .answer 5 [73], .backendReadable 5 1,
    .receive 200, .hangUp 200 true]

/-- **What is under way when a client is erased has nowhere to go**: until
its connection is paired again, whatever arrives on it fails the `CHECK`
on `dst_fd`. -/
theorem Isolated.dstFd_of_close {pool : State} (h : Isolated start s)
    (htcp : s.pool.tables.tcpToUnix fd = some unixFd)
    (hok : perform s.pool (.close fd) = .ok pool) :
    pool.tables.dstFd unixFd = .error .checkFailed := by
  obtain ⟨g, hord⟩ := h.orderly
  have hown := hord.sound.owned_of_held htcp
  obtain ⟨t, ht, rfl⟩ := perform_close_eq_ok.mp hok
  obtain ⟨⟨ring, rfl⟩, hord'⟩ := hord.close htcp ht
  have hnot : (s.pool.tables.unpair (s.pool.tables.side unixFd) ring fd unixFd).tcpToUnix unixFd =
      none :=
    Option.eq_none_iff_forall_ne_some.mpr fun other hother =>
      hord'.not_unix (hord'.live_iff.mpr ⟨other, hother⟩) hown
  simp only [Tables.dstFd, hnot]
  simp [Tables.unpair]

end Router
end Rinha
