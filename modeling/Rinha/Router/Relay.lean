import Rinha.Router.Isolation
/-!
# The router between a client and its backend

Where the sockets take what they are written and nothing is under way when
a client goes, the router is not there: what a client sends is what its
backend gets, in order and once, and what the backend answers is what the
client gets (`relayed_of_guarded`). What has not arrived is on the two
sockets of the pair, and nothing is left of a client that has gone.
-/

namespace Rinha
namespace Router

/-! ## What the two ends see -/

/-- The network, with what has gone in at one end and what has come out at
the other, by the connection of the client: the bytes it sent, those a
backend has taken as requests, and the bytes of the answers. -/
structure Observed where
  network : Network
  sent : ℕ → List Sent
  served : ℕ → List Sent
  answers : ℕ → List Reply

namespace Observed

def init (start : Startup) : Observed :=
  ⟨.init start, fun _ => [], fun _ => [], fun _ => []⟩

/-- The connection a request came in on. -/
def connOf (request : List Sent) : ℕ := request.head?.elim 0 Sent.conn

/-- What a step of the network adds. -/
def note (o : Observed) (network : Network) : Event → Observed
  | .send fd bytes =>
      let c := o.network.conn fd
      { o with
        network := network
        sent := Function.update o.sent c
          (o.sent c ++ bytes.map fun (value, last) => ⟨c, value, last⟩) }
  | .answer unixFd bytes =>
      match nextRequest (o.network.atBackend unixFd) with
      | none => { o with network := network }
      | some (request, _) =>
          let c := connOf request
          { o with
            network := network
            served := Function.update o.served c (o.served c ++ request)
            answers := Function.update o.answers c
              (o.answers c ++ bytes.map fun value => ⟨request, value⟩) }
  | .connect _ | .receive _ | .finish _ | .hangUp _ _ | .reset _ | .epollError _
  | .clientReadable _ _ | .backendReadable _ _ => { o with network := network }

def step (start : Startup) (o : Observed) (event : Event) : Option Observed :=
  (o.network.step start event).map fun network => o.note network event

/-- The sockets take what they are written, which is less than a buffer
full, and no client's stream is broken off behind bytes to be read. -/
def Taken (s : Network) : Event → Prop
  | .clientReadable fd taken =>
      (s.fromClient fd).length ≤ taken ∧ (s.fromClient fd).length < kBufferSize ∧
        ((s.peer fd).ending = .error → s.fromClient fd = [])
  | .backendReadable unixFd taken =>
      (s.fromBackend unixFd).length ≤ taken ∧ (s.fromBackend unixFd).length < kBufferSize ∧
        ∀ dst ∈ (s.pool.tables.dstFd unixFd).toOption, ¬(s.peer dst).IsReset
  | .connect _ | .send _ _ | .receive _ | .finish _ | .hangUp _ _ | .reset _ | .epollError _
  | .answer _ _ => True

instance (s : Network) (event : Event) : Decidable (Taken s event) :=
  match event with
  | .clientReadable _ _ => inferInstanceAs (Decidable (_ ∧ _ ∧ (_ → _)))
  | .backendReadable _ _ => inferInstanceAs (Decidable (_ ∧ _ ∧ ∀ dst ∈ _, ¬_))
  | .connect _ | .send _ _ | .receive _ | .finish _ | .hangUp _ _ | .reset _ | .epollError _
  | .answer _ _ => inferInstanceAs (Decidable True)

/-- Settled, and the sockets take what they are written. -/
def Lossless (start : Startup) (o : Observed) (event : Event) : Prop :=
  Settled start o.network event ∧ Taken o.network event

instance (start : Startup) (o : Observed) (event : Event) : Decidable (Lossless start o event) :=
  inferInstanceAs (Decidable (_ ∧ _))

/-- What the client of a connection has been sent. -/
def deliveredTo (s : Network) (c : ℕ) : List Reply :=
  (s.delivered.filter fun entry => entry.1 = c).map Prod.snd

end Observed

open Observed

variable {start : Startup} {g : History} {o o' : Observed} {s s' : Network}
variable {fd dst unixFd taken c : ℕ}

/-! ## The reads of the router -/

/-- **A client's bytes all go on**, or its stream has ended with nothing
left of it. -/
theorem clientReadable_lossless (htaken : (s.fromClient fd).length ≤ taken)
    (hlen : (s.fromClient fd).length < kBufferSize)
    (hwhole : (s.peer fd).ending = .error → s.fromClient fd = [])
    (h : s.step start (.clientReadable fd taken) = some s') :
    (∃ fault, s' = { s with aborted := some fault }) ∨
    ∃ dst, fd ∈ s.pool.live ∧ s.pool.tables.dstFd fd = .ok dst ∧
      ((∃ aborted, s' = { s.forward fd dst (s.fromClient fd) with aborted := aborted }) ∨
        ∃ pool, (s.peer fd).ending = .endOfFile ∧ s.fromClient fd = [] ∧
          perform s.pool (.close fd) = .ok pool ∧
          s' = { s.forward fd dst [] with pool := pool }) := by
  have hflat : [s.fromClient fd].flatten = s.fromClient fd := List.flatten_singleton
  simp only [Network.step] at h
  split at h
  · rename_i hen
    split at h
    · obtain rfl := Option.some.inj h
      exact .inl ⟨_, rfl⟩
    · rename_i dst hdst
      refine .inr ⟨dst, hen.2.1, hdst, ?_⟩
      have hrunning : ∀ bytes, (s.forward fd dst bytes).aborted = none := fun _ => hen.1
      cases hend : (s.peer fd).ending with
      | eagain =>
          rw [hend, handleMessage_again (by rwa [hflat]), hflat] at h
          simp only [List.take_of_length_le htaken, Network.handled_ok (hrunning _)] at h
          exact .inl ⟨s.aborted, (Option.some.inj h).symm⟩
      | error =>
          -- the stream broke off, and there was nothing left to read
          have hnil := hwhole hend
          rw [hend, handleMessage_broken (by rwa [hflat])] at h
          simp only [List.take_nil, Network.handled_error (hrunning _)] at h
          refine .inl ⟨some .checkFailed, ?_⟩
          rw [hnil]
          exact (Option.some.inj h).symm
      | endOfFile =>
          rw [hend, handleMessage_endOfFile (by rwa [hflat]), hflat] at h
          simp only [List.take_of_length_le htaken] at h
          obtain rfl := Option.some.inj h
          by_cases hempty : (s.fromClient fd).length = 0
          · have hnil := List.eq_nil_of_length_eq_zero hempty
            rw [if_pos hempty]
            cases herase : s.pool.tables.eraseFromMaps fd with
            | error fault => exact .inl ⟨some fault, Network.handled_error (hrunning _)⟩
            | ok t =>
                refine .inr ⟨⟨t, s.pool.live.erase fd⟩, rfl, hnil, ?_, ?_⟩
                · simp only [perform, herase]
                  rfl
                · rw [hnil]
                  exact Network.handled_ok (hrunning _)
          · rw [if_neg hempty]
            exact .inl ⟨some .checkFailed, Network.handled_error (hrunning _)⟩
  · cases h

/-- **And so do a backend's.** -/
theorem backendReadable_lossless (htaken : (s.fromBackend unixFd).length ≤ taken)
    (hlen : (s.fromBackend unixFd).length < kBufferSize)
    (h : s.step start (.backendReadable unixFd taken) = some s') :
    (∃ fault, s' = { s with aborted := some fault }) ∨
    ∃ dst aborted, s.fromBackend unixFd ≠ [] ∧ s.pool.tables.dstFd unixFd = .ok dst ∧
      s' = { s.deliver unixFd dst (s.fromBackend unixFd) with aborted := aborted } := by
  have hflat : [s.fromBackend unixFd].flatten = s.fromBackend unixFd := List.flatten_singleton
  simp only [Network.step] at h
  split at h
  · rename_i hen
    split at h
    · obtain rfl := Option.some.inj h
      exact .inl ⟨_, rfl⟩
    · rename_i dst hdst
      rw [handleMessage_again (by rwa [hflat]), hflat] at h
      simp only [List.take_of_length_le htaken] at h
      obtain rfl := Option.some.inj h
      obtain ⟨aborted, haborted⟩ :=
        (s.deliver unixFd dst (s.fromBackend unixFd)).handled_cases unixFd (.inr rfl)
      exact .inr ⟨dst, aborted, hen.2, hdst, haborted⟩
  · cases h

/-! ## The invariant -/

/-- For every connection, what went in is what came out and what is on its
way, in this order. -/
structure Relayed (start : Startup) (o : Observed) : Prop where
  isolated : Isolated start o.network
  conn_lt : ∀ fd ∈ o.network.pool.live, o.network.conn fd < o.network.nextConn
  conn_inj : ∀ fd ∈ o.network.pool.live, ∀ other ∈ o.network.pool.live,
    o.network.conn fd = o.network.conn other → fd = other
  live : ∀ fd ∈ o.network.pool.live, ∀ unixFd, o.network.pool.tables.tcpToUnix fd = some unixFd →
    o.sent (o.network.conn fd) = o.served (o.network.conn fd) ++ o.network.atBackend unixFd ++
        o.network.fromClient fd ∧
      o.answers (o.network.conn fd) =
        deliveredTo o.network (o.network.conn fd) ++ o.network.fromBackend unixFd
  gone : ∀ c, (∀ fd ∈ o.network.pool.live, o.network.conn fd ≠ c) →
    o.sent c = o.served c ∧ o.answers c = deliveredTo o.network c

theorem relayed_init (start : Startup) : Relayed start (.init start) where
  isolated := isolated_init start
  conn_lt _ h := absurd h (Finset.notMem_empty _)
  conn_inj _ h := absurd h (Finset.notMem_empty _)
  live _ h := absurd h (Finset.notMem_empty _)
  gone _ _ := ⟨rfl, rfl⟩

/-- The end of the process leaves everything where it is. -/
theorem Relayed.of_aborted (h : Relayed start o) (aborted : Option Fault) :
    Relayed start { o with network := { o.network with aborted := aborted } } :=
  ⟨h.isolated.of_aborted aborted, h.conn_lt, h.conn_inj, h.live, h.gone⟩

/-- Nothing is under way on a connection that has no client. -/
theorem Isolated.nil_of_unpaired (h : Isolated start s)
    (hunpaired : s.pool.tables.unixToTcp unixFd = none) :
    s.atBackend unixFd = [] ∧ s.fromBackend unixFd = [] := by
  have hnone : ∀ c, ¬s.Serves unixFd c := by
    rintro c ⟨fd, -, hpair, -⟩
    rw [hunpaired] at hpair
    cases hpair
  constructor
  · exact List.eq_nil_iff_forall_not_mem.mpr fun byte hbyte =>
      hnone _ (h.atBackend unixFd byte hbyte)
  · refine List.eq_nil_iff_forall_not_mem.mpr fun reply hreply => ?_
    obtain ⟨hne, hall⟩ := h.fromBackend unixFd reply hreply
    obtain ⟨byte, hbyte⟩ := List.exists_mem_of_ne_nil _ hne
    exact hnone _ (hall byte hbyte)

/-- A connected client is the only one at its unix connection. -/
theorem Orderly.eq_of_tcpToUnix (h : Orderly start g s.pool) {other : ℕ}
    (hfd : s.pool.tables.tcpToUnix fd = some unixFd)
    (hother : s.pool.tables.tcpToUnix other = some unixFd) : fd = other :=
  h.sound.held_inj hfd hother

/-! ## The steps keep it -/

/-- A new client is on a connection with nothing under way. -/
theorem Relayed.connect {infd : ℕ} {pool : State} (h : Relayed start o)
    (htime : InTime start o.network.pool (.accept infd)) (hlive : infd ∉ o.network.pool.live)
    (hunix : ¬start.IsUnix infd) (hok : perform o.network.pool (.accept infd) = .ok pool) :
    Relayed start { o with network := o.network.addClient infd pool } := by
  obtain ⟨g, hord⟩ := h.isolated.orderly
  have hnext := h.gone o.network.nextConn fun fd hfd => Nat.ne_of_lt (h.conn_lt fd hfd)
  obtain ⟨t, haccept, rfl⟩ := perform_accept_eq_ok.mp hok
  obtain ⟨⟨unixFd, ring, rfl, hfree⟩, -⟩ := hord.accept hlive hunix
    (hord.popped_lt htime hok) haccept
  have hnil := h.isolated.nil_of_unpaired hfree
  have hother : ∀ {fd}, fd ∈ insert infd o.network.pool.live → fd ≠ infd →
      fd ∈ o.network.pool.live := fun hfd hne => (Finset.mem_insert.mp hfd).resolve_left hne
  refine ⟨h.isolated.addClient htime hlive hunix hok, ?_, ?_, ?_, ?_⟩
  · intro fd hfd
    change Function.update o.network.conn infd o.network.nextConn fd < o.network.nextConn + 1
    by_cases hne : fd = infd
    · rw [hne, Function.update_self]
      exact Nat.lt_succ_self _
    · rw [Function.update_of_ne hne]
      exact Nat.lt_succ_of_lt (h.conn_lt fd (hother hfd hne))
  · intro fd hfd other hother' heq
    change Function.update o.network.conn infd o.network.nextConn fd =
      Function.update o.network.conn infd o.network.nextConn other at heq
    by_cases hne : fd = infd <;> by_cases hne' : other = infd
    · rw [hne, hne']
    · rw [hne, Function.update_self, Function.update_of_ne hne'] at heq
      have := h.conn_lt other (hother hother' hne')
      omega
    · rw [hne', Function.update_self, Function.update_of_ne hne] at heq
      have := h.conn_lt fd (hother hfd hne)
      omega
    · rw [Function.update_of_ne hne, Function.update_of_ne hne'] at heq
      exact h.conn_inj fd (hother hfd hne) other (hother hother' hne') heq
  · intro fd hfd u htcp
    change Function.update o.network.pool.tables.tcpToUnix infd (some unixFd) fd = some u at htcp
    change o.sent (Function.update o.network.conn infd o.network.nextConn fd) =
        o.served (Function.update o.network.conn infd o.network.nextConn fd) ++
          o.network.atBackend u ++ Function.update o.network.fromClient infd [] fd ∧
      o.answers (Function.update o.network.conn infd o.network.nextConn fd) =
        deliveredTo o.network (Function.update o.network.conn infd o.network.nextConn fd) ++
          o.network.fromBackend u
    by_cases hne : fd = infd
    · subst hne
      rw [Function.update_self] at htcp
      obtain rfl := Option.some.inj htcp
      rw [Function.update_self, Function.update_self, hnil.1, hnil.2, hnext.1, hnext.2]
      simp
    · rw [Function.update_of_ne hne] at htcp
      rw [Function.update_of_ne hne, Function.update_of_ne hne]
      exact h.live fd (hother hfd hne) u htcp
  · intro c hnone
    have hnone' : ∀ fd ∈ o.network.pool.live, o.network.conn fd ≠ c := by
      intro fd hfd
      have hne : fd ≠ infd := fun heq => hlive (heq ▸ hfd)
      have := hnone fd (Finset.mem_insert_of_mem hfd)
      change Function.update o.network.conn infd o.network.nextConn fd ≠ c at this
      rwa [Function.update_of_ne hne] at this
    exact h.gone c hnone'

/-- A client sends. -/
theorem Relayed.send (h : Relayed start o) (hlive : fd ∈ o.network.pool.live)
    (bytes : List Sent)
    (hisolated : Isolated start { o.network with
      fromClient := Function.update o.network.fromClient fd (o.network.fromClient fd ++ bytes) }) :
    Relayed start { o with
      network := { o.network with
        fromClient := Function.update o.network.fromClient fd (o.network.fromClient fd ++ bytes) }
      sent := Function.update o.sent (o.network.conn fd)
        (o.sent (o.network.conn fd) ++ bytes) } := by
  refine ⟨hisolated, h.conn_lt, h.conn_inj, ?_, ?_⟩
  · intro other hother u htcp
    obtain ⟨hsent, hanswers⟩ := h.live other hother u htcp
    refine ⟨?_, hanswers⟩
    change Function.update o.sent (o.network.conn fd) _ (o.network.conn other) =
      _ ++ Function.update o.network.fromClient fd _ other
    by_cases heq : other = fd
    · subst heq
      rw [Function.update_self, Function.update_self, hsent, List.append_assoc]
    · have hconn : o.network.conn other ≠ o.network.conn fd := fun hconn =>
        heq (h.conn_inj other hother fd hlive hconn)
      rw [Function.update_of_ne hconn, Function.update_of_ne heq]
      exact hsent
  · intro c hnone
    have hne : c ≠ o.network.conn fd := fun heq => hnone fd hlive heq.symm
    refine ⟨?_, (h.gone c hnone).2⟩
    change Function.update o.sent (o.network.conn fd) _ c = _
    rw [Function.update_of_ne hne]
    exact (h.gone c hnone).1

/-- A backend answers. -/
theorem Relayed.answer {request rest : List Sent} (h : Relayed start o) (bytes : List UInt8)
    (hreq : nextRequest (o.network.atBackend unixFd) = some (request, rest)) :
    Relayed start { o with
      network := { o.network with
        atBackend := Function.update o.network.atBackend unixFd rest
        fromBackend := Function.update o.network.fromBackend unixFd
          (o.network.fromBackend unixFd ++ bytes.map fun value => ⟨request, value⟩) }
      served := Function.update o.served (connOf request) (o.served (connOf request) ++ request)
      answers := Function.update o.answers (connOf request)
        (o.answers (connOf request) ++ bytes.map fun value => ⟨request, value⟩) } := by
  obtain ⟨g, hord⟩ := h.isolated.orderly
  obtain ⟨hsplit, hne⟩ := nextRequest_eq_some hreq
  -- the request came in on the connection of the client it is paired with
  obtain ⟨fd, hlive, hpair, hconn⟩ : ∃ fd ∈ o.network.pool.live,
      o.network.pool.tables.tcpToUnix fd = some unixFd ∧ o.network.conn fd = connOf request := by
    cases request with
    | nil => exact absurd rfl hne
    | cons byte bytes =>
        obtain ⟨fd, hlive, hpair, hconn⟩ := h.isolated.atBackend unixFd byte (by
          rw [hsplit]
          exact List.mem_cons_self)
        exact ⟨fd, hlive, (hord.inverse fd unixFd).mp hpair, hconn⟩
  refine ⟨h.isolated.answer hreq, h.conn_lt, h.conn_inj, ?_, ?_⟩
  · intro other hother u htcp
    obtain ⟨hsent, hanswers⟩ := h.live other hother u htcp
    change _ = Function.update o.served (connOf request) _ (o.network.conn other) ++
        Function.update o.network.atBackend unixFd rest u ++ _ ∧
      Function.update o.answers (connOf request) _ (o.network.conn other) =
        _ ++ Function.update o.network.fromBackend unixFd _ u
    by_cases heq : other = fd
    · subst heq
      obtain rfl : u = unixFd := Option.some.inj (htcp.symm.trans hpair)
      rw [hconn] at hsent hanswers ⊢
      rw [Function.update_self, Function.update_self, Function.update_self, Function.update_self,
        hanswers]
      refine ⟨?_, List.append_assoc _ _ _⟩
      rw [hsent, hsplit]
      simp
    · have hu : u ≠ unixFd := by
        rintro rfl
        exact heq (hord.eq_of_tcpToUnix htcp hpair)
      have hc : o.network.conn other ≠ connOf request := by
        rw [← hconn]
        exact fun hc => heq (h.conn_inj other hother fd hlive hc)
      rw [Function.update_of_ne hc, Function.update_of_ne hu, Function.update_of_ne hc,
        Function.update_of_ne hu]
      exact ⟨hsent, hanswers⟩
  · intro c hnone
    have hc : c ≠ connOf request := by
      rw [← hconn]
      exact fun hc => hnone fd hlive hc.symm
    change _ = Function.update o.served (connOf request) _ c ∧
      Function.update o.answers (connOf request) _ c = _
    rw [Function.update_of_ne hc, Function.update_of_ne hc]
    exact h.gone c hnone

/-- What a client sent goes on, all of it. -/
theorem Relayed.forward (h : Relayed start o) (hlive : fd ∈ o.network.pool.live)
    (hlen : (o.network.fromClient fd).length < kBufferSize)
    (hdst : o.network.pool.tables.dstFd fd = .ok dst) :
    Relayed start
      { o with network := o.network.forward fd dst (o.network.fromClient fd) } := by
  obtain ⟨g, hord⟩ := h.isolated.orderly
  have htcp' := (hord.dstFd_client hlive hdst).1
  have hdrop : (o.network.fromClient fd).drop kBufferSize = [] :=
    List.drop_eq_nil_of_le (Nat.le_of_lt hlen)
  refine ⟨h.isolated.forward hlive hdst (List.Subset.refl _), h.conn_lt, h.conn_inj, ?_, h.gone⟩
  intro other hother u htcp
  obtain ⟨hsent, hanswers⟩ := h.live other hother u htcp
  refine ⟨?_, hanswers⟩
  change o.sent (o.network.conn other) = o.served (o.network.conn other) ++
    Function.update o.network.atBackend dst _ u ++ Function.update o.network.fromClient fd _ other
  by_cases heq : other = fd
  · subst heq
    obtain rfl : u = dst := Option.some.inj (htcp.symm.trans htcp')
    rw [Function.update_self, Function.update_self, hdrop, hsent]
    simp
  · have hu : u ≠ dst := by
      rintro rfl
      exact heq (hord.eq_of_tcpToUnix htcp htcp')
    rw [Function.update_of_ne hu, Function.update_of_ne heq]
    exact hsent

/-- What a backend answered goes on, all of it. -/
theorem Relayed.deliver (h : Relayed start o)
    (hlen : (o.network.fromBackend unixFd).length < kBufferSize)
    (hne : o.network.fromBackend unixFd ≠ [])
    (hdst : o.network.pool.tables.dstFd unixFd = .ok dst)
    (htakes : ¬(o.network.peer dst).IsReset) :
    Relayed start
      { o with network := o.network.deliver unixFd dst (o.network.fromBackend unixFd) } := by
  obtain ⟨g, hord⟩ := h.isolated.orderly
  obtain ⟨reply, hreply⟩ := List.exists_mem_of_ne_nil _ hne
  obtain ⟨hreq, hall⟩ := h.isolated.fromBackend unixFd reply hreply
  obtain ⟨byte, hbyte⟩ := List.exists_mem_of_ne_nil _ hreq
  obtain ⟨fd, hlive, hpair, -⟩ := hall byte hbyte
  obtain rfl : fd = dst := Except.ok.inj ((hord.dstFd_unix hpair).symm.trans hdst)
  have htcp' := (hord.inverse fd unixFd).mp hpair
  have hdrop : (o.network.fromBackend unixFd).drop kBufferSize = [] :=
    List.drop_eq_nil_of_le (Nat.le_of_lt hlen)
  have hdelivered : ∀ c, deliveredTo (o.network.deliver unixFd fd (o.network.fromBackend unixFd)) c =
      deliveredTo o.network c ++
        if o.network.conn fd = c then o.network.fromBackend unixFd else [] := by
    intro c
    simp only [deliveredTo, Network.deliver, Network.write, if_neg htakes, List.filter_append,
      List.map_append]
    congr 1
    by_cases hc : o.network.conn fd = c
    · rw [if_pos hc, List.filter_eq_self.mpr, List.map_map]
      · exact List.map_id' _
      · intro entry hentry
        obtain ⟨_, -, rfl⟩ := List.mem_map.mp hentry
        exact decide_eq_true hc
    · rw [if_neg hc, List.filter_eq_nil_iff.mpr]
      · rfl
      · intro entry hentry
        obtain ⟨_, -, rfl⟩ := List.mem_map.mp hentry
        simpa using hc
  refine ⟨h.isolated.deliver hdst (List.Subset.refl _), h.conn_lt, h.conn_inj, ?_, ?_⟩
  · intro other hother u htcp
    obtain ⟨hsent, hanswers⟩ := h.live other hother u htcp
    refine ⟨hsent, ?_⟩
    change o.answers (o.network.conn other) =
      deliveredTo (o.network.deliver unixFd fd _) (o.network.conn other) ++
        Function.update o.network.fromBackend unixFd _ u
    rw [hdelivered]
    by_cases heq : other = fd
    · subst heq
      obtain rfl : u = unixFd := Option.some.inj (htcp.symm.trans htcp')
      rw [if_pos rfl, Function.update_self, hdrop, List.append_nil]
      exact hanswers
    · have hu : u ≠ unixFd := by
        rintro rfl
        exact heq (hord.eq_of_tcpToUnix htcp htcp')
      have hc : o.network.conn fd ≠ o.network.conn other := fun hc =>
        heq (h.conn_inj other hother fd hlive hc.symm)
      rw [if_neg hc, Function.update_of_ne hu, List.append_nil]
      exact hanswers
  · intro c hnone
    obtain ⟨hsent, hanswers⟩ := h.gone c hnone
    refine ⟨hsent, ?_⟩
    have hother : o.network.conn fd ≠ c := hnone fd hlive
    rw [hdelivered, if_neg hother, List.append_nil]
    exact hanswers

/-- A client goes, with nothing under way. -/
theorem Relayed.close {pool : State} (h : Relayed start o) (hlive : fd ∈ o.network.pool.live)
    (hdst : o.network.pool.tables.dstFd fd = .ok dst)
    (hok : perform o.network.pool (.close fd) = .ok pool) (hnil : o.network.fromClient fd = [])
    (hquiet : o.network.atBackend dst = [] ∧ o.network.fromBackend dst = []) :
    Relayed start { o with network := { o.network.forward fd dst [] with pool := pool } } := by
  obtain ⟨g, hord⟩ := h.isolated.orderly
  have htcp' := (hord.dstFd_client hlive hdst).1
  have hmine := h.live fd hlive dst htcp'
  rw [hquiet.1, hquiet.2, hnil, List.append_nil, List.append_nil, List.append_nil] at hmine
  have hisolated := h.isolated.close hlive hdst hok hquiet
  obtain ⟨t, herase, rfl⟩ := perform_close_eq_ok.mp hok
  obtain ⟨unixFd, ring, hentry, -, rfl⟩ := eraseFromMaps_eq_ok herase
  have hfrom : (o.network.forward fd dst []).fromClient = o.network.fromClient := by
    simp only [Network.forward, hnil, List.drop_nil]
    rw [← hnil, Function.update_eq_self]
  have hat : (o.network.forward fd dst []).atBackend = o.network.atBackend := by
    simp only [Network.forward, List.append_nil, Function.update_eq_self]
  refine ⟨hisolated, fun other hother => h.conn_lt other (Finset.mem_of_mem_erase hother),
    fun x hx y hy => h.conn_inj x (Finset.mem_of_mem_erase hx) y (Finset.mem_of_mem_erase hy),
    ?_, ?_⟩
  · intro other hother u htcp
    have hne := Finset.ne_of_mem_erase hother
    change Function.update o.network.pool.tables.tcpToUnix fd none other = some u at htcp
    rw [Function.update_of_ne hne] at htcp
    change _ = _ ++ (o.network.forward fd dst []).atBackend u ++
      (o.network.forward fd dst []).fromClient other ∧ _
    rw [hfrom, hat]
    exact h.live other (Finset.mem_of_mem_erase hother) u htcp
  · intro c hnone
    by_cases hc : o.network.conn fd = c
    · rw [← hc]
      exact hmine
    · refine h.gone c fun other hother => ?_
      by_cases heq : other = fd
      · rw [heq]
        exact hc
      · exact hnone other (Finset.mem_erase.mpr ⟨heq, hother⟩)

/-- **One step.** -/
theorem Relayed.of_step {event : Event} (h : Relayed start o) (hlossless : Lossless start o event)
    (hstep : o.step start event = some o') : Relayed start o' := by
  obtain ⟨s', hnetwork, rfl⟩ := Option.map_eq_some_iff.mp hstep
  obtain ⟨hsettled, hfull⟩ := hlossless
  have hisolated := h.isolated.of_step hsettled hnetwork
  cases event with
  | connect infd =>
      simp only [Network.step] at hnetwork
      split at hnetwork
      · rename_i hen
        split at hnetwork <;> obtain rfl := Option.some.inj hnetwork
        · exact h.of_aborted _
        · rename_i pool hok
          exact h.connect hsettled hen.2.1 hen.2.2 hok
      · cases hnetwork
  | send fd bytes =>
      simp only [Network.step] at hnetwork
      split at hnetwork
      · rename_i hen
        obtain rfl := Option.some.inj hnetwork
        exact h.send hen.1 _ hisolated
      · cases hnetwork
  | receive fd | finish fd | hangUp fd _ | reset fd | epollError fd =>
      -- the bytes stay where they are
      obtain ⟨-, ⟨⟩⟩ := Option.ite_none_right_eq_some.mp hnetwork
      exact ⟨hisolated, h.conn_lt, h.conn_inj, h.live, h.gone⟩
  | answer unixFd bytes =>
      obtain ⟨⟨request, rest⟩, hreq, rfl⟩ := Option.map_eq_some_iff.mp hnetwork
      simp only [note, hreq]
      exact h.answer bytes hreq
  | clientReadable fd taken =>
      rcases clientReadable_lossless hfull.1 hfull.2.1 hfull.2.2 hnetwork with
        ⟨fault, rfl⟩ | ⟨dst, hlive, hdst, ⟨aborted, rfl⟩ | ⟨pool, hend, hnil, hok, rfl⟩⟩
      · exact h.of_aborted _
      · exact (h.forward hlive hfull.2.1 hdst).of_aborted aborted
      · obtain ⟨g, hord⟩ := h.isolated.orderly
        exact h.close hlive hdst hok hnil (hsettled hend hnil dst (hord.dstFd_client hlive hdst).1)
  | backendReadable unixFd taken =>
      rcases backendReadable_lossless hfull.1 hfull.2.1 hnetwork with
        ⟨fault, rfl⟩ | ⟨dst, aborted, hne, hdst, rfl⟩
      · exact h.of_aborted _
      · have htakes : ¬(o.network.peer dst).IsReset := hfull.2.2 dst (by rw [hdst]; rfl)
        exact (h.deliver hfull.2.1 hne hdst htakes).of_aborted aborted

/-! ## Every run -/

/-- **The router is not there.** In a run in which the sockets take what
they are written, no read fills a buffer, no stream breaks off behind bytes
to be read, accepts are in time and a client goes with nothing under way: what a connected client has sent is what
backends have taken as its requests, what its backend has not taken yet and
what the router has not read, in this order; and the answers to its requests
are what it has been sent and what the router has not read. Of one that has
gone all has been taken and all answers have been sent. -/
theorem relayed_of_guarded (start : Startup)
    (h : Lts.Reachable (Lts.Guarded (Lossless start) (Lts.ofFun (Observed.step start)))
      (.init start) o) :
    (∀ fd ∈ o.network.pool.live, ∃ unixFd,
      o.network.pool.tables.tcpToUnix fd = some unixFd ∧
      o.sent (o.network.conn fd) = o.served (o.network.conn fd) ++ o.network.atBackend unixFd ++
        o.network.fromClient fd ∧
      o.answers (o.network.conn fd) =
        deliveredTo o.network (o.network.conn fd) ++ o.network.fromBackend unixFd) ∧
    ∀ c, (∀ fd ∈ o.network.pool.live, o.network.conn fd ≠ c) →
      o.sent c = o.served c ∧ o.answers c = deliveredTo o.network c := by
  have hrelayed : Relayed start o :=
    h.invariant (relayed_init start) fun ht ⟨hlossless, hs⟩ => ht.of_step hlossless hs
  refine ⟨fun fd hfd => ?_, hrelayed.gone⟩
  obtain ⟨g, hord⟩ := hrelayed.isolated.orderly
  obtain ⟨unixFd, htcp⟩ := hord.live_iff.mp hfd
  exact ⟨unixFd, htcp, hrelayed.live fd hfd unixFd htcp⟩

/-- One client of two has sent two requests, and been answered the first. -/
def twoRequests : List Event :=
  [.connect 200, .connect 201, .send 200 [(71, true), (72, true)], .clientReadable 200 2,
    .answer 5 [73], .backendReadable 5 1]

theorem relayed_of_guarded_two :
    ∃ o, Lts.Run (Lts.Guarded (Lossless sampleStartup) (Lts.ofFun (Observed.step sampleStartup)))
        (.init sampleStartup) twoRequests o ∧
      o.network.pool.live = {200, 201} ∧
      ∃ unixFd, o.sent (o.network.conn 200) = o.served (o.network.conn 200) ++
        o.network.atBackend unixFd ++ o.network.fromClient 200 := by
  obtain ⟨o, ho, hlive⟩ : ∃ o : Observed,
      Lts.exec (Lts.guardedFun (Lossless sampleStartup) (Observed.step sampleStartup))
        (.init sampleStartup) twoRequests = some o ∧ o.network.pool.live = {200, 201} :=
    ⟨_, rfl, by decide +kernel⟩
  have hrun := Lts.run_of_exec_guarded ho
  obtain ⟨unixFd, -, hsent, -⟩ := (relayed_of_guarded sampleStartup ⟨_, hrun⟩).1 200
    (by rw [hlive]; decide)
  exact ⟨o, hrun, hlive, unixFd, hsent⟩

end Router
end Rinha
