import Rinha.Router.Model.Network
import Mathlib.Data.List.Infix
/-!
# What `HandleMessage` comes to

The read loop takes what is there up to the size of its buffer, however the
`read` calls cut it (`readMessage_eq`), so a call of `HandleMessage` either
forwards a prefix of what was there or, at the end of an empty stream,
erases the client. `Network.Stepped` is the list of what a step of the
network can be.
-/

namespace Rinha
namespace Router

/-! ## The read loop -/

section

variable {β : Type} {tables t : Tables} {src : ℕ} {ending : ReadEnd} {chunks : List (List β)}
variable {buf : List β}

/-- How the loop ends with room to spare. -/
def readEnd (ending : ReadEnd) (buf : List β) : Except Fault (List β × Bool) :=
  match ending with
  | .eagain => .ok (buf, false)
  | .endOfFile => .ok (buf, true)
  | .error => .error .checkFailed

/-- **The read loop**, whatever the cut: all that was there, or a full buffer
taken for the end of the file. -/
theorem readMessage_eq (h : buf.length ≤ kBufferSize) :
    readMessage ending chunks buf =
      if (buf ++ chunks.flatten).length < kBufferSize then readEnd ending (buf ++ chunks.flatten)
      else .ok ((buf ++ chunks.flatten).take kBufferSize, true) := by
  induction chunks generalizing buf with
  | nil =>
      simp only [readMessage, List.flatten_nil, List.append_nil]
      by_cases hfull : buf.length = kBufferSize
      · rw [if_pos hfull, if_neg (by omega), List.take_of_length_le (by omega)]
      · rw [if_neg hfull, if_pos (by omega)]
        rfl
  | cons chunk chunks ih =>
      simp only [readMessage, List.flatten_cons, ← List.append_assoc]
      by_cases hfull : buf.length = kBufferSize
      · have hlen : ¬(buf ++ chunk ++ chunks.flatten).length < kBufferSize := by
          simp only [List.length_append]
          omega
        rw [if_pos hfull, if_neg hlen, List.append_assoc, List.take_append_of_le_length (by omega),
          List.take_of_length_le (by omega)]
      · -- the chunk fits, or fills the buffer and the rest is never asked for
        rw [if_neg hfull, ih (by simp only [List.length_append, List.length_take]; omega)]
        by_cases hfits : chunk.length ≤ kBufferSize - buf.length
        · rw [List.take_of_length_le hfits]
        · have hlen : (buf ++ chunk.take (kBufferSize - buf.length)).length = kBufferSize := by
            simp only [List.length_append, List.length_take]
            omega
          have hshort : ¬(buf ++ chunk.take (kBufferSize - buf.length) ++ chunks.flatten).length <
              kBufferSize := by
            rw [List.length_append, hlen]
            omega
          have hlong : ¬(buf ++ chunk ++ chunks.flatten).length < kBufferSize := by
            simp only [List.length_append]
            omega
          have htake : (buf ++ chunk ++ chunks.flatten).take kBufferSize =
              buf ++ chunk.take (kBufferSize - buf.length) := by
            rw [List.append_assoc, List.take_append, List.take_of_length_le h,
              List.take_append_of_le_length (by omega)]
          rw [if_neg hshort, if_neg hlong, htake, List.take_append_of_le_length (by omega),
            List.take_of_length_le (by omega)]

/-- Less than a buffer full, and more may come: it is forwarded. -/
theorem handleMessage_again (h : chunks.flatten.length < kBufferSize) :
    tables.handleMessage src .eagain chunks = (chunks.flatten, .ok (tables, false)) := by
  rw [Tables.handleMessage, readMessage_eq (Nat.zero_le _), List.nil_append, if_pos h]
  rfl

/-- The end of a stream: with nothing before it the client is erased, and
with anything the `CHECK` on `total_count` fails. -/
theorem handleMessage_endOfFile (h : chunks.flatten.length < kBufferSize) :
    tables.handleMessage src .endOfFile chunks =
      (chunks.flatten, if chunks.flatten.length = 0 then do
          let tables ← tables.eraseFromMaps src
          return (tables, true)
        else .error .checkFailed) := by
  rw [Tables.handleMessage, readMessage_eq (Nat.zero_le _), List.nil_append, if_pos h]
  rfl

/-- The `read` of a stream that broke off ends the process. -/
theorem handleMessage_broken (h : chunks.flatten.length < kBufferSize) :
    tables.handleMessage src .error chunks = ([], .error .checkFailed) := by
  rw [Tables.handleMessage, readMessage_eq (Nat.zero_le _), List.nil_append, if_pos h]
  rfl

/-- A buffer full: it is forwarded, and the `CHECK` on `total_count` fails. -/
theorem handleMessage_full (h : kBufferSize ≤ chunks.flatten.length) :
    tables.handleMessage src ending chunks =
      (chunks.flatten.take kBufferSize, .error .checkFailed) := by
  have hlen : (chunks.flatten.take kBufferSize).length ≠ 0 := by
    rw [List.length_take, Nat.min_eq_left h]
    decide
  rw [Tables.handleMessage, readMessage_eq (Nat.zero_le _), List.nil_append,
    if_neg (Nat.not_lt_of_le h)]
  simp only [if_neg hlen]

/-- **What a call of `HandleMessage` can do**: it forwards some of what was
there and ends the process, or leaves the tables alone, or it finds the
end of a stream with nothing before it. -/
theorem handleMessage_cases (tables : Tables) (src : ℕ) (ending : ReadEnd)
    (chunks : List (List β)) :
    ∃ bytes result, tables.handleMessage src ending chunks = (bytes, result) ∧
      bytes <+: chunks.flatten ∧
      ((∃ fault, result = .error fault) ∨ result = .ok (tables, false) ∧ ending = .eagain ∨
        ∃ t, tables.eraseFromMaps src = .ok t ∧ result = .ok (t, true) ∧ bytes = [] ∧
          chunks.flatten = [] ∧ ending = .endOfFile) := by
  rcases Nat.lt_or_ge chunks.flatten.length kBufferSize with hshort | hlong
  · cases ending with
    | eagain => exact ⟨_, _, handleMessage_again hshort, List.prefix_refl _, .inr (.inl ⟨rfl, rfl⟩)⟩
    | error => exact ⟨_, _, handleMessage_broken hshort, List.nil_prefix, .inl ⟨_, rfl⟩⟩
    | endOfFile =>
        refine ⟨_, _, handleMessage_endOfFile hshort, List.prefix_refl _, ?_⟩
        by_cases hempty : chunks.flatten.length = 0
        · rw [if_pos hempty]
          have hnil := List.eq_nil_of_length_eq_zero hempty
          cases herase : tables.eraseFromMaps src with
          | error fault => exact .inl ⟨fault, rfl⟩
          | ok t => exact .inr (.inr ⟨t, rfl, rfl, hnil, hnil, rfl⟩)
        · exact .inl ⟨_, if_neg hempty⟩
  · exact ⟨_, _, handleMessage_full hlong, List.take_prefix _ _, .inl ⟨_, rfl⟩⟩

end

/-! ## The steps of the network -/

/-- What a `write` gets rid of was on the socket. -/
theorem take_subset_of_prefix {β : Type} {bytes queue : List β} (h : bytes <+: [queue].flatten)
    (taken : ℕ) : bytes.take taken ⊆ queue := by
  rw [List.flatten_singleton] at h
  exact ((List.take_prefix taken bytes).trans h).subset

/-- The ways the network can move to the next state. -/
inductive Network.Stepped (start : Startup) (s : Network) : Event → Network → Prop
  | failed (event fault) : Stepped start s event { s with aborted := some fault }
  | connected (infd pool) : infd ∉ s.pool.live → ¬start.IsUnix infd →
      perform s.pool (.accept infd) = .ok pool →
      Stepped start s (.connect infd) (s.addClient infd pool)
  | sent (fd bytes) : fd ∈ s.pool.live →
      Stepped start s (.send fd bytes) { s with
        fromClient := Function.update s.fromClient fd
          (s.fromClient fd ++ bytes.map fun (value, last) => ⟨s.conn fd, value, last⟩) }
  | received (fd) :
      Stepped start s (.receive fd) { s with unread := Function.update s.unread fd [] }
  | finished (fd) : s.peer fd = .connected →
      Stepped start s (.finish fd) { s with peer := Function.update s.peer fd .finished }
  | hungUp (fd orderly peer) : peer ≠ .doomed →
      Stepped start s (.hangUp fd orderly) { s with peer := Function.update s.peer fd peer }
  | arrived (fd) : s.peer fd = .doomed →
      Stepped start s (.reset fd) { s with peer := Function.update s.peer fd .broken }
  | answered (unixFd bytes request rest) :
      nextRequest (s.atBackend unixFd) = some (request, rest) →
      Stepped start s (.answer unixFd bytes) { s with
        atBackend := Function.update s.atBackend unixFd rest
        fromBackend := Function.update s.fromBackend unixFd
          (s.fromBackend unixFd ++ bytes.map fun value => ⟨request, value⟩) }
  | forwarded (fd taken dst bytes aborted) : s.aborted = none → fd ∈ s.pool.live →
      s.pool.tables.dstFd fd = .ok dst → bytes ⊆ s.fromClient fd →
      (s.peer fd = .connected ∨ aborted ≠ none) →
      Stepped start s (.clientReadable fd taken) { s.forward fd dst bytes with aborted := aborted }
  | closed (fd taken dst pool) : fd ∈ s.pool.live → s.pool.tables.dstFd fd = .ok dst →
      (s.peer fd).ending = .endOfFile → s.fromClient fd = [] →
      perform s.pool (.close fd) = .ok pool →
      Stepped start s (.clientReadable fd taken) { s.forward fd dst [] with pool := pool }
  | delivered (unixFd taken dst replies aborted) : s.aborted = none →
      s.fromBackend unixFd ≠ [] → s.pool.tables.dstFd unixFd = .ok dst →
      replies ⊆ s.fromBackend unixFd →
      Stepped start s (.backendReadable unixFd taken)
        { s.deliver unixFd dst replies with aborted := aborted }

section

variable {start : Startup} {s s' : Network} {fd unixFd taken : ℕ}

theorem Network.handled_error {fault : Fault} (h : s.aborted = none) :
    s.handled fd (.error fault) = { s with aborted := some fault } := if_neg (not_not.mpr h)

theorem Network.handled_ok {tables : Tables} {closed : Bool} (h : s.aborted = none) :
    s.handled fd (.ok (tables, closed)) =
      { s with pool := ⟨tables, if closed then s.pool.live.erase fd else s.pool.live⟩ } :=
  if_neg (not_not.mpr h)

/-- A call that does not close anything changes nothing but whether the
process goes on. -/
theorem Network.handled_cases (s : Network) (fd : ℕ) {result : Except Fault (Tables × Bool)}
    (h : (∃ fault, result = .error fault) ∨ result = .ok (s.pool.tables, false)) :
    ∃ aborted, s.handled fd result = { s with aborted := aborted } := by
  by_cases hrunning : s.aborted = none
  · rcases h with ⟨fault, rfl⟩ | rfl
    · exact ⟨_, handled_error hrunning⟩
    · exact ⟨s.aborted, handled_ok hrunning⟩
  · exact ⟨s.aborted, if_pos hrunning⟩

theorem ending_eq_eagain {peer : Peer} (h : peer.ending = .eagain) : peer = .connected := by
  cases peer <;> first | rfl | cases h

theorem Network.stepped_clientReadable (h : s.step start (.clientReadable fd taken) = some s') :
    s.Stepped start (.clientReadable fd taken) s' := by
  simp only [Network.step] at h
  split at h
  · rename_i hen
    split at h
    · obtain rfl := Option.some.inj h
      exact .failed _ _
    · rename_i dst hdst
      obtain ⟨bytes, result, heq, hprefix, hcases⟩ := handleMessage_cases s.pool.tables fd
        (s.peer fd).ending [s.fromClient fd]
      rw [heq] at h
      obtain rfl := Option.some.inj h
      have hsub := take_subset_of_prefix hprefix taken
      have hrunning : (s.forward fd dst (bytes.take taken)).aborted = none := hen.1
      rcases hcases with ⟨fault, rfl⟩ | ⟨rfl, hagain⟩ | ⟨t, herase, rfl, rfl, hnil, hend⟩
      · rw [handled_error hrunning]
        exact .forwarded fd taken dst _ (some fault) hen.1 hen.2.1 hdst hsub
          (.inr (Option.some_ne_none _))
      · rw [handled_ok hrunning]
        exact .forwarded fd taken dst _ s.aborted hen.1 hen.2.1 hdst hsub
          (.inl (ending_eq_eagain hagain))
      · -- only the end of a stream that had nothing before it erases a client
        rw [List.flatten_singleton] at hnil
        rw [handled_ok hrunning, List.take_nil]
        refine .closed fd taken dst _ hen.2.1 hdst hend hnil ?_
        simp only [perform, herase]
        rfl
  · cases h

theorem Network.stepped_backendReadable
    (h : s.step start (.backendReadable unixFd taken) = some s') :
    s.Stepped start (.backendReadable unixFd taken) s' := by
  simp only [Network.step] at h
  split at h
  · rename_i hen
    split at h
    · obtain rfl := Option.some.inj h
      exact .failed _ _
    · rename_i dst hdst
      obtain ⟨replies, result, heq, hprefix, hcases⟩ := handleMessage_cases s.pool.tables unixFd
        .eagain [s.fromBackend unixFd]
      rw [heq] at h
      obtain rfl := Option.some.inj h
      have hsub := take_subset_of_prefix hprefix taken
      obtain ⟨aborted, haborted⟩ : ∃ aborted,
          (s.deliver unixFd dst (replies.take taken)).handled unixFd result =
            { s.deliver unixFd dst (replies.take taken) with aborted := aborted } := by
        rcases hcases with hfault | ⟨hok, -⟩ | ⟨_, _, _, _, _, hend⟩
        · exact handled_cases _ _ (.inl hfault)
        · exact handled_cases _ _ (.inr hok)
        · -- a backend's stream does not end
          cases hend
      rw [haborted]
      exact .delivered unixFd taken dst _ aborted hen.1 hen.2 hdst hsub
  · cases h

/-- A stream that is read is not doomed by its peer's going. -/
theorem Peer.close_ne_doomed {peer : Peer} {orderly : Bool} (h : peer.Reads) :
    peer.close orderly ≠ .doomed := by
  rcases h with rfl | rfl <;> cases orderly <;> decide

/-- **Every step is one of the above.** -/
theorem Network.stepped_of_step {event : Event} (h : s.step start event = some s') :
    s.Stepped start event s' := by
  cases event with
  | connect infd =>
      simp only [Network.step] at h
      split at h
      · rename_i hen
        split at h <;> obtain rfl := Option.some.inj h
        · exact .failed _ _
        · rename_i pool hok
          exact .connected infd pool hen.2.1 hen.2.2 hok
      · cases h
  | send fd bytes =>
      obtain ⟨hen, ⟨⟩⟩ := Option.ite_none_right_eq_some.mp h
      exact .sent fd bytes hen.1
  | receive fd =>
      obtain ⟨-, ⟨⟩⟩ := Option.ite_none_right_eq_some.mp h
      exact .received fd
  | finish fd =>
      obtain ⟨hen, ⟨⟩⟩ := Option.ite_none_right_eq_some.mp h
      exact .finished fd hen.2
  | hangUp fd orderly =>
      obtain ⟨hen, ⟨⟩⟩ := Option.ite_none_right_eq_some.mp h
      exact .hungUp fd orderly _ (Peer.close_ne_doomed hen.2)
  | reset fd =>
      obtain ⟨hen, ⟨⟩⟩ := Option.ite_none_right_eq_some.mp h
      exact .arrived fd hen
  | epollError fd =>
      obtain ⟨-, ⟨⟩⟩ := Option.ite_none_right_eq_some.mp h
      exact .failed _ _
  | answer unixFd bytes =>
      obtain ⟨⟨request, rest⟩, hreq, rfl⟩ := Option.map_eq_some_iff.mp h
      exact .answered unixFd bytes request rest hreq
  | clientReadable fd taken => exact stepped_clientReadable h
  | backendReadable unixFd taken => exact stepped_backendReadable h

end

end Router
end Rinha
