import Mathlib.Data.Nat.Notation
import Mathlib.Tactic.Common
/-!
# Non-blocking sockets

What a loop of `read` calls can run into once it has emptied a socket, what
each of them returns and leaves, what a `write` can come to on one that may
be full, and what both can on one whose peer has gone.
-/

namespace Rinha

/-- What `read` returns when there is nothing more to read. -/
inductive ReadEnd
  | eagain
  | endOfFile
  | error
  deriving DecidableEq

/-- What `write` returns: how much the socket took, or `-1` with `EAGAIN` or
another error. -/
inductive WriteResult
  | wrote (count : ℕ)
  | eagain
  | error
  deriving DecidableEq

/-- What one `read` returns: bytes, none of them where it returns 0, or `-1`
with `EAGAIN` or another error. -/
inductive ReadResult (β : Type)
  | got (bytes : List β)
  | eagain
  | error
  deriving DecidableEq

variable {β : Type}

/-- `read` on a socket that has been emptied. -/
def ReadEnd.result : ReadEnd → ReadResult β
  | .eagain => .eagain
  | .endOfFile => .got []
  | .error => .error

/-- What is there to read on a socket, as it is cut, and what comes after
it. -/
structure Inbox (β : Type) where
  chunks : List (List β)
  ending : ReadEnd
  nonempty : ∀ chunk ∈ chunks, chunk ≠ []

/-- The bytes there are to read. -/
def Inbox.bytes (inbox : Inbox β) : List β := inbox.chunks.flatten

/-- What a `read` of some bytes leaves of the chunks. -/
def leaves (size : ℕ) : List (List β) → List (List β)
  | [] => []
  | chunk :: chunks => if chunk.length ≤ size then chunks else chunk.drop size :: chunks

theorem leaves_nonempty {size : ℕ} {chunks : List (List β)}
    (h : ∀ chunk ∈ chunks, chunk ≠ []) : ∀ chunk ∈ leaves size chunks, chunk ≠ [] := by
  cases chunks with
  | nil => exact h
  | cons chunk chunks =>
      rw [leaves]
      split
      · exact fun c hc => h c (List.mem_cons_of_mem _ hc)
      · rename_i hlong
        intro c hc
        rcases List.mem_cons.mp hc with rfl | hc
        · rw [Ne, List.drop_eq_nil_iff]
          exact hlong
        · exact h c (List.mem_cons_of_mem _ hc)

/-- `read`, asked for some bytes. Asked for none it returns 0, whatever is
there. -/
def Inbox.read (inbox : Inbox β) (size : ℕ) : ReadResult β × Inbox β :=
  if size = 0 then (.got [], inbox)
  else
    (match inbox.chunks with
      | [] => inbox.ending.result
      | chunk :: _ => .got (chunk.take size),
    ⟨leaves size inbox.chunks, inbox.ending, leaves_nonempty inbox.nonempty⟩)

theorem Inbox.read_zero (inbox : Inbox β) : inbox.read 0 = (.got [], inbox) := rfl

/-- A `read` of an emptied socket. -/
theorem Inbox.read_of_nil {inbox : Inbox β} {size : ℕ} (hsize : size ≠ 0)
    (h : inbox.bytes = []) : inbox.read size = (inbox.ending.result, inbox) := by
  obtain ⟨chunks, ending, hne⟩ := inbox
  cases chunks with
  | nil => exact if_neg hsize
  | cons chunk chunks =>
      rw [Inbox.bytes, List.flatten_cons, List.append_eq_nil_iff] at h
      exact absurd h.1 (hne chunk List.mem_cons_self)

/-- A `read` of one that is not returns some of what is there, the first of
it. -/
theorem Inbox.read_of_ne_nil {inbox : Inbox β} {size : ℕ} (hsize : size ≠ 0)
    (h : inbox.bytes ≠ []) : ∃ bytes left, inbox.read size = (.got bytes, left) ∧ bytes ≠ [] ∧
      bytes.length ≤ size ∧ inbox.bytes = bytes ++ left.bytes ∧ left.ending = inbox.ending := by
  obtain ⟨chunks, ending, hne⟩ := inbox
  cases chunks with
  | nil => exact absurd rfl h
  | cons chunk chunks =>
      refine ⟨chunk.take size, _, if_neg hsize, ?_, List.length_take_le _ _, ?_, rfl⟩
      · rw [Ne, List.take_eq_nil_iff]
        exact fun hnil => hnil.elim hsize (hne chunk List.mem_cons_self)
      · simp only [Inbox.bytes, leaves]
        split
        · rename_i hshort
          rw [List.take_of_length_le hshort, List.flatten_cons]
        · rw [List.flatten_cons, List.flatten_cons, ← List.append_assoc, List.take_append_drop]

/-! ## The other end of a stream -/

/-- What the peer of a TCP stream has come to. One that has `finished` sends
no more and still reads; one that has `closed` does neither, and answers
what is written to it with a reset: it is `doomed` while that is on its way
and `broken` once it is there. A stream that was `reset` first has an error
of its own to report. -/
inductive Peer
  | connected
  | finished
  | closed
  | doomed
  | reset
  | broken
  deriving DecidableEq

namespace Peer

/-- What `read` comes to behind the last bytes. -/
def ending : Peer → ReadEnd
  | .connected => .eagain
  | .reset => .error
  | .finished | .closed | .doomed | .broken => .endOfFile

/-- It reads what is written to it. -/
def Reads (peer : Peer) : Prop := peer = .connected ∨ peer = .finished

/-- `epoll` reports `EPOLLERR` and `EPOLLHUP`. -/
def IsReset (peer : Peer) : Prop := peer = .reset ∨ peer = .broken

instance (peer : Peer) : Decidable peer.Reads := inferInstanceAs (Decidable (_ ∨ _))

instance (peer : Peer) : Decidable peer.IsReset := inferInstanceAs (Decidable (_ ∨ _))

/-- The peer closes the stream, having read all there was or not. With bytes
it has not read a reset goes out in place of an end. -/
def close : Peer → Bool → Peer
  | .connected, true | .finished, true => .closed
  | .connected, false => .reset
  | .finished, false => .broken
  | peer, _ => peer

/-- What a `write` to the stream makes of it. The first one to a `reset`
stream reports its error; one to a `broken` stream raises `SIGPIPE`. -/
def written : Peer → Peer
  | .closed => .doomed
  | .reset => .broken
  | peer => peer

end Peer

end Rinha
