import Rinha.Server.ReadLoop
/-!
# What the read loop leaves unread

The read loop ends at a `read` that returns 0, and takes it for the end of
the file. A `read` that has no room left returns 0 as well, so an event
that fills the buffer is a connection closed, with what came after the
buffer unread (`drains_iff`).
-/

namespace Rinha

variable {inbox : Inbox UInt8} {buffer : ℕ → UInt8} {total calls : ℕ}

/-- The connection is closed only if the peer closed it or `read` failed, and
nothing is left to read on one that stays open. -/
structure Drains (inbox : Inbox UInt8) (out : ReadOutcome) : Prop where
  closed : out.done = true → inbox.ending = .endOfFile ∨ out.last = .error
  drained : out.done = false → out.left.bytes = []

/-- A `read` that ends the stream ends the loop, and `EAGAIN` leaves the
connection open. -/
theorem readCalls_of_end {ending : ReadEnd} {left : Inbox UInt8}
    (h : inbox.read (kBufferWrittableSize - total) = (ending.result, left)) :
    readCalls (calls + 1) inbox buffer total =
      some ⟨buffer, total, decide (ending ≠ .eagain), ending.result, left⟩ := by
  rw [readCalls, h]
  cases ending <;> rfl

/-- **The read loop**, from any count on: it ends, as `readLoop` does; what
it had no room for is left; and its last `read` is that of the emptied
socket only if there was room. -/
theorem readCalls_spec (htotal : total ≤ kBufferWrittableSize)
    (hcalls : kBufferWrittableSize - total < calls) :
    ∃ out, readCalls calls inbox buffer total = some out ∧
      (out.buffer, out.total, out.done) = readLoop inbox.ending inbox.chunks buffer total ∧
      out.left.bytes = inbox.bytes.drop (kBufferWrittableSize - total) ∧
      out.last = if total + inbox.bytes.length < kBufferWrittableSize
        then inbox.ending.result else .got [] := by
  induction calls generalizing inbox buffer total with
  | zero => exact absurd hcalls (Nat.not_lt_zero _)
  | succ calls ih =>
      rw [readLoop_eq htotal]
      have hflat : inbox.chunks.flatten = inbox.bytes := rfl
      rw [hflat]
      by_cases hfull : kBufferWrittableSize - total = 0
      · -- no room, and 0 for that
        have hread := inbox.read_zero
        rw [← hfull] at hread
        refine ⟨_, by rw [readCalls, hread], ?_, ?_, ?_⟩
        · have hdone : kBufferWrittableSize ≤ total + inbox.bytes.length := by omega
          simp [hfull, store_nil, hdone]
        · rw [hfull, List.drop_zero]
        · rw [if_neg (by omega)]
      · by_cases hnil : inbox.bytes = []
        · have hread := inbox.read_of_nil hfull hnil
          have hroom : total < kBufferWrittableSize := by omega
          refine ⟨_, readCalls_of_end hread, ?_, ?_, ?_⟩
          · simp [hnil, store_nil, hroom]
          · simp [hnil]
          · simp [hnil, hroom]
        · obtain ⟨bytes, left, hread, hgot, hfits, hbytes, hending⟩ :=
            inbox.read_of_ne_nil hfull hnil
          obtain ⟨b, rest, rfl⟩ := List.exists_cons_of_ne_nil hgot
          have hpos : 0 < (b :: rest).length := Nat.succ_pos _
          have hroom : kBufferWrittableSize - (total + (b :: rest).length) =
              kBufferWrittableSize - total - (b :: rest).length := by omega
          obtain ⟨out, hout, hloop, hleft, hlast⟩ :=
            @ih left (store buffer total (b :: rest)) (total + (b :: rest).length)
              (by omega) (by omega)
          refine ⟨out, by rw [readCalls, hread]; exact hout, ?_, ?_, ?_⟩
          · have hflat' : left.chunks.flatten = left.bytes := rfl
            rw [hloop, readLoop_eq (by omega), hflat', hbytes, hroom, store_append,
              List.take_append, List.take_of_length_le hfits, List.length_append,
              List.length_append, hending]
            simp only [Nat.add_assoc]
          · rw [hleft, hbytes, hroom, List.drop_append, List.drop_of_length_le hfits,
              List.nil_append]
          · rw [hlast, hbytes, hending, List.length_append, Nat.add_assoc]

/-- **What the read loop leaves.** On every socket the loop ends, as `readLoop`
does, after at most one `read` more than the buffer has bytes; and it closes
only what is closed or failed and leaves nothing unread on what stays open
if and only if the event does not fill the buffer or the peer has closed. -/
theorem drains_iff (inbox : Inbox UInt8) (buffer : ℕ → UInt8) :
    ∃ out, readCalls (kBufferWrittableSize + 1) inbox buffer 0 = some out ∧
      (out.buffer, out.total, out.done) = readLoop inbox.ending inbox.chunks buffer 0 ∧
      (Drains inbox out ↔
        inbox.bytes.length < kBufferWrittableSize ∨ inbox.ending = .endOfFile) := by
  obtain ⟨out, hout, hloop, hleft, hlast⟩ := @readCalls_spec inbox buffer 0
    (kBufferWrittableSize + 1) (Nat.zero_le _) (Nat.lt_succ_self _)
  refine ⟨out, hout, hloop, ?_⟩
  rw [readLoop_eq (Nat.zero_le _)] at hloop
  have hdone : out.done = (decide (kBufferWrittableSize ≤ 0 + inbox.bytes.length) ||
      decide (inbox.ending ≠ .eagain)) := congrArg (fun loop => loop.2.2) hloop
  rw [Nat.zero_add] at hdone hlast
  constructor
  · intro hdrains
    by_contra hnot
    obtain ⟨hlong, hopen⟩ := not_or.mp hnot
    rw [if_neg hlong] at hlast
    have hclosed : out.done = true := by simp [hdone, Nat.le_of_not_lt hlong]
    rcases hdrains.closed hclosed with h | h
    · exact hopen h
    · rw [hlast] at h
      cases h
  · intro hwhen
    refine ⟨fun hclosed => ?_, fun hopen => ?_⟩
    · rcases hwhen with hshort | hend
      · rw [if_pos hshort] at hlast
        rw [hlast]
        cases hend : inbox.ending with
        | eagain => simp [hdone, hend, Nat.not_le_of_lt hshort] at hclosed
        | endOfFile => exact .inl rfl
        | error => exact .inr rfl
      · exact .inl hend
    · have hshort : inbox.bytes.length < kBufferWrittableSize := by
        by_contra hlong
        simp [hdone, Nat.le_of_not_lt hlong] at hopen
      rw [hleft, Nat.sub_zero, List.drop_of_length_le (Nat.le_of_lt hshort)]

/-- 1024 bytes and no more, on a connection that stays open. -/
def fillingInbox : Inbox UInt8 where
  chunks := [List.replicate kBufferWrittableSize 65]
  ending := .eagain
  nonempty := fun _ h => (List.mem_singleton.mp h).symm ▸ List.cons_ne_nil 65 _

/-- **A full buffer** closes a connection that the peer has not closed. -/
theorem not_drains_filling :
    (readCalls (kBufferWrittableSize + 1) fillingInbox (fun _ => 0) 0).map
        (fun out => (out.done, out.last)) = some (true, .got []) ∧
      fillingInbox.ending = .eagain :=
  ⟨by decide +kernel, rfl⟩

end Rinha
