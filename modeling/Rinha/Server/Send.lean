import Rinha.Server.Model.RequestProcessor
/-!
# What the send loop leaves on a connection

The loop sends a response in order and nothing twice (`sendLoop_spec`),
and it ends with all of it sent or the connection closed, but for one of
its exits: a socket that is full is taken for a response that is sent.
-/

namespace Rinha

variable {response wire : Bytes} {results : List WriteResult} {remaining writeCount count : ℕ}
variable {closed : Bool}

/-- What `write` can return, one after the other: no more than is left. -/
def CanReturn : ℕ → List WriteResult → Prop
  | remaining, .wrote count :: results =>
      0 < remaining → count ≤ remaining ∧ CanReturn (remaining - count) results
  | _, _ => True

/-- The socket is full before all of it is sent: so far every `write` took
some of it, and the next one says `EAGAIN`. -/
def FillsUp (length : ℕ) (results : List WriteResult) : Prop :=
  ∃ (counts : List ℕ) (rest : List WriteResult),
    results = counts.map .wrote ++ .eagain :: rest ∧ (∀ count ∈ counts, 0 < count) ∧
    counts.sum < length

/-! ## One result -/

theorem not_fillsUp_zero : ¬FillsUp 0 results := by
  rintro ⟨counts, -, -, -, h⟩
  exact Nat.not_lt_zero _ h

theorem fillsUp_eagain : FillsUp remaining (.eagain :: results) ↔ 0 < remaining := by
  constructor
  · rintro ⟨counts, rest, -, -, h⟩
    omega
  · exact fun h => ⟨[], results, rfl, nofun, h⟩

theorem not_fillsUp_error : ¬FillsUp remaining (.error :: results) := by
  rintro ⟨counts, rest, h, -⟩
  cases counts <;> cases h

theorem fillsUp_wrote : FillsUp remaining (.wrote count :: results) ↔
    0 < count ∧ FillsUp (remaining - count) results := by
  constructor
  · rintro ⟨counts, rest, h, hpos, hsum⟩
    cases counts with
    | nil => cases h
    | cons first counts =>
        obtain ⟨hfirst, rfl⟩ := List.cons.inj h
        cases hfirst
        rw [List.sum_cons] at hsum
        exact ⟨hpos count (by simp), counts, rest, rfl, fun c hc => hpos c (by simp [hc]), by omega⟩
  · rintro ⟨hcount, counts, rest, rfl, hpos, hsum⟩
    refine ⟨count :: counts, rest, rfl, fun c hc => ?_, by rw [List.sum_cons]; omega⟩
    rcases List.mem_cons.mp hc with rfl | hc
    · exact hcount
    · exact hpos c hc

/-! ## The loop -/

/-- With all of it sent the loop ends. -/
theorem sendLoop_of_all (results : List WriteResult) :
    sendLoop response results response.length (response.take response.length) =
      some (response, false) := by
  cases results <;> simp [sendLoop]

/-- With less of it sent the socket has not taken the response. -/
theorem take_ne (h : writeCount < response.length) : response.take writeCount ≠ response :=
  fun heq => by
    have hlen := congrArg List.length heq
    rw [List.length_take_of_le (Nat.le_of_lt h)] at hlen
    omega

/-- What is to be said of the loop from a count on: it ends once there are as
many results as bytes, it has then sent the bytes up to some count, and
these are all or the connection is closed if and only if the socket did not
fill up. -/
def SendSpec (response : Bytes) (results : List WriteResult) (writeCount : ℕ) : Prop :=
  (response.length ≤ writeCount + results.length →
      (sendLoop response results writeCount (response.take writeCount)).isSome) ∧
    ∀ wire closed,
      sendLoop response results writeCount (response.take writeCount) = some (wire, closed) →
      (∃ n, wire = response.take n) ∧
        ((wire = response ∨ closed = true) ↔
          ¬FillsUp (response.length - writeCount) results)

/-- At an exit there is one thing to be shown. -/
theorem SendSpec.of_exit {n : ℕ}
    (hrun : sendLoop response results writeCount (response.take writeCount) =
      some (response.take n, closed))
    (hexit : (response.take n = response ∨ closed = true) ↔
      ¬FillsUp (response.length - writeCount) results) :
    SendSpec response results writeCount := by
  rw [SendSpec, hrun]
  refine ⟨fun _ => rfl, fun wire closed h => ?_⟩
  cases h
  exact ⟨⟨n, rfl⟩, hexit⟩

/-- With all of it sent there is nothing to fill up. -/
theorem SendSpec.of_all (results : List WriteResult) :
    SendSpec response results response.length := by
  refine .of_exit ((sendLoop_of_all results).trans (by rw [List.take_length])) ?_
  refine iff_of_true (.inl List.take_length) ?_
  rw [Nat.sub_self]
  exact not_fillsUp_zero

/-- **The send loop** keeps to it from any count on. -/
theorem sendLoop_spec (hcount : writeCount ≤ response.length)
    (hresults : CanReturn (response.length - writeCount) results) :
    SendSpec response results writeCount := by
  induction results generalizing writeCount with
  | nil =>
      rcases Nat.lt_or_eq_of_le hcount with hlt | rfl
      · have hnone : sendLoop response [] writeCount (response.take writeCount) = none := by
          rw [sendLoop, if_pos hlt]
        rw [SendSpec, hnone]
        exact ⟨fun hlen => absurd hlen (by simp; omega), nofun⟩
      · exact .of_all []
  | cons result results ih =>
      rcases Nat.lt_or_eq_of_le hcount with hlt | rfl
      · cases result with
        | eagain =>
            -- the loop takes this for a response that is sent
            refine .of_exit (by rw [sendLoop, if_pos hlt]) ?_
            refine iff_of_false ?_ (not_not.mpr (fillsUp_eagain.mpr (by omega)))
            rintro (heq | hclosed)
            · exact take_ne hlt heq
            · cases hclosed
        | error =>
            exact .of_exit (by rw [sendLoop, if_pos hlt])
              (iff_of_true (.inr rfl) not_fillsUp_error)
        | wrote count =>
            obtain ⟨hfits, hrest⟩ := hresults (by omega)
            by_cases hzero : count = 0
            -- a count of 0 closes the connection
            · refine .of_exit (by rw [sendLoop, if_pos hlt]; exact if_pos hzero) ?_
              refine iff_of_true (.inr rfl) fun hfills => ?_
              exact absurd (fillsUp_wrote.mp hfills).1 (by omega)
            -- what is sent is still a prefix, and the results behind are those for the rest
            · have htake : response.take writeCount ++ (response.drop writeCount).take count =
                  response.take (writeCount + count) := List.take_add.symm
              have hnext : response.length - (writeCount + count) =
                  response.length - writeCount - count := by omega
              obtain ⟨hends, hspec⟩ := @ih (writeCount + count) (by omega) (hnext ▸ hrest)
              simp only [SendSpec, sendLoop, if_pos hlt, if_neg hzero, htake]
              refine ⟨fun hlen => hends (by rw [List.length_cons] at hlen; omega),
                fun wire closed h => ?_⟩
              obtain ⟨hpart, hiff⟩ := hspec wire closed h
              refine ⟨hpart, hiff.trans (not_congr ?_)⟩
              rw [fillsUp_wrote, hnext, and_iff_right (by omega)]
      · exact .of_all _

/-- **Sent or closed.** The send loop ends, with a part of the response sent
in order and nothing twice; and it ends with all of the response sent or
with the connection closed if and only if the socket does not fill up
before. -/
theorem sent_or_closed_iff (response : Bytes) (results : List WriteResult)
    (hresults : CanReturn response.length results) :
    (response.length ≤ results.length → (sendLoop response results 0 []).isSome) ∧
      ∀ wire closed, sendLoop response results 0 [] = some (wire, closed) →
        wire <+: response ∧
          ((wire = response ∨ closed = true) ↔ ¬FillsUp response.length results) := by
  obtain ⟨hends, hspec⟩ := @sendLoop_spec response results 0 (Nat.zero_le _) hresults
  rw [Nat.zero_add, List.take_zero] at hends
  refine ⟨hends, fun wire closed h => ?_⟩
  rw [List.take_zero, Nat.sub_zero] at hspec
  obtain ⟨⟨n, rfl⟩, hiff⟩ := hspec wire closed h
  exact ⟨List.take_prefix n response, hiff⟩

/-- A `404` in two writes. -/
theorem sent_or_closed_twice :
    sendLoop kNotFoundHeader [.wrote 10, .wrote 35] 0 [] = some (kNotFoundHeader, false) ∧
      ¬FillsUp kNotFoundHeader.length [.wrote 10, .wrote 35] := by
  have hsend : sendLoop kNotFoundHeader [.wrote 10, .wrote 35] 0 [] =
      some (kNotFoundHeader, false) := by decide +kernel
  exact ⟨hsend, (((sent_or_closed_iff kNotFoundHeader [.wrote 10, .wrote 35]
    fun _ => ⟨by decide, fun _ => ⟨by decide, trivial⟩⟩).2 _ _ hsend).2).mp (.inl rfl)⟩

/-- **A truncated response** is left on a connection that stays open. -/
theorem not_sent_or_closed_full :
    sendLoop kNotFoundHeader [.wrote 10, .eagain] 0 [] = some (Text.bytes "HTTP/1.1 4", false) ∧
      Text.bytes "HTTP/1.1 4" ≠ kNotFoundHeader :=
  ⟨by decide +kernel, by decide +kernel⟩

end Rinha
