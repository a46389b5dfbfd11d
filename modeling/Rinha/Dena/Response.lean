import Mathlib.Data.List.TakeWhile
import Rinha.Dena.Request
/-!
# Responses, where they lie

The rows of a response are not copied: `get_next_row` unescapes each value
over itself and hands out where it is. It writes only between where it
began and where it stopped, so what it handed out before stays good, and
what it has still to read stays as it came.
-/

namespace Rinha
namespace Dena
namespace Hstcpcli

variable {mem mem' : ℕ → UInt8} {start finish n k : ℕ} {c : UInt8}

/-! ## Tokens -/

/-- `memchr_char` finds the first. -/
theorem memchr_eq : memchr mem c n start =
    if c ∈ Memory.slice mem start n then
      some (start + ((Memory.slice mem start n).takeWhile (· ≠ c)).length)
    else none := by
  induction n generalizing start with
  | zero => rfl
  | succ n ih =>
      rw [memchr, Memory.slice_succ, ih]
      by_cases hc : mem start = c
      · simp [hc]
      · have hc' : c ≠ mem start := fun h => hc h.symm
        rw [if_neg hc, List.takeWhile_cons_of_pos (by simpa using hc), List.length_cons,
          Nat.add_right_comm, ← Nat.add_assoc]
        simp only [List.mem_cons, hc', false_or]

/-- `read_token` stops at the next tab, or at the end. -/
theorem readToken_eq (h : start ≤ finish) : readToken mem start finish =
    start + ((Memory.slice mem start (finish - start)).takeWhile (· ≠ tab)).length := by
  rw [readToken, memchr_eq]
  split
  · rfl
  · rename_i hnone
    have hall : (Memory.slice mem start (finish - start)).takeWhile (· ≠ tab) =
        Memory.slice mem start (finish - start) := by
      rw [List.takeWhile_eq_self_iff]
      intro x hx
      simpa using fun heq : x = tab => hnone (heq ▸ hx)
    rw [hall, Memory.length_slice, Option.getD_none]
    omega

theorem readToken_bounds (mem : ℕ → UInt8) (h : start ≤ finish) :
    start ≤ readToken mem start finish ∧ readToken mem start finish ≤ finish := by
  have hle := (List.takeWhile_prefix (l := Memory.slice mem start (finish - start))
    (· ≠ tab)).length_le
  rw [Memory.length_slice] at hle
  rw [readToken_eq h]
  omega

/-- What `read_token` passes over. -/
theorem slice_readToken (mem : ℕ → UInt8) (h : start ≤ finish) :
    Memory.slice mem start (readToken mem start finish - start) =
      (Memory.slice mem start (finish - start)).takeWhile (· ≠ tab) := by
  rw [readToken_eq h, Nat.add_sub_cancel_left, Memory.slice_takeWhile]

/-- And what it leaves. -/
theorem slice_of_readToken (mem : ℕ → UInt8) (h : start ≤ finish) :
    Memory.slice mem (readToken mem start finish) (finish - readToken mem start finish) =
      (Memory.slice mem start (finish - start)).dropWhile (· ≠ tab) := by
  rw [← Memory.slice_dropWhile, readToken_eq h, Nat.sub_add_eq]

/-- `is_null_expression` of a token. -/
theorem isNullExpression_iff : isNullExpression mem start (start + k) = true ↔
    Memory.slice mem start k = [0] := by
  rw [isNullExpression]
  rcases k with _ | _ | k
  · simp
  · simp [Memory.slice_succ]
  · simp [Memory.slice_succ]

/-! ## Rows -/

/-- The tokens of a text that begins with a tab, or is empty. -/
def tokensOf (text : Bytes) : List (Option Bytes) := (Delimited.items tab text).map readValue

/-- A row of so many fields: those there are, and empty ones. -/
def rowOf (n : ℕ) (fields : List (Option Bytes)) : List (Option Bytes) :=
  fields.take n ++ List.replicate (n - (fields.take n).length) (some [])

theorem rowOf_nil : rowOf (n + 1) [] = some [] :: rowOf n [] := by
  simp [rowOf, List.replicate_succ]

theorem rowOf_cons {field : Option Bytes} {fields : List (Option Bytes)} :
    rowOf (n + 1) (field :: fields) = field :: rowOf n fields := by
  simp [rowOf]

/-- What references point at in a memory. -/
def values (mem : ℕ → UInt8) (refs : List (Option (ℕ × ℕ))) : List (Option Bytes) :=
  refs.map fun ref => ref.map fun (start, size) => Memory.slice mem start size

/-- References into a range. -/
def Within (refs : List (Option (ℕ × ℕ))) (start finish : ℕ) : Prop :=
  ∀ ref ∈ refs, ∀ p ∈ ref, start ≤ p.1 ∧ p.1 + p.2 ≤ finish

/-- Nothing but a range has changed. -/
def Frame (mem mem' : ℕ → UInt8) (start finish : ℕ) : Prop :=
  ∀ i, i < start ∨ finish ≤ i → mem' i = mem i

variable {refs : List (Option (ℕ × ℕ))}

theorem Within.mono (h : Within refs start finish) {start' finish' : ℕ} (hstart : start' ≤ start)
    (hfinish : finish ≤ finish') : Within refs start' finish' := by
  intro ref href p hp
  have := h ref href p hp
  omega

/-- **References stay good** while what they point into stays. -/
theorem values_congr (hrefs : Within refs start finish)
    (h : ∀ i, start ≤ i → i < finish → mem' i = mem i) : values mem' refs = values mem refs := by
  refine List.map_congr_left fun ref href => ?_
  cases ref with
  | none => rfl
  | some p =>
      obtain ⟨hlo, hhi⟩ := hrefs _ href p rfl
      refine congrArg some (Memory.slice_congr fun i hi hlt => ?_)
      exact h i (by omega) (by omega)

theorem slice_of_frame (h : Frame mem mem' start finish) (size : ℕ) :
    Memory.slice mem' finish size = Memory.slice mem finish size :=
  Memory.slice_congr fun i hi _ => h i (.inr hi)

theorem tokensOf_cons {b : UInt8} {rest : Bytes} : tokensOf (b :: rest) =
    readValue (rest.takeWhile (· ≠ tab)) :: tokensOf (rest.dropWhile (· ≠ tab)) := by
  rw [tokensOf, Delimited.items_cons, List.map_cons]
  rfl

/-- What the loop over a row's fields does. -/
structure RowRead (n : ℕ) (mem : ℕ → UInt8) (start finish : ℕ)
    (out : List (Option (ℕ × ℕ)) × (ℕ → UInt8) × ℕ) : Prop where
  start_le : start ≤ out.2.2
  le_finish : out.2.2 ≤ finish
  values : values out.2.1 out.1 =
    rowOf n (tokensOf (Memory.slice mem start (finish - start)))
  rest : tokensOf (Memory.slice out.2.1 out.2.2 (finish - out.2.2)) =
    (tokensOf (Memory.slice mem start (finish - start))).drop n
  frame : Frame mem out.2.1 start out.2.2
  within : Within out.1 start out.2.2

/-- One more field, in front. The value it leaves at `fldBegin` is not
touched by the fields behind it. -/
theorem RowRead.cons {fldBegin fldEnd : ℕ} {ref : Option (ℕ × ℕ)}
    {out : List (Option (ℕ × ℕ)) × (ℕ → UInt8) × ℕ} (h : RowRead n mem' fldEnd finish out)
    (field : Option Bytes) (hstart : start ≤ fldBegin) (hend : fldBegin ≤ fldEnd)
    (htokens : rowOf (n + 1) (tokensOf (Memory.slice mem start (finish - start))) =
      field :: rowOf n (tokensOf (Memory.slice mem fldEnd (finish - fldEnd))))
    (hdrop : (tokensOf (Memory.slice mem start (finish - start))).drop (n + 1) =
      (tokensOf (Memory.slice mem fldEnd (finish - fldEnd))).drop n)
    (hframe : Frame mem mem' start fldEnd) (hwithin : Within [ref] start fldEnd)
    (hvalue : Hstcpcli.values mem' [ref] = [field]) :
    RowRead (n + 1) mem start finish (ref :: out.1, out.2) where
  start_le := by
    have := h.start_le
    simp only
    omega
  le_finish := h.le_finish
  values := by
    have hslice := slice_of_frame hframe (finish - fldEnd)
    have hkept : Hstcpcli.values out.2.1 [ref] = Hstcpcli.values mem' [ref] :=
      values_congr hwithin fun i _ hi => h.frame i (.inl hi)
    have hcons : Hstcpcli.values out.2.1 (ref :: out.1) =
        Hstcpcli.values out.2.1 [ref] ++ Hstcpcli.values out.2.1 out.1 := rfl
    rw [hcons, hkept, hvalue, h.values, hslice, htokens, List.singleton_append]
  rest := by
    rw [h.rest, slice_of_frame hframe, hdrop]
  frame := by
    intro i hi
    have := h.start_le
    simp only at hi
    rw [h.frame i (by omega), hframe i (by omega)]
  within := by
    intro r hr p hp
    have := h.start_le
    rcases List.mem_cons.mp hr with rfl | hr
    · have := hwithin _ (List.mem_singleton_self _) p hp
      simp only
      omega
    · have := h.within r hr p hp
      simp only
      omega

/-- **The loop over a row's fields**: the fields are the next tokens, each
as it was escaped, and empty where the line has no more. -/
theorem nextFields_spec (n : ℕ) (mem : ℕ → UInt8) (h : start ≤ finish) :
    RowRead n mem start finish (nextFields n mem start finish) := by
  induction n generalizing mem start with
  | zero =>
      exact ⟨Nat.le_refl _, h, rfl, rfl, fun _ _ => rfl, nofun⟩
  | succ n ih =>
      rw [nextFields]
      rcases Nat.eq_or_lt_of_le h with rfl | hlt
      · -- the line is used up
        have htoken : readToken mem start start = start := by
          have := readToken_bounds mem h
          omega
        have hempty : tokensOf (Memory.slice mem start (start - start)) = [] := by
          rw [Nat.sub_self]
          rfl
        have hnull : isNullExpression mem start start = false := by simp [isNullExpression]
        simp only [skipOne, ne_eq, not_true_eq_false, if_false, htoken, hnull, Bool.false_eq_true,
          Nat.sub_self, unescapeString]
        refine (ih mem h).cons (some []) (Nat.le_refl _) (Nat.le_refl _) ?_ ?_ (fun _ _ => rfl)
          ?_ rfl
        · rw [hempty, rowOf_nil]
        · rw [hempty, List.drop_nil, List.drop_nil]
        · intro ref href p hp
          rw [List.mem_singleton.mp href, Option.mem_some_iff] at hp
          subst hp
          exact ⟨Nat.le_refl _, Nat.le_refl _⟩
      · have hskip : skipOne start finish = start + 1 := if_pos (by omega)
        obtain ⟨hbegin, hend⟩ := readToken_bounds mem hlt
        have hslice : Memory.slice mem start (finish - start) =
            mem start :: Memory.slice mem (start + 1) (finish - (start + 1)) := by
          rw [← Memory.slice_succ]
          congr 1
          omega
        have htokens : tokensOf (Memory.slice mem start (finish - start)) =
            readValue (Memory.slice mem (start + 1)
              (readToken mem (start + 1) finish - (start + 1))) ::
              tokensOf (Memory.slice mem (readToken mem (start + 1) finish)
                (finish - readToken mem (start + 1) finish)) := by
          rw [hslice, tokensOf_cons, slice_of_readToken mem hlt, slice_readToken mem hlt]
        rw [hskip]
        generalize readToken mem (start + 1) finish = fldEnd at hbegin hend htokens
        obtain ⟨k, rfl⟩ := Nat.exists_eq_add_of_le hbegin
        rw [Nat.add_sub_cancel_left] at htokens
        have hrow : ∀ fields : List (Option Bytes), rowOf (n + 1)
            (readValue (Memory.slice mem (start + 1) k) :: fields) =
              readValue (Memory.slice mem (start + 1) k) :: rowOf n fields := fun _ => rowOf_cons
        by_cases hnull : isNullExpression mem (start + 1) (start + 1 + k) = true
        · simp only [hnull, if_true]
          have hvalue : readValue (Memory.slice mem (start + 1) k) = none :=
            if_pos (isNullExpression_iff.mp hnull)
          refine (ih mem hend).cons none (Nat.le_succ _) hbegin ?_ ?_ (fun _ _ => rfl) ?_ rfl
          · rw [htokens, hrow, hvalue]
          · rw [htokens, List.drop_succ_cons]
          · intro ref href p hp
            rw [List.mem_singleton.mp href] at hp
            cases hp
        · have hlen := length_unescape_le (Memory.slice mem (start + 1) k)
          rw [Memory.length_slice] at hlen
          have hvalue : readValue (Memory.slice mem (start + 1) k) =
              some (unescape (Memory.slice mem (start + 1) k)).1 :=
            if_neg fun heq => hnull (isNullExpression_iff.mpr heq)
          simp only [hnull, if_false, Bool.false_eq_true, Nat.add_sub_cancel_left,
            unescapeString_eq (Nat.le_refl (start + 1))]
          refine (ih _ hend).cons (some (unescape (Memory.slice mem (start + 1) k)).1)
            (Nat.le_succ _) hbegin ?_ ?_ ?_ ?_ ?_
          · rw [htokens, hrow, hvalue]
          · rw [htokens, List.drop_succ_cons]
          · intro i hi
            rcases hi with hi | hi
            · exact Memory.put_of_lt (by omega)
            · exact Memory.put_of_ge (by omega)
          · intro ref href p hp
            rw [List.mem_singleton.mp href, Option.mem_some_iff] at hp
            subst hp
            simp only
            omega
          · exact congrArg (fun v => [some v]) Memory.slice_put_self

/-! ## The client's rows -/

/-- What of the response is not handed out yet. -/
def unread (c : Hstcpcli) : Bytes :=
  Memory.slice c.readbuf.buffer (c.readbuf.beginOffset + c.curRowOffset)
    (c.responseEndOffset - 1 - c.curRowOffset)

/-- And the fields in it. -/
def pending (c : Hstcpcli) : List (Option Bytes) := tokensOf c.unread

/-- What of the contents is behind the response. -/
def behind (c : Hstcpcli) : Bytes := c.readbuf.contents.drop c.responseEndOffset

/-- The response is in the buffer, and reading it has not gone past it. -/
structure Buffered (c : Hstcpcli) : Prop where
  end_le : c.responseEndOffset ≤ c.readbuf.size
  cur_le : c.curRowOffset ≤ c.responseEndOffset - 1

variable {c c' : Hstcpcli}

theorem pending_eq_nil_iff :
    c.pending = [] ↔ c.responseEndOffset - 1 ≤ c.curRowOffset := by
  rw [pending, tokensOf, List.map_eq_nil_iff, Delimited.items_eq_nil_iff, unread,
    ← List.length_eq_zero_iff, Memory.length_slice]
  omega

/-- No fields, or none left: there is no row. -/
theorem getNextRow_none (h : c.numFlds = 0 ∨ c.pending = []) : c.getNextRow = (none, c) := by
  rw [getNextRow]
  rcases h with h | h
  · rw [if_pos h]
  · rw [pending_eq_nil_iff] at h
    split
    · rfl
    · rw [if_pos (by omega)]

/-- What a `get_next_row` that finds a row has done to the client. -/
structure NextRow (c : Hstcpcli) (refs : List (Option (ℕ × ℕ))) (c' : Hstcpcli) : Prop where
  buffered : c'.Buffered
  cur_le : c.curRowOffset ≤ c'.curRowOffset
  deref : c'.deref refs = rowOf c.numFlds c.pending
  pending : c'.pending = c.pending.drop c.numFlds
  within : Within refs (c.readbuf.beginOffset + c.curRowOffset)
    (c'.readbuf.beginOffset + c'.curRowOffset)
  frame : Frame c.readbuf.buffer c'.readbuf.buffer (c.readbuf.beginOffset + c.curRowOffset)
    (c'.readbuf.beginOffset + c'.curRowOffset)
  others : ∃ buffer flds cur, c' =
    { c with readbuf := { c.readbuf with buffer := buffer }, flds := flds, curRowOffset := cur }

/-- **A row.** -/
theorem getNextRow_some (hbuf : c.Buffered) (hflds : c.numFlds ≠ 0) (h : c.pending ≠ []) :
    ∃ refs c', c.getNextRow = (some refs, c') ∧ NextRow c refs c' := by
  obtain ⟨hend, hcur⟩ := hbuf
  rw [Ne, pending_eq_nil_iff, Nat.not_le] at h
  have hlt : c.readbuf.beginOffset + c.curRowOffset <
      c.readbuf.beginOffset + c.responseEndOffset - 1 := by omega
  have hread := nextFields_spec c.numFlds c.readbuf.buffer (Nat.le_of_lt hlt)
  rw [getNextRow, if_neg hflds, if_neg (Nat.not_le.mpr hlt)]
  obtain ⟨hstart, hfinish, hvalues, hrest, hframe, hwithin⟩ := hread
  generalize nextFields c.numFlds c.readbuf.buffer
    (c.readbuf.beginOffset + c.curRowOffset)
    (c.readbuf.beginOffset + c.responseEndOffset - 1) = out at *
  obtain ⟨refs, mem, start⟩ := out
  simp only at hstart hfinish hvalues hrest hframe hwithin
  have hback : c.readbuf.beginOffset + (start - c.readbuf.beginOffset) = start := by omega
  have hsize : c.readbuf.beginOffset + c.responseEndOffset - 1 -
      (c.readbuf.beginOffset + c.curRowOffset) = c.responseEndOffset - 1 - c.curRowOffset := by omega
  refine ⟨refs, _, rfl, ⟨⟨hend, ?_⟩, ?_, ?_, ?_, ?_, ?_, ⟨_, _, _, rfl⟩⟩⟩
  · simp only
    omega
  · simp only
    omega
  · rw [hsize] at hvalues
    exact hvalues
  · rw [hsize] at hrest
    rw [pending, pending, unread, unread, ← hrest]
    simp only
    rw [hback]
    congr 2
    omega
  · simp only [hback]
    exact hwithin
  · simp only [hback]
    exact hframe

/-- The other responses stay as they came. -/
theorem NextRow.behind_eq {refs : List (Option (ℕ × ℕ))} (h : NextRow c refs c')
    (hbuf : c.Buffered) : c'.behind = c.behind := by
  obtain ⟨buffer, flds, cur, rfl⟩ := h.others
  have hcur := h.buffered.cur_le
  have hend := hbuf.end_le
  have hframe := h.frame
  simp only at hcur hframe
  unfold behind StringBuffer.contents
  rw [Memory.drop_slice (by simpa [StringBuffer.size] using hend), Memory.drop_slice hend]
  refine Memory.slice_congr fun i hi _ => hframe i (.inr ?_)
  simp only at hi
  omega

/-- `while ((row = get_next_row()) != 0)`, at most so many times. -/
def rows : ℕ → Hstcpcli → List (List (Option (ℕ × ℕ))) × Hstcpcli
  | 0, c => ([], c)
  | left + 1, c =>
      match c.getNextRow with
      | (none, c) => ([], c)
      | (some refs, c) => ((refs :: (rows left c).1), (rows left c).2)

/-- Fields, cut into rows, at most so many. -/
def cut (numFlds : ℕ) : ℕ → List (Option Bytes) → List (List (Option Bytes))
  | 0, _ => []
  | left + 1, fields =>
      if numFlds = 0 ∨ fields = [] then []
      else rowOf numFlds fields :: cut numFlds left (fields.drop numFlds)

/-- What the loop over the rows leaves. -/
structure RowsRead (left : ℕ) (c : Hstcpcli) (out : List (List (Option (ℕ × ℕ))) × Hstcpcli) :
    Prop where
  buffered : out.2.Buffered
  cur_le : c.curRowOffset ≤ out.2.curRowOffset
  deref : out.1.map out.2.deref = cut c.numFlds left c.pending
  frame : Frame c.readbuf.buffer out.2.readbuf.buffer (c.readbuf.beginOffset + c.curRowOffset)
    (out.2.readbuf.beginOffset + out.2.curRowOffset)
  behind : out.2.behind = c.behind
  others : ∃ buffer flds cur, out.2 =
    { c with readbuf := { c.readbuf with buffer := buffer }, flds := flds, curRowOffset := cur }

/-- One more row, in front: what was handed out of it is not touched by the
rows behind it. -/
theorem RowsRead.cons {left : ℕ} {refs : List (Option (ℕ × ℕ))}
    {out : List (List (Option (ℕ × ℕ))) × Hstcpcli} (hrow : NextRow c refs c')
    (h : RowsRead left c' out) (hbuf : c.Buffered) (hflds : c.numFlds ≠ 0)
    (hpending : c.pending ≠ []) : RowsRead (left + 1) c (refs :: out.1, out.2) := by
  obtain ⟨buffer, flds, cur, hc'⟩ := hrow.others
  obtain ⟨buffer', flds', cur', hout⟩ := h.others
  have hbegin : c'.readbuf.beginOffset = c.readbuf.beginOffset := by rw [hc']
  have hbegin' : out.2.readbuf.beginOffset = c'.readbuf.beginOffset := by rw [hout]
  have hcur := hrow.cur_le
  have hcur' := h.cur_le
  refine ⟨h.buffered, Nat.le_trans hcur hcur', ?_, fun i hi => ?_, ?_, ?_⟩
  · have hkept : out.2.deref refs = c'.deref refs :=
      values_congr hrow.within fun i _ hi => h.frame i (.inl hi)
    have hflds' : c'.numFlds = c.numFlds := by rw [hc']
    rw [List.map_cons, hkept, hrow.deref, h.deref, cut, if_neg (not_or.mpr ⟨hflds, hpending⟩),
      hrow.pending, hflds']
  · simp only at hi
    rw [h.frame i (by omega), hrow.frame i (by omega)]
  · rw [← hrow.behind_eq hbuf]
    exact h.behind
  · refine ⟨buffer', flds', cur', ?_⟩
    simp only
    rw [hout, hc']

/-- **The rows of a response.** Every reference handed out, in whichever row,
points at its value when the last row has been read. -/
theorem rows_spec (left : ℕ) (hbuf : c.Buffered) : RowsRead left c (rows left c) := by
  induction left generalizing c with
  | zero => exact ⟨hbuf, Nat.le_refl _, rfl, fun _ _ => rfl, rfl, ⟨_, _, _, rfl⟩⟩
  | succ left ih =>
      rw [rows]
      by_cases hdone : c.numFlds = 0 ∨ c.pending = []
      · rw [getNextRow_none hdone]
        exact ⟨hbuf, Nat.le_refl _, (if_pos hdone).symm, fun _ _ => rfl, rfl, ⟨_, _, _, rfl⟩⟩
      · obtain ⟨hflds, hpending⟩ := not_or.mp hdone
        obtain ⟨refs, c', hrow, hnext⟩ := getNextRow_some hbuf hflds hpending
        rw [hrow]
        exact (ih hnext.buffered).cons hnext hbuf hflds hpending

/-! ## The line -/

/-- A response line: the code, the number of fields, and the tokens behind
them. -/
structure Line where
  code : UInt32
  numFlds : UInt32
  body : List Bytes

def readLine (line : Bytes) : Line :=
  let its := Delimited.items tab (line.dropWhile (· ≠ tab))
  { code := ui32 (line.takeWhile (· ≠ tab)), numFlds := ui32 (its.headD []), body := its.tail }

/-- The text of an error. -/
def Line.error (l : Line) : Bytes :=
  if l.body.headD [] = [] then Text.bytes "unknown_error" else l.body.headD []

variable {line rest : Bytes}

/-- What stands between one separator and the next. -/
theorem token_eq (mem : ℕ → UInt8) (h : start ≤ finish) :
    Memory.slice mem (skipOne start finish)
        (readToken mem (skipOne start finish) finish - skipOne start finish) =
      (Delimited.items tab (Memory.slice mem start (finish - start))).headD [] ∧
    Delimited.items tab (Memory.slice mem (readToken mem (skipOne start finish) finish)
        (finish - readToken mem (skipOne start finish) finish)) =
      (Delimited.items tab (Memory.slice mem start (finish - start))).tail := by
  rcases Nat.eq_or_lt_of_le h with rfl | hlt
  · have htoken : readToken mem start start = start := by
      have := readToken_bounds mem h
      omega
    simp [skipOne, htoken]
  · have hskip : skipOne start finish = start + 1 := if_pos (by omega)
    have hslice : Memory.slice mem start (finish - start) =
        mem start :: Memory.slice mem (start + 1) (finish - (start + 1)) := by
      rw [← Memory.slice_succ]
      congr 1
      omega
    rw [hskip, slice_readToken mem hlt, slice_of_readToken mem hlt, hslice, Delimited.items_cons]
    exact ⟨rfl, rfl⟩

/-- **`response_recv`, from the line on.** -/
theorem parseResponse_spec (hline : Memory.slice c.readbuf.buffer c.readbuf.beginOffset
      (c.responseEndOffset - 1) = line) (hend : 0 < c.responseEndOffset) :
    if (readLine line).code ≠ 0 then
      c.parseResponse = ((readLine line).code.toInt32, (readLine line).numFlds.toNat,
        { c with
          numFlds := (readLine line).numFlds.toNat
          errorCode := (readLine line).code.toInt32
          errorStr := (readLine line).error })
    else ∃ cur, c.parseResponse = (0, (readLine line).numFlds.toNat,
        { c with numFlds := (readLine line).numFlds.toNat, curRowOffset := cur }) ∧
      cur ≤ c.responseEndOffset - 1 ∧
      tokensOf (Memory.slice c.readbuf.buffer (c.readbuf.beginOffset + cur)
        (c.responseEndOffset - 1 - cur)) = (readLine line).body.map readValue := by
  obtain ⟨finish, hfinish⟩ : ∃ finish, finish = c.readbuf.beginOffset + c.responseEndOffset - 1 :=
    ⟨_, rfl⟩
  have hstart : c.readbuf.beginOffset ≤ finish := by omega
  have hsize : finish - c.readbuf.beginOffset = c.responseEndOffset - 1 := by omega
  -- the code, and what stands behind it
  have hcode := slice_readToken c.readbuf.buffer hstart
  have hmore := slice_of_readToken c.readbuf.buffer hstart
  rw [hsize, hline] at hcode hmore
  obtain ⟨hlo, hhi⟩ := readToken_bounds c.readbuf.buffer hstart
  rw [parseResponse]
  simp only [← hfinish, readUi32, hcode]
  generalize readToken c.readbuf.buffer c.readbuf.beginOffset finish = start at *
  -- the number of fields, and what stands behind it
  obtain ⟨hcount, hbody⟩ := token_eq c.readbuf.buffer hhi
  rw [hmore] at hcount hbody
  have hskip : start ≤ skipOne start finish ∧ skipOne start finish ≤ finish := by
    unfold skipOne
    split <;> omega
  obtain ⟨hlo', hhi'⟩ := readToken_bounds c.readbuf.buffer hskip.2
  rw [hcount]
  generalize readToken c.readbuf.buffer (skipOne start finish) finish = start' at *
  by_cases hzero : (readLine line).code ≠ 0
  · obtain ⟨herror, -⟩ := token_eq c.readbuf.buffer hhi'
    rw [hbody] at herror
    rw [if_pos hzero]
    simp only [herror]
    exact if_pos hzero
  · rw [if_neg hzero]
    refine ⟨start' - c.readbuf.beginOffset, if_neg hzero, by omega, ?_⟩
    have hback : c.readbuf.beginOffset + (start' - c.readbuf.beginOffset) = start' := by omega
    have hleft : c.responseEndOffset - 1 - (start' - c.readbuf.beginOffset) = finish - start' := by
      omega
    rw [hback, hleft, tokensOf, hbody]
    rfl

/-! ## Reading until there is a line -/

/-- A `read_more` that reads something puts it behind the contents. -/
theorem readMore_spec (h : c.inbox.bytes ≠ []) : ∃ bytes readbuf inbox,
    c.readMore = (true, { c with readbuf := readbuf, inbox := inbox }) ∧ bytes ≠ [] ∧
      readbuf.contents = c.readbuf.contents ++ bytes ∧
      c.inbox.bytes = bytes ++ inbox.bytes ∧ inbox.ending = c.inbox.ending := by
  have hsize : blockSize ≠ 0 := by decide
  obtain ⟨bytes, left, hread, hne, hlen, hbytes, hending⟩ := Inbox.read_of_ne_nil hsize h
  obtain ⟨b, bytes, rfl⟩ := List.exists_cons_of_ne_nil hne
  refine ⟨b :: bytes, _, left, ?_, hne, StringBuffer.contents_fill hlen, hbytes, hending⟩
  rw [readMore]
  simp only [hread]

/-- And one with nothing to read fails. -/
theorem readMore_of_nil (h : c.inbox.bytes = []) : ∃ c', c.readMore = (false, c') := by
  have hblock : blockSize ≠ 0 := by decide
  have hread := Inbox.read_of_nil hblock h
  rw [readMore]
  simp only [hread]
  cases c.inbox.ending <;> exact ⟨_, rfl⟩

/-- Where the first newline of the contents is. -/
theorem memchr_contents (c : Hstcpcli) :
    memchr c.readbuf.buffer newline c.readbuf.size c.readbuf.beginOffset =
      if newline ∈ c.readbuf.contents then
        some (c.readbuf.beginOffset + (c.readbuf.contents.takeWhile (· ≠ newline)).length)
      else none := memchr_eq

/-- **The read loop finds the line**, however the stream is cut: what is left
over is what came behind it. -/
theorem recvLoop_line {fuel : ℕ} (hfuel : c.inbox.bytes.length < fuel)
    (hstream : c.readbuf.contents ++ c.inbox.bytes = line ++ newline :: rest)
    (hline : newline ∉ line) : ∃ readbuf inbox more,
      recvLoop fuel c = (some (line.length + 1), { c with readbuf := readbuf, inbox := inbox }) ∧
        readbuf.contents = line ++ newline :: more ∧ more ++ inbox.bytes = rest ∧
        inbox.ending = c.inbox.ending := by
  induction fuel generalizing c with
  | zero => omega
  | succ fuel ih =>
      rw [recvLoop, memchr_contents]
      by_cases hmem : newline ∈ c.readbuf.contents
      · rw [if_pos hmem]
        obtain ⟨before, more, hcontents, hbefore⟩ := List.eq_append_cons_of_mem hmem
        rw [hcontents, List.append_assoc, List.cons_append] at hstream
        -- the first newline of the contents is the first of the stream
        obtain ⟨rfl, htail⟩ := Text.append_span_inj (p := (· ≠ newline))
          (fun x hx heq => hbefore (heq ▸ hx)) (fun x hx heq => hline (heq ▸ hx))
          (not_not_intro rfl) (not_not_intro rfl) hstream
        have htake : (before ++ newline :: more).takeWhile (· ≠ newline) = before := by
          rw [List.takeWhile_append_of_pos fun x hx => by
              simpa using fun heq : x = newline => hbefore (heq ▸ hx),
            List.takeWhile_cons_of_neg (by simp), List.append_nil]
        refine ⟨c.readbuf, c.inbox, more, ?_, hcontents, (List.cons.inj htail).2, rfl⟩
        rw [hcontents, htake]
        simp only [Prod.mk.injEq, Option.some.injEq, and_true]
        omega
      · rw [if_neg hmem]
        have hmore : c.inbox.bytes ≠ [] := by
          intro hnil
          rw [hnil, List.append_nil] at hstream
          rw [hstream] at hmem
          simp at hmem
        obtain ⟨bytes, readbuf, inbox, hread, hne, hcontents, hbytes, hending⟩ :=
          readMore_spec hmore
        have hlen : inbox.bytes.length < c.inbox.bytes.length := by
          have := List.length_pos_iff.mpr hne
          rw [hbytes, List.length_append]
          omega
        simp only [hread]
        obtain ⟨readbuf', inbox', more, hloop, hgot, hrest, hending'⟩ :=
          @ih { c with readbuf := readbuf, inbox := inbox } (by simp only; omega) (by
            simp only
            rw [hcontents, List.append_assoc, ← hbytes, hstream])
        exact ⟨readbuf', inbox', more, hloop, hgot, hrest, hending'.trans hending⟩

/-- Where there is none, the connection is given up. -/
theorem recvLoop_none {fuel : ℕ} (hfuel : c.inbox.bytes.length < fuel)
    (hstream : newline ∉ c.readbuf.contents ++ c.inbox.bytes) :
    ∃ c', recvLoop fuel c = (none, c') := by
  induction fuel generalizing c with
  | zero => omega
  | succ fuel ih =>
      have hmem : newline ∉ c.readbuf.contents := fun h => hstream (List.mem_append_left _ h)
      rw [recvLoop, memchr_contents, if_neg hmem]
      by_cases hmore : c.inbox.bytes = []
      · obtain ⟨c', hread⟩ := readMore_of_nil hmore
        simp only [hread]
        exact ⟨c', rfl⟩
      · obtain ⟨bytes, readbuf, inbox, hread, hne, hcontents, hbytes, -⟩ := readMore_spec hmore
        have hlen : inbox.bytes.length < c.inbox.bytes.length := by
          have := List.length_pos_iff.mpr hne
          rw [hbytes, List.length_append]
          omega
        simp only [hread]
        refine ih (by simp only; omega) ?_
        simp only
        rwa [hcontents, List.append_assoc, ← hbytes]

/-! ## `response_recv` -/

/-- A client that waits for a response. -/
structure Awaiting (c : Hstcpcli) : Prop where
  error : ¬c.errorCode < 0
  bufd : c.numReqBufd = 0
  sent : 0 < c.numReqSent
  rcvd : c.numReqRcvd = 0
  response : c.responseEndOffset = 0
  opened : c.fdOpen = true

/-- One that holds it, from a stream that went on. -/
structure Holding (c : Hstcpcli) (line rest : Bytes) (c' : Hstcpcli) : Prop where
  buffered : c'.Buffered
  stream : c'.behind ++ c'.inbox.bytes = rest
  ending : c'.inbox.ending = c.inbox.ending
  writebuf : c'.writebuf = c.writebuf
  opened : c'.fdOpen = c.fdOpen
  bufd : c'.numReqBufd = c.numReqBufd
  sent : c'.numReqSent = c.numReqSent - 1
  rcvd : c'.numReqRcvd = c.numReqRcvd + 1
  response : c'.responseEndOffset = line.length + 1
  errorCode : c'.errorCode = (readLine line).code.toInt32

/-- And has read nothing of it. -/
structure Received (c : Hstcpcli) (line rest : Bytes) (c' : Hstcpcli) : Prop
    extends Holding c line rest c' where
  numFlds : c'.numFlds = (readLine line).numFlds.toNat
  errorStr : (readLine line).code ≠ 0 → c'.errorStr = (readLine line).error
  pending : c'.pending =
    if (readLine line).code ≠ 0 then tokensOf line else (readLine line).body.map readValue

/-- The client as it goes into the loop. -/
def receiving (c : Hstcpcli) : Hstcpcli := { c.clearError with curRowOffset := 0, numFlds := 0 }

/-- The guards of `response_recv`, passed. -/
theorem Awaiting.responseRecv_eq (h : c.Awaiting) : c.responseRecv n =
    match recvLoop (c.inbox.bytes.length + 1) c.receiving with
    | (none, c) => (-1, 0, c.close.setError (-1) "read: eof")
    | (some offset, c) =>
        parseResponse { c with
          responseEndOffset := offset
          numReqSent := c.numReqSent - 1
          numReqRcvd := c.numReqRcvd + 1 } := by
  obtain ⟨herror, hbufd, hsent, hrcvd, hresponse, hopen⟩ := h
  have hsync : ¬(c.numReqBufd > 0 ∨ c.numReqSent = 0 ∨ c.numReqRcvd > 0 ∨
      c.responseEndOffset ≠ 0) := by omega
  have hfd : ¬c.fdOpen = false := by simp [hopen]
  rw [responseRecv, if_neg herror]
  exact (if_neg hsync).trans (if_neg hfd)

/-- **A response is received**, in however many pieces it comes. -/
theorem responseRecv_line (h : c.Awaiting)
    (hstream : c.readbuf.contents ++ c.inbox.bytes = line ++ newline :: rest)
    (hline : newline ∉ line) : ∃ c', c.responseRecv n =
      ((readLine line).code.toInt32, (readLine line).numFlds.toNat, c') ∧
        Received c line rest c' := by
  obtain ⟨readbuf, inbox, more, hloop, hcontents, hrest, hending⟩ :=
    recvLoop_line (c := c.receiving) (Nat.lt_succ_self c.inbox.bytes.length)
      hstream hline
  have hsize : line.length + 1 ≤ readbuf.size := by
    rw [← StringBuffer.length_contents, hcontents]
    simp
  have hread : Memory.slice readbuf.buffer readbuf.beginOffset (line.length + 1 - 1) = line := by
    rw [Nat.add_sub_cancel, ← Memory.take_slice (Nat.le_of_succ_le hsize)]
    change readbuf.contents.take line.length = line
    rw [hcontents, List.take_left]
  have hbehind : readbuf.contents.drop (line.length + 1) ++ inbox.bytes = rest := by
    rw [hcontents, ← List.drop_drop, List.drop_left, List.drop_one, List.tail_cons, hrest]
  rw [h.responseRecv_eq, hloop]
  dsimp only
  generalize hc : ({ c.receiving with
    readbuf := readbuf
    inbox := inbox
    responseEndOffset := line.length + 1
    numReqSent := c.receiving.numReqSent - 1
    numReqRcvd := c.receiving.numReqRcvd + 1 } : Hstcpcli) = got
  have hgot : Memory.slice got.readbuf.buffer got.readbuf.beginOffset
      (got.responseEndOffset - 1) = line := by
    rw [← hc]
    exact hread
  have hparse := parseResponse_spec (c := got) hgot (by rw [← hc]; exact Nat.succ_pos _)
  split at hparse
  · rename_i herror
    refine ⟨_, hparse, ?_⟩
    subst hc
    refine ⟨⟨⟨hsize, Nat.zero_le _⟩, hbehind, hending, rfl, rfl, rfl, rfl, rfl, rfl, rfl⟩, rfl, fun _ => rfl,
      ?_⟩
    rw [if_pos herror]
    exact congrArg tokensOf hread
  · rename_i hzero
    obtain ⟨cur, hparse, hcur, hpending⟩ := hparse
    rw [not_not.mp hzero]
    refine ⟨_, hparse, ?_⟩
    subst hc
    refine ⟨⟨⟨hsize, hcur⟩, hbehind, hending, rfl, rfl, rfl, rfl, rfl, rfl, ?_⟩, rfl,
      fun h => absurd h hzero, ?_⟩
    · rw [not_not.mp hzero]
      rfl
    · rw [if_neg hzero]
      exact hpending

theorem responseRecv_none (h : c.Awaiting)
    (hstream : newline ∉ c.readbuf.contents ++ c.inbox.bytes) :
    ∃ c' : Hstcpcli, c.responseRecv n = (-1, 0, c'.close.setError (-1) "read: eof") := by
  obtain ⟨c', hloop⟩ := recvLoop_none (c := c.receiving)
    (Nat.lt_succ_self c.inbox.bytes.length) hstream
  rw [h.responseRecv_eq, hloop]
  exact ⟨c', rfl⟩

end Hstcpcli
end Dena
end Rinha
