import Rinha.Dena.Response
/-!
# Responses, one behind the other

A connection answers its requests in order, and the bytes of the answers
come in pieces that have nothing to do with them. Taking the responses one
by one, with their rows, gives each what was put in (`takeResponses_sent`),
and what came behind the last is left for the next.
-/

namespace Rinha
namespace Dena
namespace Hstcpcli

/-- A response, as a peer means it. -/
inductive Response
  | rows (numFlds : UInt32) (table : List (List (Option Bytes)))
  | error (code : UInt32) (text : Bytes)

/-- What it is made of. -/
def Response.tokens : Response → List Bytes
  | .rows numFlds table => numeral 0 :: numeral numFlds :: table.flatten.map delimValue
  | .error code text => [numeral code, numeral 1, text]

def Response.line (r : Response) : Bytes := [tab].intercalate r.tokens

/-- Rows as long as they say, and codes that are errors. -/
def Response.Valid : Response → Prop
  | .rows numFlds table =>
      (∀ row ∈ table, row.length = numFlds.toNat) ∧ (numFlds = 0 → table = [])
  | .error code text => code ≠ 0 ∧ ¬code.toInt32 < 0 ∧ Clean text ∧ text ≠ []

/-- What its taker is told: the return value, the error text, the rows. -/
def Response.told : Response → Int32 × Bytes × List (List (Option Bytes))
  | .rows _ table => (0, [], table)
  | .error code text => (code.toInt32, text, [])

/-- A response taken: received, its rows read and the buffer left to the
next, with each row as it stands in memory when the last has been read. -/
def takeResponse (c : Hstcpcli) : (Int32 × Bytes × List (List (Option Bytes))) × Hstcpcli :=
  let (e, _, c) := c.responseRecv 0
  if e ≠ 0 then ((e, c.errorStr, []), c.responseBufRemove)
  else
    let (refs, c) := rows c.responseEndOffset c
    ((e, [], refs.map c.deref), c.responseBufRemove)

/-- So many responses taken. -/
def takeResponses : ℕ → Hstcpcli →
    List (Int32 × Bytes × List (List (Option Bytes))) × Hstcpcli
  | 0, c => ([], c)
  | left + 1, c =>
      let (told, c) := takeResponse c
      ((told :: (takeResponses left c).1), (takeResponses left c).2)

variable {c c' : Hstcpcli} {r : Response} {rs : List Response} {line rest : Bytes}
variable {n left : ℕ} {table : List (List (Option Bytes))}

/-! ## Lines -/

theorem clean_of_mem_tokens (h : r.Valid) {token : Bytes} (htoken : token ∈ r.tokens) :
    Clean token := by
  cases r with
  | rows numFlds table =>
      rcases List.mem_cons.mp htoken with rfl | htoken
      · exact clean_numeral
      rcases List.mem_cons.mp htoken with rfl | htoken
      · exact clean_numeral
      obtain ⟨value, -, rfl⟩ := List.mem_map.mp htoken
      exact clean_delimValue
  | error code text =>
      rcases List.mem_cons.mp htoken with rfl | htoken
      · exact clean_numeral
      rcases List.mem_cons.mp htoken with rfl | htoken
      · exact clean_numeral
      rw [List.mem_singleton.mp htoken]
      exact h.2.2.1

/-- **A line is read back** into its code, its number of fields and the rest. -/
theorem readLine_intercalate {code numFlds : UInt32} {body : List Bytes}
    (h : ∀ token ∈ body, Clean token) :
    readLine ([tab].intercalate (numeral code :: numeral numFlds :: body)) =
      ⟨code, numFlds, body⟩ := by
  have htab : ∀ x ∈ numeral code, decide (x ≠ tab) = true := by
    intro x hx
    simpa using (clean_numeral x hx).1
  have hclean : ∀ token ∈ numeral numFlds :: body, tab ∉ token := by
    intro token htoken hmem
    rcases List.mem_cons.mp htoken with rfl | htoken
    · exact (clean_numeral tab hmem).1 rfl
    · exact (h token htoken tab hmem).1 rfl
  unfold readLine
  rw [Delimited.intercalate_cons, List.takeWhile_append_of_pos htab,
    List.dropWhile_append_of_pos htab]
  have htake : (Delimited.led tab (numeral numFlds :: body)).takeWhile (· ≠ tab) = [] := by
    rw [Delimited.led_cons, List.takeWhile_cons_of_neg (by simp)]
  have hdrop : (Delimited.led tab (numeral numFlds :: body)).dropWhile (· ≠ tab) =
      Delimited.led tab (numeral numFlds :: body) := by
    rw [Delimited.led_cons, List.dropWhile_cons_of_neg (by simp)]
  rw [htake, hdrop, List.append_nil, Delimited.items_led hclean, ui32_numeral]
  simp only [List.headD_cons, List.tail_cons, ui32_numeral]

theorem newline_notMem_line (h : r.Valid) : newline ∉ r.line :=
  newline_notMem_intercalate fun _ htoken => clean_of_mem_tokens h htoken

/-! ## Rows -/

/-- Rows of one length come out of the fields as they went in. -/
theorem cut_flatten (hn : n ≠ 0) (h : ∀ row ∈ table, row.length = n) (hleft : table.length ≤ left) :
    cut n left table.flatten = table := by
  induction table generalizing left with
  | nil =>
      cases left with
      | zero => rfl
      | succ left => exact if_pos (.inr rfl)
  | cons row table ih =>
      obtain ⟨left, rfl⟩ : ∃ k, left = k + 1 := ⟨left - 1, by simp at hleft; omega⟩
      have hrow := h row List.mem_cons_self
      have hne : (row :: table).flatten ≠ [] := by
        intro hnil
        rw [List.flatten_cons, List.append_eq_nil_iff] at hnil
        rw [hnil.1] at hrow
        exact hn hrow.symm
      have hfields : rowOf n (row :: table).flatten = row := by
        rw [rowOf, List.flatten_cons, List.take_left' hrow, hrow, Nat.sub_self,
          List.replicate_zero, List.append_nil]
      rw [cut, if_neg (not_or.mpr ⟨hn, hne⟩), hfields, List.flatten_cons, List.drop_left' hrow,
        ih (fun x hx => h x (List.mem_cons_of_mem _ hx)) (by simpa using hleft)]

/-- There are no more tokens in a line than bytes. -/
theorem length_le_led {its : List Bytes} : its.length ≤ (Delimited.led tab its).length := by
  induction its with
  | nil => exact Nat.le_refl _
  | cons item its ih =>
      rw [Delimited.led_cons, List.length_cons, List.length_cons, List.length_append]
      omega

theorem length_rows_le (hn : n ≠ 0) (h : ∀ row ∈ table, row.length = n) :
    table.length ≤ table.flatten.length := by
  induction table with
  | nil => exact Nat.le_refl _
  | cons row table ih =>
      have := ih fun x hx => h x (List.mem_cons_of_mem _ hx)
      have := h row List.mem_cons_self
      rw [List.flatten_cons, List.length_append, List.length_cons]
      omega

/-! ## Responses -/

/-- What a response taken leaves: the stream behind it, and one request less
to be answered. -/
structure Took (c : Hstcpcli) (rest : Bytes) (c' : Hstcpcli) : Prop where
  stream : c'.readbuf.contents ++ c'.inbox.bytes = rest
  ending : c'.inbox.ending = c.inbox.ending
  writebuf : c'.writebuf = c.writebuf
  error : ¬c'.errorCode < 0
  bufd : c'.numReqBufd = 0
  sent : c'.numReqSent = c.numReqSent - 1
  rcvd : c'.numReqRcvd = 0
  response : c'.responseEndOffset = 0
  opened : c'.fdOpen = true

theorem Took.awaiting (h : Took c rest c') (hsent : 1 < c.numReqSent) : c'.Awaiting where
  error := h.error
  bufd := h.bufd
  sent := by
    have := h.sent
    omega
  rcvd := h.rcvd
  response := h.response
  opened := h.opened

/-- `response_buf_remove` of a response, read or not. -/
theorem Holding.took (h : Holding c line rest c') (hc : c.Awaiting)
    (herror : ¬(readLine line).code.toInt32 < 0) : Took c rest c'.responseBufRemove := by
  have hresponse : ¬c'.responseEndOffset = 0 := by
    rw [h.response]
    omega
  rw [responseBufRemove, if_neg hresponse]
  refine ⟨?_, h.ending, h.writebuf, ?_, ?_, h.sent, ?_, rfl, ?_⟩
  · rw [StringBuffer.contents_eraseFront]
    exact h.stream
  · rwa [← h.errorCode] at herror
  · exact h.bufd.trans hc.bufd
  · have hrcvd := h.rcvd
    have hnone := hc.rcvd
    simp only
    omega
  · exact h.opened.trans hc.opened

/-- Reading the rows leaves it where it is. -/
theorem Holding.rows (h : Holding c line rest c') (left : ℕ) :
    Holding c line rest (Hstcpcli.rows left c').2 := by
  have hrows := rows_spec left h.buffered
  obtain ⟨buffer, flds, cur, hothers⟩ := hrows.others
  have hbehind := hrows.behind
  refine ⟨hrows.buffered, ?_, ?_, ?_, ?_, ?_, ?_, ?_, ?_, ?_⟩
  · rw [hbehind, hothers]
    exact h.stream
  · rw [hothers]
    exact h.ending
  · rw [hothers]
    exact h.writebuf
  · rw [hothers]
    exact h.opened
  · rw [hothers]
    exact h.bufd
  · rw [hothers]
    exact h.sent
  · rw [hothers]
    exact h.rcvd
  · rw [hothers]
    exact h.response
  · rw [hothers]
    exact h.errorCode

theorem toInt32_ne_zero {code : UInt32} (h : code ≠ 0) : code.toInt32 ≠ 0 := by
  intro hzero
  have hback := congrArg Int32.toUInt32 hzero
  rw [UInt32.toUInt32_toInt32] at hback
  exact h hback

/-- There is room for the rows in their line. -/
theorem length_table_le {numFlds : UInt32} (h : ∀ row ∈ table, row.length = numFlds.toNat)
    (hnone : numFlds = 0 → table = []) :
    table.length ≤ (Response.rows numFlds table).line.length := by
  by_cases hzero : numFlds = 0
  · rw [hnone hzero]
    exact Nat.zero_le _
  · have hne : numFlds.toNat ≠ 0 := fun h => hzero (UInt32.toNat_inj.mp h)
    have hrows := length_rows_le hne h
    have hled := @length_le_led (table.flatten.map delimValue)
    have hline : (Response.rows numFlds table).line = numeral 0 ++ tab :: (numeral numFlds ++
        Delimited.led tab (table.flatten.map delimValue)) := by
      rw [Response.line, Response.tokens, Delimited.intercalate_cons, Delimited.led_cons]
    rw [List.length_map] at hled
    rw [hline, List.length_append, List.length_cons, List.length_append]
    omega

/-- **A response is taken as it was meant**, and the stream is left where the
next one begins. -/
theorem takeResponse_sent (h : c.Awaiting) (hr : r.Valid)
    (hstream : c.readbuf.contents ++ c.inbox.bytes = r.line ++ newline :: rest) :
    ∃ c', takeResponse c = (r.told, c') ∧ Took c rest c' := by
  obtain ⟨c', hrecv, hreceived⟩ := responseRecv_line (n := 0) h hstream (newline_notMem_line hr)
  rw [takeResponse, hrecv]
  dsimp only
  cases r with
  | rows numFlds table =>
      obtain ⟨hlength, hnone⟩ := hr
      have hline : readLine (Response.rows numFlds table).line =
          ⟨0, numFlds, table.flatten.map delimValue⟩ :=
        readLine_intercalate fun token htoken => by
          obtain ⟨value, -, rfl⟩ := List.mem_map.mp htoken
          exact clean_delimValue
      have hcode : (readLine (Response.rows numFlds table).line).code.toInt32 = 0 := by
        rw [hline]
        rfl
      have hderef := (rows_spec c'.responseEndOffset hreceived.buffered).deref
      have hpending : c'.pending = table.flatten := by
        rw [hreceived.pending, hline, if_neg (not_not_intro rfl)]
        exact map_readValue
      have hcut : cut numFlds.toNat c'.responseEndOffset table.flatten = table := by
        by_cases hzero : numFlds = 0
        · rw [hnone hzero, hzero, hreceived.response]
          exact if_pos (.inl rfl)
        · refine cut_flatten (fun h => hzero (UInt32.toNat_inj.mp h)) hlength ?_
          rw [hreceived.response]
          exact Nat.le_succ_of_le (length_table_le hlength hnone)
      rw [hcode, if_neg (not_not_intro rfl)]
      refine ⟨(rows c'.responseEndOffset c').2.responseBufRemove, ?_,
        (hreceived.toHolding.rows _).took h (by rw [hcode]; decide)⟩
      rw [hderef, hpending, hreceived.numFlds, hline, hcut]
      rfl
  | error code text =>
      obtain ⟨hne, herror, hclean, htext⟩ := hr
      have hline : readLine (Response.error code text).line = ⟨code, 1, [text]⟩ :=
        readLine_intercalate fun token htoken => by
          rw [List.mem_singleton.mp htoken]
          exact hclean
      have hcode : (readLine (Response.error code text).line).code = code := by rw [hline]
      have hstr : c'.errorStr = text := by
        rw [hreceived.errorStr (by rwa [hcode]), hline]
        exact if_neg htext
      rw [hcode, if_pos (toInt32_ne_zero hne), hstr]
      exact ⟨_, rfl, hreceived.toHolding.took h (by rwa [hcode])⟩

/-- What responses come as. -/
def responses (rs : List Response) : Bytes := Delimited.ended newline (rs.map Response.line)

/-- **Pipelined responses are taken in order.** A client that awaits as many
responses as were sent takes each as it was meant, rows and errors alike,
however the bytes are cut on the way; what came behind the last is what it
has left to read, and where no other request is out it is stable. -/
theorem takeResponses_sent (c : Hstcpcli) (rs : List Response) (rest : Bytes)
    (hvalid : ∀ r ∈ rs, r.Valid) (hrs : rs ≠ []) (hawaiting : c.Awaiting)
    (hsent : rs.length ≤ c.numReqSent)
    (hstream : c.readbuf.contents ++ c.inbox.bytes = responses rs ++ rest) :
    (takeResponses rs.length c).1 = rs.map Response.told ∧
      (takeResponses rs.length c).2.readbuf.contents ++
        (takeResponses rs.length c).2.inbox.bytes = rest ∧
      (takeResponses rs.length c).2.numReqSent = c.numReqSent - rs.length ∧
      (c.numReqSent = rs.length → (takeResponses rs.length c).2.stablePoint = true) := by
  induction rs generalizing c with
  | nil => exact absurd rfl hrs
  | cons r rs ih =>
      have hstream' : c.readbuf.contents ++ c.inbox.bytes =
          r.line ++ newline :: (responses rs ++ rest) := by
        rw [hstream, responses, List.map_cons, Delimited.ended_cons]
        simp [responses]
      obtain ⟨c', htake, htook⟩ := takeResponse_sent hawaiting (hvalid r List.mem_cons_self) hstream'
      have hone := htook.sent
      rw [List.length_cons] at hsent
      rw [List.length_cons, takeResponses, htake]
      dsimp only
      by_cases hlast : rs = []
      · subst hlast
        refine ⟨rfl, ?_, hone, fun hall => ?_⟩
        · exact htook.stream
        · have hnone : c'.numReqSent = 0 := by
            rw [hone, hall]
            rfl
          simp [takeResponses, stablePoint, htook.opened, htook.bufd, hnone, htook.rcvd,
            htook.response]
      · have hpos := List.length_pos_iff.mpr hlast
        obtain ⟨htold, hleft, hcount, hstable⟩ := ih c'
          (fun r hr => hvalid r (List.mem_cons_of_mem _ hr)) hlast (htook.awaiting (by omega))
          (by omega) htook.stream
        refine ⟨by rw [htold, List.map_cons], hleft, by omega, fun hall => hstable (by omega)⟩

/-- A row of a tab and a null, and an error, in three pieces. -/
theorem takeResponses_sent_two :
    let inbox : Inbox UInt8 := ⟨[[48, 9, 50], [9, 1, 73, 9, 0, 10, 53], [9, 49, 9, 120, 10, 65]],
      .eagain, by decide⟩
    let c : Hstcpcli := { create true none (fun _ => 0) with numReqSent := 2, inbox := inbox }
    (takeResponses 2 c).1 = [(0, [], [[some [9], none]]), (5, [120], [])] ∧
      (takeResponses 2 c).2.readbuf.contents ++ (takeResponses 2 c).2.inbox.bytes = [65] := by
  intro inbox c
  have hvalid : ∀ r ∈ [Response.rows 2 [[some [9], none]], .error 5 [120]], r.Valid := by
    intro r hr
    rcases List.mem_cons.mp hr with rfl | hr
    · exact ⟨by decide, by decide⟩
    · rw [List.mem_singleton.mp hr]
      exact ⟨by decide, by decide, clean_bytes _ (by decide), by decide⟩
  have herror : ¬c.errorCode < 0 := by
    change ¬(0 : Int32) < 0
    decide
  have htaken := takeResponses_sent c [.rows 2 [[some [9], none]], .error 5 [120]] [65] hvalid
    (List.cons_ne_nil _ _) ⟨herror, rfl, Nat.two_pos, rfl, rfl, rfl⟩ (Nat.le_refl _) rfl
  simp only [List.length_cons, List.length_nil, Nat.zero_add, Nat.reduceAdd] at htaken
  exact ⟨htaken.1, htaken.2.1⟩

end Hstcpcli
end Dena
end Rinha
