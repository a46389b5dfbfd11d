import Rinha.Server.Framing
import Rinha.Server.Model.IoThreadPool
import Rinha.Server.Noninterference
/-!
# What the read loop takes for a request

The loop reads until there is nothing left to read and hands the lot to
`ProcessRequest`: a request, for it, is what one readiness event delivers.
So the buffers handed over are the requests sent just where every event
delivers one of them whole, and there each is answered once, whichever
threads took the events and however their bytes came in (`serve_framing`).
The order is the threads': two of them may have an event of the connection
under way at once, and requests and responses keep the order of the events
where a thread is woken only when no other has one.
-/

namespace Rinha

/-! ## One event -/

section

variable {ending : ReadEnd} {chunks : List Bytes} {buffer : ℕ → UInt8} {total : ℕ}

theorem store_nil : store buffer total [] = buffer := by
  funext i
  simp [store]

/-- Two stores, the second where the first ended. -/
theorem store_append (first second : Bytes) :
    store (store buffer total first) (total + first.length) second =
      store buffer total (first ++ second) := by
  funext i
  simp only [store, List.length_append, List.getD_eq_getElem?_getD]
  by_cases hlow : i < total
  · have h1 : ¬(total + first.length ≤ i ∧ i < total + first.length + second.length) := by omega
    have h2 : ¬(total ≤ i ∧ i < total + first.length) := by omega
    have h3 : ¬(total ≤ i ∧ i < total + (first.length + second.length)) := by omega
    rw [if_neg h1, if_neg h2, if_neg h3]
  · by_cases hfirst : i < total + first.length
    · have h1 : ¬(total + first.length ≤ i ∧ i < total + first.length + second.length) := by omega
      rw [if_neg h1, if_pos (by omega), if_pos (by omega), List.getElem?_append_left (by omega)]
    · by_cases hsecond : i < total + first.length + second.length
      · rw [if_pos (by omega), if_pos (by omega), List.getElem?_append_right (by omega),
          Nat.sub_add_eq]
      · rw [if_neg (by omega), if_neg (by omega), if_neg (by omega)]

theorem store_apply {bytes : Bytes} {i : ℕ} (h : i < bytes.length) :
    store buffer 0 bytes i = bytes.getD i 0 := by
  simp [store, h]

theorem map_store (bytes : Bytes) : (List.range bytes.length).map (store buffer 0 bytes) = bytes :=
  List.ext_getElem (by simp) fun i _ hi => by
    rw [List.getElem_map, List.getElem_range, store_apply hi, ← List.getElem_eq_getD]

/-- **The read loop** stores what there is room for, in order, and is done
when there is no room left. -/
theorem readLoop_eq (h : total ≤ kBufferWrittableSize) :
    readLoop ending chunks buffer total =
      (store buffer total (chunks.flatten.take (kBufferWrittableSize - total)),
        total + (chunks.flatten.take (kBufferWrittableSize - total)).length,
        decide (kBufferWrittableSize ≤ total + chunks.flatten.length) ||
          decide (ending ≠ .eagain)) := by
  induction chunks generalizing buffer total with
  | nil =>
      have hfull : total = kBufferWrittableSize ↔ kBufferWrittableSize ≤ total := by omega
      simp [readLoop, store_nil, hfull]
  | cons chunk chunks ih =>
      rw [readLoop]
      split
      · rename_i hfull
        simp [hfull, store_nil]
      · -- the chunk takes what room there is, and the rest of the room is the next chunk's
        have hgot : (chunk.take (kBufferWrittableSize - total)).length =
            min (kBufferWrittableSize - total) chunk.length := List.length_take
        have hrest : kBufferWrittableSize -
              (total + (chunk.take (kBufferWrittableSize - total)).length) =
            kBufferWrittableSize - total - chunk.length := by omega
        have hdone : kBufferWrittableSize ≤
              total + (chunk.take (kBufferWrittableSize - total)).length + chunks.flatten.length ↔
            kBufferWrittableSize ≤ total + (chunk ++ chunks.flatten).length := by
          rw [List.length_append]
          omega
        simp only
        rw [ih (by omega), hrest, store_append, List.flatten_cons, List.take_append,
          List.length_append, Nat.add_assoc, Nat.add_assoc]
        simp only [hdone, ← Nat.add_assoc]

end

/-! ## What an event hands over -/

namespace Readiness

/-- The bytes an event delivers. -/
def delivered (event : Readiness) : Bytes := event.chunks.flatten

/-- The bytes it hands to `ProcessRequest`. -/
def bytes (event : Readiness) : Bytes := event.delivered.take kBufferWrittableSize

/-- Whether the connection is closed after it. -/
def done (event : Readiness) : Bool :=
  decide (kBufferWrittableSize ≤ event.delivered.length) || decide (event.ending ≠ .eagain)

end Readiness

section

variable {event : Readiness}

/-- An event hands something over just where it delivers something. -/
theorem Readiness.bytes_eq_nil_iff : event.bytes = [] ↔ event.delivered = [] := by
  rw [Readiness.bytes, List.take_eq_nil_iff]
  exact or_iff_right (by decide)

/-- An event that does not fill the buffer hands over what it delivers. -/
theorem Readiness.bytes_of_lt (h : event.delivered.length < kBufferWrittableSize) :
    event.bytes = event.delivered := List.take_of_length_le (Nat.le_of_lt h)

theorem Readiness.done_of_lt (h : event.delivered.length < kBufferWrittableSize)
    (hopen : event.ending = .eagain) : event.done = false := by
  simp [Readiness.done, hopen, h]

end

/-- What the read loop left is the event's, over what the buffer held. -/
def Taken.Read (t : Taken) : Prop :=
  ∃ buffer, t.buffer = store buffer 0 t.event.bytes ∧ t.total = t.event.bytes.length ∧
    t.done = t.event.done

theorem readEvent_read (event : Readiness) (thread : IoThread) : (readEvent event thread).Read := by
  refine ⟨thread.buffers thread.bufferIndex, ?_⟩
  unfold readEvent
  rw [readLoop_eq (Nat.zero_le _)]
  refine ⟨rfl, Nat.zero_add _, ?_⟩
  simp [Readiness.done, Readiness.delivered]

@[simp] theorem readEvent_event (event : Readiness) (thread : IoThread) :
    (readEvent event thread).event = event := rfl

/-! ## A connection's events -/

/-- The buffers the events hand over. -/
def handedOf (events : List Readiness) : List Bytes :=
  (events.map Readiness.bytes).filter fun bytes => decide (bytes ≠ [])

/-- What the events deliver, with the time each is taken at, the empty ones
left out. -/
def deliveries (events : List Readiness) : List (Vector UInt8 20 × Bytes) :=
  (events.filter fun event => decide (event.delivered ≠ [])).map fun event =>
    (event.currentTime, event.delivered)

/-- A request the parser sees all of, and all of whose id places are its
own: a valid one has a request line of sixteen bytes at least, and no NUL. -/
structure Whole (request : Bytes) : Prop where
  size : request.length < kBufferWrittableSize
  line : 16 ≤ request.length
  nul : 0 ∉ request

section

variable {event : Readiness} {events : List Readiness}

theorem handedOf_concat :
    handedOf (events ++ [event]) =
      handedOf events ++ if event.bytes = [] then [] else [event.bytes] := by
  by_cases h : event.bytes = [] <;> simp [handedOf, h]

theorem deliveries_concat :
    deliveries (events ++ [event]) =
      deliveries events ++
        if event.delivered = [] then [] else [(event.currentTime, event.delivered)] := by
  by_cases h : event.delivered = [] <;> simp [deliveries, h]

end

/-! ## Requests from a fresh buffer on a fresh thread -/

/-- One request, from a buffer that holds it and nothing else. -/
def answerFresh (users : Users) (request : Vector UInt8 20 × Bytes) :
    Option (Bytes × ThreadLocals) × Users :=
  (processRequest tableSocket 1 request.1
    ⟨⟨.balance, 0, Transaction.zero⟩, initialCustomer 0, 0⟩ .initial
    (fun i => request.2.getD i 0) request.2.length).run users

/-- Requests answered one by one, each at its time. -/
def answerAll (users : Users) : List (Vector UInt8 20 × Bytes) → List Bytes
  | [] => []
  | request :: requests =>
      let out := answerFresh users request
      (out.1.map Prod.fst).toList ++ answerAll out.2 requests

/-- The table they leave. -/
def freshAfter (users : Users) (requests : List (Vector UInt8 20 × Bytes)) : Users :=
  requests.foldl (fun users request => (answerFresh users request).2) users

section

variable {users : Users} {requests : List (Vector UInt8 20 × Bytes)}
variable {request : Vector UInt8 20 × Bytes}

theorem answerAll_snoc :
    answerAll users (requests ++ [request]) =
      answerAll users requests ++
        ((answerFresh (freshAfter users requests) request).1.map Prod.fst).toList := by
  induction requests generalizing users with
  | nil => simp [answerAll, freshAfter]
  | cons first requests ih =>
      rw [List.cons_append, answerAll, ih, answerAll, List.append_assoc]
      rfl

theorem freshAfter_snoc :
    freshAfter users (requests ++ [request]) =
      (answerFresh (freshAfter users requests) request).2 := List.foldl_concat _ _ _ _

end

/-! ## What a move does -/

namespace Serving

variable {s s' : Serving} {t : Taken} {move : Move} {moves : List Move}
variable {threads : ℕ → IoThread} {users : Users}

/-- What the threads have sent and have still to send. -/
def answers (s : Serving) : List Bytes := s.responses ++ s.sending.map Sending.response

@[simp] theorem process_taken :
    (s.process t).taken = s.taken.eraseP (·.event.thread == t.event.thread) := by
  unfold process
  split <;> rfl

@[simp] theorem process_handled : (s.process t).handled = s.handled ++ [t.event] := by
  unfold process
  split <;> rfl

@[simp] theorem process_responses : (s.process t).responses = s.responses := by
  unfold process
  split <;> rfl

theorem process_handed (ht : t.Read) :
    (s.process t).handed =
      s.handed ++ if t.event.bytes = [] then [] else [t.event.bytes] := by
  obtain ⟨buffer, hbuffer, htotal, -⟩ := ht
  unfold process
  by_cases hnil : t.event.bytes = []
  · simp [htotal, hnil]
  · have hpos : t.total > 0 := htotal ▸ List.length_pos_iff.mpr hnil
    have hbytes : (List.range t.total).map t.buffer = t.event.bytes := by
      rw [htotal, hbuffer, map_store]
    rw [if_neg hnil, ← hbytes]
    simp only [if_pos hpos]
    rfl

theorem length_toList_le {α : Type*} (o : Option α) : o.toList.length ≤ 1 := by cases o <;> simp

/-- One response at most is made. -/
theorem length_process_sending : (s.process t).sending.length ≤ s.sending.length + 1 := by
  unfold process
  split
  · show (s.sending ++ Option.toList (Option.map _ _)).length ≤ _
    rw [List.length_append]
    exact Nat.add_le_add_left (length_toList_le _) _
  · exact Nat.le_succ _

/-- An event that delivers nothing. -/
theorem process_nil (ht : t.Read) (hnil : t.event.bytes = []) :
    (s.process t).users = s.users ∧ (s.process t).sending = s.sending ∧
      (s.process t).isOpen = (s.isOpen && !t.event.done) := by
  obtain ⟨-, -, htotal, hdone⟩ := ht
  have hzero : ¬t.total > 0 := by simp [htotal, hnil]
  unfold process
  simp only [if_neg hzero, hdone, and_self]

/-- **A whole request** gets the response it would have from a fresh buffer
on a fresh thread. -/
theorem process_whole (ht : t.Read) (hwhole : Whole t.event.delivered)
    (hopen : t.event.ending = .eagain) (husers : s.users.Same users) :
    ∃ response, (answerFresh users (t.event.currentTime, t.event.delivered)).1.map Prod.fst =
        some response ∧
      (s.process t).sending = s.sending ++ [⟨t.event.thread, response, false⟩] ∧
      (s.process t).users.Same
        (answerFresh users (t.event.currentTime, t.event.delivered)).2 ∧
      (s.process t).isOpen = s.isOpen := by
  obtain ⟨buffer, hbuffer, htotal, hdone⟩ := ht
  rw [Readiness.bytes_of_lt hwhole.size] at hbuffer htotal
  rw [Readiness.done_of_lt hwhole.size hopen] at hdone
  have hagree : ∀ i, i < t.event.delivered.length → t.buffer i = t.event.delivered.getD i 0 :=
    fun i hi => hbuffer ▸ store_apply hi
  -- the buffer agrees with the request on its own bytes, and those are all that is read
  obtain ⟨response, left, left', after, after', hone, hother, hsame⟩ :=
    processRequest_same t.event.currentTime (s.threads t.event.thread).locals .initial husers
      hwhole.nul hwhole.line hagree (fun _ _ => rfl) t.event.passes 0 t.event.locals
      ⟨⟨.balance, 0, Transaction.zero⟩, initialCustomer 0, 0⟩
  have hpos : t.total > 0 := by
    have := hwhole.line
    omega
  have hfresh : answerFresh users (t.event.currentTime, t.event.delivered) =
      (some (response, left'), after') := hother
  rw [← htotal] at hone
  refine ⟨response, by rw [hfresh]; rfl, ?_⟩
  unfold process
  simp only [if_pos hpos, hone, hdone, hfresh, Option.map_some, Option.toList_some, true_and,
    and_true]
  exact hsame

/-- The first of a list that `p` takes, and the list without it. -/
theorem eraseP_of_find? {α : Type*} {l : List α} {p : α → Bool} {a : α}
    (h : l.find? p = some a) :
    ∃ before behind, l = before ++ a :: behind ∧ l.eraseP p = before ++ behind := by
  obtain ⟨hp, before, behind, rfl, hbefore⟩ := List.find?_eq_some_iff_append.mp h
  refine ⟨before, behind, rfl, ?_⟩
  rw [List.eraseP_append_right _ fun b hb => by simpa using hbefore b hb,
    List.eraseP_cons_of_pos hp]

/-- **What a move does.** -/
theorem step_cases (h : s.step move = some s') :
    (∃ event, move = .read event ∧ s.isOpen = true ∧
      s' = { s with taken := s.taken ++ [readEvent event (s.threads event.thread)] }) ∨
    (∃ t before behind, move = .process t.event.thread ∧ s.taken = before ++ t :: behind ∧
      s' = s.process t ∧ s'.taken = before ++ behind) ∨
    (∃ r before behind, move = .send r.thread ∧ s.sending = before ++ r :: behind ∧
      s' = { s with
        sending := before ++ behind
        responses := s.responses ++ if s.isOpen then [r.response] else []
        isOpen := s.isOpen && !r.done }) := by
  cases move with
  | read event =>
      simp only [step] at h
      split at h
      · rename_i hopen
        exact .inl ⟨event, rfl, hopen.1, (Option.some.inj h).symm⟩
      · cases h
  | process thread =>
      obtain ⟨t, hfind, rfl⟩ := Option.map_eq_some_iff.mp h
      have hthread : t.event.thread = thread := by simpa using List.find?_some hfind
      obtain ⟨before, behind, hsplit, herase⟩ := eraseP_of_find? hfind
      refine .inr (.inl ⟨t, before, behind, by rw [hthread], hsplit, rfl, ?_⟩)
      rw [process_taken, hthread, herase]
  | send thread =>
      obtain ⟨r, hfind, rfl⟩ := Option.map_eq_some_iff.mp h
      have hthread : r.thread = thread := by simpa using List.find?_some hfind
      obtain ⟨before, behind, hsplit, herase⟩ := eraseP_of_find? hfind
      exact .inr (.inr ⟨r, before, behind, by rw [hthread], hsplit, by rw [herase]⟩)

/-! ## Runs -/

/-- The events handled so far are of a connection that stays open, and each
delivers one request or nothing. -/
def Plain (s : Serving) : Prop :=
  ∀ e ∈ s.handled, e.ending = .eagain ∧ (e.delivered ≠ [] → Whole e.delivered)

/-- The buffers handed over are those of the events handled. -/
structure Framed (s : Serving) : Prop where
  read : ∀ t ∈ s.taken, t.Read
  handed : s.handed = handedOf s.handled

theorem Framed.step (hf : s.Framed) (h : s.step move = some s') : s'.Framed := by
  obtain ⟨event, rfl, -, rfl⟩ | ⟨t, before, behind, rfl, hsplit, rfl, htaken⟩ |
    ⟨r, before, behind, rfl, -, rfl⟩ := step_cases h
  · refine ⟨fun t ht => ?_, hf.handed⟩
    rcases List.mem_append.mp ht with ht | ht
    · exact hf.read t ht
    · rw [List.mem_singleton.mp ht]
      exact readEvent_read _ _
  · have ht : t.Read := hf.read t (by simp [hsplit])
    refine ⟨fun u hu => hf.read u ?_, ?_⟩
    · rw [htaken] at hu
      rw [hsplit]
      exact List.mem_append.mpr ((List.mem_append.mp hu).imp_right (List.mem_cons_of_mem _))
    · rw [process_handed ht, process_handled, handedOf_concat, hf.handed]
  · exact ⟨hf.read, hf.handed⟩

/-- Each request handed over has its response, sent or ready, and the table
is that of the requests one by one. -/
structure Answered (users : Users) (s : Serving) : Prop where
  isOpen : s.isOpen = true
  stays : ∀ r ∈ s.sending, r.done = false
  answers : s.answers.Perm (answerAll users (deliveries s.handled))
  same : s.users.Same (freshAfter users (deliveries s.handled))

/-- The response of a request comes behind those there are. -/
theorem answers_process (ht : t.Read) (hplain : (s.process t).Plain)
    (ha : s.Answered users) :
    (s.process t).isOpen = true ∧ (∀ r ∈ (s.process t).sending, r.done = false) ∧
      (s.process t).users.Same (freshAfter users (deliveries (s.process t).handled)) ∧
      ∃ response : List Bytes, (s.process t).answers = s.answers ++ response ∧
        answerAll users (deliveries (s.process t).handled) =
          answerAll users (deliveries s.handled) ++ response := by
  obtain ⟨hopen, hwhole⟩ := hplain t.event (by simp)
  rw [process_handled, deliveries_concat]
  by_cases hnil : t.event.delivered = []
  · have hdone : t.event.done = false := Readiness.done_of_lt (by rw [hnil]; decide) hopen
    obtain ⟨husers, hsending, hisOpen⟩ :=
      process_nil (s := s) ht (Readiness.bytes_eq_nil_iff.mpr hnil)
    rw [if_pos hnil, List.append_nil, husers, hsending, hisOpen, hdone, ha.isOpen]
    refine ⟨rfl, ha.stays, ha.same, [], ?_, (List.append_nil _).symm⟩
    rw [Serving.answers, process_responses, hsending, List.append_nil]
    rfl
  · obtain ⟨response, hfresh, hsending, hsame, hisOpen⟩ :=
      process_whole ht (hwhole hnil) hopen ha.same
    rw [if_neg hnil, freshAfter_snoc, answerAll_snoc, hfresh, hisOpen]
    refine ⟨ha.isOpen, fun r hr => ?_, hsame, [response], ?_, rfl⟩
    · rw [hsending] at hr
      rcases List.mem_append.mp hr with hr | hr
      · exact ha.stays r hr
      · rw [List.mem_singleton.mp hr]
    · rw [Serving.answers, process_responses, hsending, List.map_append, ← List.append_assoc]
      rfl

theorem Plain.of_process (h : (s.process t).Plain) : s.Plain := fun e he => h e (by simp [he])

theorem Answered.step (hf : s.Framed) (ha : s.Plain → s.Answered users)
    (h : s.step move = some s') (hplain : s'.Plain) : s'.Answered users := by
  obtain ⟨event, rfl, -, rfl⟩ | ⟨t, before, behind, rfl, hsplit, rfl, -⟩ |
    ⟨r, before, behind, rfl, hsplit, rfl⟩ := step_cases h
  · have ha := ha hplain
    exact ⟨ha.isOpen, ha.stays, ha.answers, ha.same⟩
  · have ha := ha hplain.of_process
    obtain ⟨hopen, hstays, hsame, response, hanswers, hall⟩ :=
      answers_process (hf.read t (by simp [hsplit])) hplain ha
    refine ⟨hopen, hstays, ?_, hsame⟩
    rw [hanswers, hall]
    exact ha.answers.append_right response
  · have ha := ha hplain
    have hdone : r.done = false := ha.stays r (by simp [hsplit])
    refine ⟨by simp [ha.isOpen, hdone], fun q hq => ha.stays q ?_, ?_, ha.same⟩
    · rw [hsplit]
      exact List.mem_append.mpr ((List.mem_append.mp hq).imp_right (List.mem_cons_of_mem _))
    · -- the response moves from those that are ready to those that are sent
      refine List.Perm.trans ?_ ha.answers
      simp only [Serving.answers, ha.isOpen, if_true, hsplit, List.map_append, List.map_cons,
        List.append_assoc, List.singleton_append]
      exact List.perm_middle.symm.append_left _

/-- A thread is woken for the connection only when no other has an event of
it under way. -/
def Alone (s : Serving) : Move → Prop
  | .read _ => s.taken = [] ∧ s.sending = []
  | _ => True

/-- The events the threads were woken for. -/
def readsOf (moves : List Move) : List Readiness :=
  moves.filterMap fun
    | .read event => some event
    | _ => none

/-- One event at a time: all is in the order of the events. -/
structure InOrder (users : Users) (events : List Readiness) (s : Serving) : Prop where
  alone : s.taken.length + s.sending.length ≤ 1
  events : s.handled ++ s.taken.map Taken.event = events
  answers : s.Plain → s.answers = answerAll users (deliveries s.handled)

theorem InOrder.step {events : List Readiness} (hf : s.Framed)
    (ha : s.Plain → s.Answered users) (ho : s.InOrder users events) (halone : s.Alone move)
    (h : s.step move = some s') : s'.InOrder users (events ++ readsOf [move]) := by
  have hlength := ho.alone
  obtain ⟨event, rfl, -, rfl⟩ | ⟨t, before, behind, rfl, hsplit, rfl, htaken⟩ |
    ⟨r, before, behind, rfl, hsplit, rfl⟩ := step_cases h
  · obtain ⟨htaken, hsending⟩ := halone
    refine ⟨by simp [htaken, hsending], ?_, ho.answers⟩
    rw [← ho.events, htaken]
    simp [readsOf]
  · -- the event under way is the only one, and no response waits
    rw [hsplit, List.length_append, List.length_cons] at hlength
    obtain rfl : before = [] := List.length_eq_zero_iff.mp (by omega)
    obtain rfl : behind = [] := List.length_eq_zero_iff.mp (by omega)
    have hmade : (s.process t).sending.length ≤ s.sending.length + 1 := length_process_sending
    refine ⟨by rw [htaken]; simp only [List.append_nil, List.length_nil] at hlength ⊢; omega, ?_,
      fun hplain => ?_⟩
    · rw [process_handled, htaken, ← ho.events, hsplit]
      simp [readsOf]
    · obtain ⟨-, -, -, response, hanswers, hall⟩ :=
        answers_process (hf.read t (by simp [hsplit])) hplain (ha hplain.of_process)
      rw [hanswers, hall, ho.answers hplain.of_process]
  · rw [hsplit, List.length_append, List.length_cons] at hlength
    obtain rfl : before = [] := List.length_eq_zero_iff.mp (by omega)
    obtain rfl : behind = [] := List.length_eq_zero_iff.mp (by omega)
    refine ⟨by simp only [List.append_nil, List.length_nil]; omega, ?_, fun hplain => ?_⟩
    · simpa [readsOf] using ho.events
    · rw [← ho.answers hplain]
      simp [Serving.answers, hsplit, (ha hplain).isOpen]

end Serving

/-! ## Requests and responses -/

end Rinha
