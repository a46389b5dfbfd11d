import Rinha.Server.Parse
import Rinha.Server.Verdict
/-!
# The answer and the effect

The status sent and the change to the table are chosen in different
layers. They keep in step: the table changes with an accepted transaction
alone, and that is the one request not a `GET` that is answered `200`.
-/

namespace Rinha

/-- The status code of a response, the three bytes after `HTTP/1.1 `. -/
def statusOf (response : Bytes) : Bytes := (response.take 12).drop 9

/-- The request is a `GET`, for the parser. -/
def isGet (buffer : ℕ → UInt8) (numRead : ℕ) : Bool := (viewOf buffer numRead).startsWith kGetVerb

variable {users : Users} {currentTime : Vector UInt8 20} {locals : Locals}
variable {thread : ThreadLocals} {buffer : ℕ → UInt8} {numRead : ℕ}

/-! ## The status -/

/-- Before the first window the buffer is the header it was built with. -/
theorem ResultBuffer.take_bytes (b : ResultBuffer) {n : ℕ} (hn : n ≤ kLimiteBeginIdx) :
    b.bytes.toList.take n = kPrebuilt.take n := by
  have hlen : kPrebuilt.length = 133 := by decide +kernel
  have hsize : b.bytes.toList.length = 140 := b.bytes.length_toList
  simp only [kLimiteBeginIdx] at hn
  refine List.ext_getElem (by rw [List.length_take, List.length_take]; omega) fun i hi hi' => ?_
  simp only [List.length_take] at hi hi'
  have hout : ¬ InWindow i := by
    simp only [InWindow, kLimiteBeginIdx, kLimiteEndIdx, kSaldoBeginIdx, kSaldoEndIdx]
    omega
  have hsize : i < kResultSize := by
    simp only [kResultSize]
    omega
  rw [List.getElem_take, List.getElem_take, Vector.getElem_toList, b.agrees i hsize hout]
  simp only [prebuilt, Vector.getElem_ofFn]
  exact (List.getElem_eq_getD 0).symm

/-- The status each verdict is answered with. -/
def Verdict.status : Verdict → Bytes
  | .unparsed | .exceeded _ => Text.bytes "422"
  | .unknown => Text.bytes "404"
  | .statement _ | .accepted _ _ => Text.bytes "200"

theorem statusOf_responseOf (v : Verdict) : statusOf (responseOf thread v) = v.status := by
  cases v with
  | unparsed => rfl
  | unknown => rfl
  | statement row =>
      have hlen : 12 ≤ kOkHeader.length := by decide +kernel
      simp only [responseOf, statementResponse, statusOf, List.append_assoc]
      rw [List.take_append_of_le_length hlen]
      rfl
  | exceeded row => rfl
  | accepted row transaction =>
      rw [responseOf, statusOf, ResultBuffer.take_bytes _ (by decide)]
      rfl

/-! ## The effect -/

/-- An accepted transaction does change its row. -/
theorem Users.apply_ne (row : Fin 5) (transaction : Transaction) :
    users.apply row transaction ≠ users := by
  intro h
  have hrow := congrArg Versioned.version (congrFun h row)
  rw [Users.apply_self] at hrow
  exact Versioned.succ_ne _ hrow

/-- What the parser calls a balance request is a `GET`. -/
theorem fromHttp_type {http : StringView} {request : Request}
    (h : (fromHttp http request).1 = true) :
    (fromHttp http request).2.type = .balance ↔ http.startsWith kGetVerb = true := by
  obtain ⟨s, hs⟩ := fromHttp_fst.mp h
  rw [fromHttp_eq_true.mpr hs]
  cases hs with
  | balance id hverb hid => simp [hverb]
  | transaction id hverb hid hbegin hbody => simp [hverb]

/-- The buffer is not parsed, or its request is judged. -/
theorem verdictOn_cases :
    ((fromHttp (viewOf buffer numRead) locals.request).1 = false ∧
      verdictOn users currentTime locals buffer numRead = .unparsed) ∨
    (∃ request, fromHttp (viewOf buffer numRead) locals.request = (true, request) ∧
      (request.type = .balance ↔ isGet buffer numRead = true) ∧
      Judged users currentTime request (verdictOn users currentTime locals buffer numRead)) := by
  rcases hp : fromHttp (viewOf buffer numRead) locals.request with ⟨success, request⟩
  have htype := @fromHttp_type (viewOf buffer numRead) locals.request
  rw [hp] at htype
  cases success with
  | false => exact .inl ⟨rfl, by simp [verdictOn, hp, verdict]⟩
  | true =>
      refine .inr ⟨request, rfl, htype rfl, ?_⟩
      rw [verdictOn, hp]
      exact judged_verdict request

/-- The table changes with an accepted transaction and no other verdict. -/
theorem after_ne_iff {v : Verdict} :
    users.after v ≠ users ↔ ∃ row transaction, v = .accepted row transaction := by
  cases v with
  | accepted row transaction => simp [Users.after, Users.apply_ne]
  | _ => simp [Users.after]

/-- And it is the accepted transactions that are not a `GET` and answered
`200`. -/
theorem accepted_iff :
    (∃ row transaction, verdictOn users currentTime locals buffer numRead =
        .accepted row transaction) ↔
      isGet buffer numRead = false ∧
        (verdictOn users currentTime locals buffer numRead).status = Text.bytes "200" := by
  rcases @verdictOn_cases users currentTime locals buffer numRead with
    ⟨-, hv⟩ | ⟨request, -, hget, hv⟩
  · rw [hv]
    simp [Verdict.status, Text.bytes]
  · generalize verdictOn users currentTime locals buffer numRead = v at hv
    cases hv with
    | unknown hid => simp [Verdict.status, Text.bytes]
    | statement row hid htype => simp [hget.mp htype]
    | exceeded row hid htype hlim => simp [Verdict.status, Text.bytes]
    | accepted row hid htype hlim =>
        have hnot : isGet buffer numRead = false := by
          rw [← Bool.not_eq_true, ← hget, htype]
          decide
        simp [hnot, Verdict.status]

/-- The row an accepted transaction goes to. -/
theorem accepted_row {row : Fin 5} {transaction : Transaction}
    (h : verdictOn users currentTime locals buffer numRead = .accepted row transaction) :
    ∃ request, fromHttp (viewOf buffer numRead) locals.request = (true, request) ∧
      request.type = .transaction ∧ rowIndex request.id = some row ∧
      transaction = stamp request.transaction currentTime ∧
      limitExceeded (users row).data transaction = false := by
  rcases @verdictOn_cases users currentTime locals buffer numRead with
    ⟨-, hv⟩ | ⟨request, hp, -, hv⟩
  · rw [h] at hv
    cases hv
  · rw [h] at hv
    cases hv with
    | accepted _ hid htype hlim => exact ⟨request, hp, htype, hid, rfl, hlim⟩

/-- **The answer and the effect keep in step.** On a table no one else
writes, `ProcessRequest` returns, and the table changes just where a
request that is not a `GET` is answered `200`: the row at `id - 1` then
has the parsed transaction in its balance, in the slot that was next and in
the index and the count of its slots, once, at the next version, and no
other row changes. -/
theorem processRequest_effect (passes : ℕ) (currentTime : Vector UInt8 20) (locals : Locals)
    (thread : ThreadLocals) (buffer : ℕ → UInt8) (numRead : ℕ) (users : Users) :
    ∃ (response : Bytes) (thread' : ThreadLocals) (users' : Users),
      (processRequest tableSocket (passes + 1) currentTime locals thread buffer numRead).run users =
        (some (response, thread'), users') ∧
      (users' ≠ users ↔ isGet buffer numRead = false ∧ statusOf response = Text.bytes "200") ∧
      (users' ≠ users →
        ∃ (row : Fin 5) (request : Request),
          fromHttp (viewOf buffer numRead) locals.request = (true, request) ∧
          request.type = .transaction ∧ request.id.toInt = (row : ℕ) + 1 ∧
          AppliedOnce (stamp request.transaction currentTime) (users row).data (users' row).data ∧
          (users' row).version = (users row).version + 1 ∧
          ∀ row', row' ≠ row → users' row' = users row') ∧
      ((statusOf response = Text.bytes "422" ∨ statusOf response = Text.bytes "404" ∨
          isGet buffer numRead = true) → ∀ row, users' row = users row) ∧
      (statusOf response = Text.bytes "200" ∨ statusOf response = Text.bytes "404" ∨
        statusOf response = Text.bytes "422") := by
  have hchange : users.after (verdictOn users currentTime locals buffer numRead) ≠ users ↔
      isGet buffer numRead = false ∧
        (verdictOn users currentTime locals buffer numRead).status = Text.bytes "200" :=
    after_ne_iff.trans accepted_iff
  refine ⟨_, _, _, processRequest_table passes, ?_⟩
  rw [statusOf_responseOf]
  refine ⟨hchange, fun hne => ?_, fun hstatus row => ?_, ?_⟩
  · obtain ⟨row, transaction, hv⟩ := after_ne_iff.mp hne
    obtain ⟨request, hp, htype, hid, rfl, -⟩ := accepted_row hv
    have hrow : users.after (verdictOn users currentTime locals buffer numRead) row =
        ⟨applyTransaction (users row).data (stamp request.transaction currentTime),
          (users row).version + 1⟩ :=
      congrFun (congrArg users.after hv) row |>.trans Users.apply_self
    refine ⟨row, request, hp, htype, toInt_of_rowIndex hid, ?_, ?_, fun row' hne' => ?_⟩
    · rw [hrow]
      exact appliedOnce _ _
    · rw [hrow]
    · exact congrFun (congrArg users.after hv) row' |>.trans (Users.apply_of_ne hne')
  · suffices hsame : users.after (verdictOn users currentTime locals buffer numRead) = users from
      congrFun hsame row
    by_contra hne
    obtain ⟨hget, hok⟩ := hchange.mp hne
    -- a change is answered `200`, and to no `GET`
    rcases hstatus with h | h | h
    · exact absurd (hok.symm.trans h) (by decide)
    · exact absurd (hok.symm.trans h) (by decide)
    · rw [hget] at h
      cases h
  · cases verdictOn users currentTime locals buffer numRead <;> simp [Verdict.status]

end Rinha
