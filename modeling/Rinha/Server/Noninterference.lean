import Rinha.Server.Effect
import Rinha.Server.Parse
import Rinha.Server.Statement
/-!
# What a response depends on

A response is a matter of the request's own bytes, the time and the table.
Neither what earlier requests left in the buffer, nor the thread's
variables, nor what the uninitialised ones happen to hold can be seen in
it. The text behind the NUL of an array can differ, so two tables are
compared as the statement shows them.
-/

namespace Rinha

/-! ## The same text -/

/-- The two transactions look the same. -/
structure Transaction.Same (t t' : Transaction) : Prop where
  value : t.value = t'.value
  description : Text.cstr t.description.toList = Text.cstr t'.description.toList
  timestamp : Text.cstr t.timestamp.toList = Text.cstr t'.timestamp.toList

/-- The two customers look the same. -/
structure Customer.Same (c c' : Customer) : Prop where
  limit : c.limit = c'.limit
  balance : c.balance = c'.balance
  count : c.transactionCount = c'.transactionCount
  next : c.nextTransactionIndex = c'.nextTransactionIndex
  slots : ∀ i, (slot c.transactions i).Same (slot c'.transactions i)

/-- The two tables look the same. -/
structure Users.Same (users users' : Users) : Prop where
  data : ∀ row, (users row).data.Same (users' row).data
  version : ∀ row, (users row).version = (users' row).version

theorem Transaction.Same.refl (t : Transaction) : t.Same t := ⟨rfl, rfl, rfl⟩

theorem Customer.Same.refl (c : Customer) : c.Same c := ⟨rfl, rfl, rfl, rfl, fun _ => .refl _⟩

theorem Users.Same.refl (users : Users) : users.Same users := ⟨fun _ => .refl _, fun _ => rfl⟩

section

variable {t t' : Transaction} {c c' : Customer} {users users' : Users}
variable {currentTime : Vector UInt8 20}

theorem Transaction.Same.toJson (h : t.Same t') : transactionToJson t = transactionToJson t' := by
  simp only [transactionToJson, h.value, h.description, h.timestamp]

theorem toJsonDown_same {transactions transactions' : Vector Transaction 10}
    (h : ∀ i, (slot transactions i).Same (slot transactions' i)) (n : ℕ) :
    toJsonDown transactions n = toJsonDown transactions' n := by
  induction n with
  | zero => rfl
  | succ n ih => rw [toJsonDown, toJsonDown, ih, (h n).toJson]

theorem toJsonRing_same {transactions transactions' : Vector Transaction 10}
    (h : ∀ i, (slot transactions i).Same (slot transactions' i)) (left : ℕ) (i : ℤ) :
    toJsonRing transactions left i = toJsonRing transactions' left i := by
  induction left generalizing i with
  | zero => rfl
  | succ left ih => rw [toJsonRing, toJsonRing, ih, (h i.toNat).toJson]

theorem Customer.Same.toJson (h : c.Same c') (dataExtrato : Bytes) :
    customerToJson c dataExtrato = customerToJson c' dataExtrato := by
  unfold customerToJson transactionsToJson
  rw [h.limit, h.balance, h.count, h.next, toJsonDown_same h.slots, toJsonRing_same h.slots]

theorem Customer.Same.limitExceeded (h : c.Same c') (ht : t.value = t'.value) :
    limitExceeded c t = limitExceeded c' t' := by
  unfold Rinha.limitExceeded
  rw [h.limit, h.balance, ht]

theorem Customer.Same.apply (h : c.Same c') (ht : t.Same t') :
    (applyTransaction c t).Same (applyTransaction c' t') where
  limit := h.limit
  balance := by
    unfold applyTransaction
    rw [h.balance, ht.value]
  count := by
    unfold applyTransaction
    rw [h.count]
  next := by
    unfold applyTransaction
    rw [h.next]
  slots i := by
    simp only [applyTransaction, slot_writeSlot, h.next]
    split
    · exact ht
    · exact h.slots i

theorem Users.Same.apply (h : users.Same users') (ht : t.Same t') (row : Fin 5) :
    (users.apply row t).Same (users'.apply row t') where
  data row' := by
    by_cases hrow : row' = row
    · subst hrow
      rw [Users.apply_self, Users.apply_self]
      exact (h.data row').apply ht
    · rw [Users.apply_of_ne hrow, Users.apply_of_ne hrow]
      exact h.data row'
  version row' := by
    by_cases hrow : row' = row
    · subst hrow
      rw [Users.apply_self, Users.apply_self, h.version]
    · rw [Users.apply_of_ne hrow, Users.apply_of_ne hrow]
      exact h.version row'

end

/-! ## The verdict -/

/-- The two verdicts look the same. -/
inductive Verdict.Same : Verdict → Verdict → Prop
  | unparsed : Same .unparsed .unparsed
  | unknown : Same .unknown .unknown
  | statement (row : Fin 5) : Same (.statement row) (.statement row)
  | exceeded (row : Fin 5) : Same (.exceeded row) (.exceeded row)
  | accepted (row : Fin 5) {t t' : Transaction} (h : t.Same t') :
      Same (.accepted row t) (.accepted row t')

section

variable {users users' : Users} {currentTime : Vector UInt8 20} {r r' : Request}

theorem Request.Same.stamp (h : r.Same r') (htype : r.type = .transaction) :
    (stamp r.transaction currentTime).Same (stamp r'.transaction currentTime) where
  value := by
    unfold Rinha.stamp
    exact h.value htype
  description := by
    unfold Rinha.stamp
    exact h.description htype
  timestamp := by
    unfold Rinha.stamp
    rw [cstr_strcpy, cstr_strcpy]

theorem verdict_same (husers : users.Same users') (hr : r.Same r') :
    (verdict users currentTime (true, r)).Same (verdict users' currentTime (true, r')) := by
  simp only [verdict, Bool.not_true, Bool.false_eq_true, if_false, ← hr.id]
  cases rowIndex r.id with
  | none => exact .unknown
  | some row =>
      simp only [← hr.type]
      cases htype : r.type with
      | balance => exact .statement row
      | transaction =>
          simp only
          rw [limitExceeded_stamp, limitExceeded_stamp,
            (husers.data row).limitExceeded (hr.value htype)]
          cases limitExceeded (users' row).data r'.transaction with
          | true => exact .exceeded row
          | false => exact .accepted row (hr.stamp htype)

theorem Verdict.Same.after {v v' : Verdict} (h : v.Same v') (husers : users.Same users') :
    (users.after v).Same (users'.after v') := by
  cases h with
  | accepted row ht => exact husers.apply ht row
  | _ => exact husers

end

/-! ## The response -/

section

variable {users users' : Users}

/-- The two windows are cleared before they are written, so nothing that was
in the buffer shows. -/
theorem ResultBuffer.build_bytes (b b' : ResultBuffer) {c c' : Customer}
    (hlimit : c.limit = c'.limit) (hbalance : c.balance = c'.balance) :
    (b.build c).bytes = (b'.build c').bytes := by
  have hcleared : ∀ i (hi : i < kResultSize),
      ¬(kSaldoBeginIdx ≤ i ∧ i < kSaldoBeginIdx + (kSaldoEndIdx - kSaldoBeginIdx + 1)) →
      ¬(kLimiteBeginIdx ≤ i ∧ i < kLimiteBeginIdx + (kLimiteEndIdx - kLimiteBeginIdx + 1)) →
      b.bytes[i] = b'.bytes[i] := fun i hi hsaldo hlimite => by
    have hout : ¬ InWindow i := by
      simp only [InWindow, kLimiteBeginIdx, kLimiteEndIdx, kSaldoBeginIdx, kSaldoEndIdx] at *
      omega
    rw [b.agrees i hi hout, b'.agrees i hi hout]
  -- outside the windows both are as they were initialized
  have hblank : setBlank (setBlank b.bytes kLimiteBeginIdx (kLimiteEndIdx - kLimiteBeginIdx + 1))
        kSaldoBeginIdx (kSaldoEndIdx - kSaldoBeginIdx + 1) =
      setBlank (setBlank b'.bytes kLimiteBeginIdx (kLimiteEndIdx - kLimiteBeginIdx + 1))
        kSaldoBeginIdx (kSaldoEndIdx - kSaldoBeginIdx + 1) := by
    refine Vector.ext fun i hi => ?_
    simp only [getElem_setBlank hi]
    split
    · rfl
    · rename_i hsaldo
      split
      · rfl
      · rename_i hlimite
        exact hcleared i hi hsaldo hlimite
  simp only [ResultBuffer.build, buildTransactionResponse, hlimit, hbalance, hblank]

theorem responseOf_same {currentTime : Vector UInt8 20} (thread thread' : ThreadLocals)
    {v v' : Verdict} (h : v.Same v') (husers : users.Same users') :
    responseOf (thread.after users currentTime v) v =
      responseOf (thread'.after users' currentTime v') v' := by
  cases h with
  | unparsed => rfl
  | unknown => rfl
  | statement row =>
      simp only [responseOf, ThreadLocals.after, (husers.data row).toJson]
  | exceeded row => rfl
  | accepted row ht =>
      have happly := (husers.data row).apply ht
      simp only [responseOf, ThreadLocals.after]
      rw [ResultBuffer.build_bytes _ _ happly.limit happly.balance]

/-- A buffer shows what was read into it, up to a NUL. -/
theorem viewOf_same {buffer buffer' : ℕ → UInt8} {n : ℕ} (h : ∀ i, i < n → buffer i = buffer' i) :
    (viewOf buffer n).Same (viewOf buffer' n) := by
  have hfind : ((List.range n).find? fun i => buffer i == 0) =
      (List.range n).find? fun i => buffer' i == 0 :=
    StringView.find?_congr fun i hi => by rw [h i (List.mem_range.mp hi)]
  refine ⟨by simp only [viewOf, hfind], fun i hi => ?_⟩
  -- the view ends at the first NUL, which is written at `n` at the latest
  have hin : i < n ∨ i = n := by
    simp only [viewOf] at hi
    cases hcase : (List.range n).find? fun i => buffer i == 0 with
    | none =>
        rw [hcase, Option.getD_none] at hi
        exact .inl hi
    | some j =>
        have := List.mem_range.mp (List.mem_of_find?_eq_some hcase)
        rw [hcase, Option.getD_some] at hi
        omega
  rcases hin with hlt | rfl
  · simp only [StringView.get, viewOf, terminate, Nat.zero_add, h i hlt]
  · simp [StringView.get, viewOf, terminate]

/-- With no NUL in it, all of it. -/
theorem viewOf_size {bytes : Bytes} (hnul : 0 ∉ bytes) {buffer : ℕ → UInt8}
    (hbuffer : ∀ i, i < bytes.length → buffer i = bytes.getD i 0) :
    (viewOf buffer bytes.length).size = bytes.length := by
  have hnone : ((List.range bytes.length).find? fun i => buffer i == 0) = none := by
    rw [List.find?_eq_none]
    intro i hi hzero
    have hlt := List.mem_range.mp hi
    rw [beq_iff_eq, hbuffer i hlt, ← List.getElem_eq_getD (h := hlt)] at hzero
    exact hnul (hzero ▸ List.getElem_mem hlt)
  simp [viewOf, hnone]

/-- **A request's answer and effect** depend on its own bytes, the time and
the table as it looks. -/
theorem processRequest_same (currentTime : Vector UInt8 20) (thread thread' : ThreadLocals)
    (husers : users.Same users') {bytes : Bytes} (hnul : 0 ∉ bytes)
    (hsize : 16 ≤ bytes.length) {buffer buffer' : ℕ → UInt8}
    (hbuffer : ∀ i, i < bytes.length → buffer i = bytes.getD i 0)
    (hbuffer' : ∀ i, i < bytes.length → buffer' i = bytes.getD i 0)
    (passes passes' : ℕ) (locals locals' : Locals) :
    ∃ response left left' after after',
      (processRequest tableSocket (passes + 1) currentTime locals thread buffer
        bytes.length).run users = (some (response, left), after) ∧
      (processRequest tableSocket (passes' + 1) currentTime locals' thread' buffer'
        bytes.length).run users' = (some (response, left'), after') ∧
      after.Same after' := by
  have hview : (viewOf buffer bytes.length).Same (viewOf buffer' bytes.length) :=
    viewOf_same fun i hi => (hbuffer i hi).trans (hbuffer' i hi).symm
  have hlong : 16 ≤ (viewOf buffer bytes.length).size := by rwa [viewOf_size hnul hbuffer]
  obtain ⟨hsuccess, hrequest⟩ := fromHttp_same hview hlong locals.request locals'.request
  have hverdict : (verdictOn users currentTime locals buffer bytes.length).Same
      (verdictOn users' currentTime locals' buffer' bytes.length) := by
    unfold verdictOn
    generalize fromHttp (viewOf buffer bytes.length) locals.request = p at hsuccess hrequest ⊢
    generalize fromHttp (viewOf buffer' bytes.length) locals'.request = p' at hsuccess hrequest ⊢
    obtain ⟨success, r⟩ := p
    obtain ⟨success', r'⟩ := p'
    obtain rfl : success = success' := hsuccess
    cases success with
    | false => exact .unparsed
    | true => exact verdict_same husers (hrequest rfl)
  have hrun' :=
    @processRequest_table users' currentTime locals' thread' buffer' bytes.length passes'
  simp only [← responseOf_same thread thread' hverdict husers] at hrun'
  exact ⟨_, _, _, _, _, processRequest_table passes, hrun', hverdict.after husers⟩

end

end Rinha
