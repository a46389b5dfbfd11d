import Rinha.Common.RingLog
import Rinha.Server.Model.ToJson
import Rinha.Store.Execute
/-!
# The statement

The writer's side of the ring, a wrapping index and a saturating count,
against the reader's, two traversals with a comma rule each. Between them
stands the log of what was applied: the writer keeps the ring holding its
last ten entries, and either traversal of such a ring lists them newest
first.
-/

namespace Rinha

variable {customer : Customer} {transaction : Transaction} {log : List Transaction}
variable {transactions : Vector Transaction 10}

/-! ## The writer -/

/-- A write shows at its own slot, if there is one. -/
theorem slot_writeSlot (i : Int8) (j : ℕ) :
    slot (writeSlot transactions i transaction) j =
      if i.toUInt8.toNat = j ∧ j < 10 then transaction else slot transactions j := by
  unfold slot writeSlot
  rw [Vector.getElem?_setIfInBounds]
  by_cases hi : i.toUInt8.toNat = j
  · by_cases hj : j < 10 <;> simp [hi, hj]
  · simp [hi]

/-- The customer's ring after the transactions of `log`. The count stops
at eleven: it is compared with ten before it is raised. -/
structure RingOf (log : List Transaction) (customer : Customer) : Prop where
  next : customer.nextTransactionIndex.toInt = (log.length % 10 : ℕ)
  count : customer.transactionCount.toInt = (min log.length 11 : ℕ)
  holds : RingLog.Holds 10 (slot customer.transactions) log

theorem RingOf.init (row : Fin 5) : RingOf [] (kInitialCustomers row) where
  next := rfl
  count := rfl
  holds := .nil

theorem next_apply {n : ℕ} (h : customer.nextTransactionIndex.toInt = (n % 10 : ℕ)) :
    (applyTransaction customer transaction).nextTransactionIndex.toInt = ((n + 1) % 10 : ℕ) := by
  rw [(appliedOnce customer transaction).next, h, Int.tmod_eq_emod_of_nonneg (by omega)]
  omega

theorem count_apply {n : ℕ} (h : customer.transactionCount.toInt = (min n 11 : ℕ)) :
    (applyTransaction customer transaction).transactionCount.toInt = (min (n + 1) 11 : ℕ) := by
  rw [(appliedOnce customer transaction).count, h]
  split <;> omega

/-- **The writer's step.** -/
theorem RingOf.apply (h : RingOf log customer) :
    RingOf (log ++ [transaction]) (applyTransaction customer transaction) where
  next := by simpa using next_apply h.next
  count := by simpa using count_apply h.count
  holds := by
    have hi := (toUInt8_eq_iff (by omega)).mpr h.next.symm
    refine h.holds.push ?_ fun j hj => ?_
    · simp only [applyTransaction, slot_writeSlot, hi]
      exact if_pos ⟨trivial, by omega⟩
    · simp only [applyTransaction, slot_writeSlot, hi]
      exact if_neg fun heq => hj heq.1.symm

theorem RingOf.foldl (h : RingOf log customer) (accepted : List Transaction) :
    RingOf (log ++ accepted) (accepted.foldl applyTransaction customer) := by
  induction accepted generalizing log customer with
  | nil => simpa using h
  | cons transaction accepted ih => simpa using ih h.apply

/-! ## The reader -/

/-- The entries, joined by commas. -/
def entries (latest : List Transaction) : Bytes :=
  comma.intercalate (latest.map transactionToJson)

theorem entries_cons {latest : List Transaction} :
    entries (transaction :: latest) =
      transactionToJson transaction ++ (if latest.length ≠ 0 then comma else []) ++
        entries latest := by
  simp only [entries, List.map_cons, Text.intercalate_cons, List.length_map]

/-- The traversal of a ring not yet full. -/
theorem toJsonDown_eq (n : ℕ) :
    toJsonDown transactions n =
      entries ((List.range n).map fun d => slot transactions (n - 1 - d)) := by
  induction n with
  | zero => rfl
  | succ n ih =>
      have hrest : (List.range n).map ((fun d => slot transactions (n + 1 - 1 - d)) ∘ Nat.succ) =
          (List.range n).map fun d => slot transactions (n - 1 - d) :=
        List.map_congr_left fun d _ => by
          simp only [Function.comp, Nat.succ_eq_add_one]
          congr 1
          omega
      rw [toJsonDown, ih, List.range_succ_eq_map, List.map_cons, List.map_map, hrest,
        entries_cons, List.length_map, List.length_range]
      rfl

theorem prev_index {p : ℕ} (h : 0 < p) :
    ((p % 10 : ℕ) - 1 + 10 : ℤ).tmod 10 = ((p - 1) % 10 : ℕ) := by
  rw [Int.tmod_eq_emod_of_nonneg (by omega)]
  omega

/-- The traversal of a full ring, from the slot of entry `p`. -/
theorem toJsonRing_eq {left p : ℕ} (h : left ≤ p + 1) :
    toJsonRing transactions left (p % 10 : ℕ) =
      entries ((List.range left).map fun d => slot transactions ((p - d) % 10)) := by
  induction left generalizing p with
  | zero => rfl
  | succ left ih =>
      have hrest : (List.range left).map ((fun d => slot transactions ((p - d) % 10)) ∘ Nat.succ) =
          (List.range left).map fun d => slot transactions ((p - 1 - d) % 10) :=
        List.map_congr_left fun d _ => by
          simp only [Function.comp, Nat.succ_eq_add_one]
          congr 2
          omega
      rw [toJsonRing, List.range_succ_eq_map, List.map_cons, List.map_map, hrest, entries_cons,
        List.length_map, List.length_range, Int.toNat_natCast, Nat.sub_zero]
      rcases Nat.eq_zero_or_pos left with rfl | hpos
      · rfl
      · rw [prev_index (by omega), ih (by omega)]

/-- **What is read back.** Either traversal lists the last ten entries of
the log, newest first. -/
theorem RingOf.transactionsToJson (h : RingOf log customer) :
    transactionsToJson customer.transactions customer.transactionCount.toInt
      customer.nextTransactionIndex.toInt = entries (log.reverse.take 10) := by
  rw [Rinha.transactionsToJson, h.count, h.next]
  split
  · have hlen : log.length < 10 := by omega
    have hread := h.holds.readBack (le_refl log.length) (by omega)
    have hplain : (List.range log.length).map
          (fun d => slot customer.transactions (log.length - 1 - d)) =
        (List.range log.length).map
          fun d => slot customer.transactions ((log.length - 1 - d) % 10) :=
      List.map_congr_left fun d _ => by rw [Nat.mod_eq_of_lt (a := log.length - 1 - d) (by omega)]
    rw [Int.toNat_natCast, Nat.mod_eq_of_lt hlen, toJsonDown_eq, hplain, hread,
      List.take_of_length_le (by simp), List.take_of_length_le (by simp; omega)]
  · have hlen : 10 ≤ log.length := by omega
    rw [prev_index (by omega), toJsonRing_eq (by omega), h.holds.readBack hlen (le_refl 10)]

/-- An entry that shows an amount, a type, a description and a time. -/
def shownEntry (n : ℕ) (tipo : UInt8) (descricao time : Bytes) : Bytes :=
  kTransacaoValor ++ Decimal.ofNat n ++ kTransacaoTipo ++ [tipo] ++ kTransacaoDescricao ++
    descricao ++ kTransacaoRealizada ++ time ++ kTransacaoEnd

theorem toInt_ne_minValue {x : Int32} : x ≠ Int32.minValue ↔ x.toInt ≠ -2147483648 := by
  rw [Ne, Ne, ← Int32.toInt_inj]
  rfl

/-- **The rendering of a transaction** shows what it moves, `c` if that is
more than nothing and `d` if not, and its texts up to their NULs. -/
theorem transactionToJson_shown (h : transaction.value ≠ Int32.minValue) :
    transactionToJson transaction =
      shownEntry transaction.value.toInt.natAbs (if 0 < transaction.value.toInt then 99 else 100)
        (Text.cstr transaction.description.toList) (Text.cstr transaction.timestamp.toList) := by
  have hpos : transaction.value > 0 ↔ 0 < transaction.value.toInt := Int32.lt_iff_toInt_lt
  have hmin := toInt_ne_minValue.mp h
  have hle := transaction.value.le_toInt
  have hlt := transaction.value.toInt_lt
  rw [transactionToJson, shownEntry]
  by_cases hcredit : 0 < transaction.value.toInt
  · rw [if_pos (hpos.mpr hcredit), if_pos (hpos.mpr hcredit), if_pos hcredit, Decimal.ofInt,
      if_neg (by omega)]
    rfl
  · have hopp : (-transaction.value).toInt = -transaction.value.toInt := by
      rw [Int32.toInt_neg, Int.bmod_eq_of_le (by omega) (by omega)]
    rw [if_neg (mt hpos.mp hcredit), if_neg (mt hpos.mp hcredit), if_neg hcredit, hopp,
      Decimal.ofInt, if_neg (by omega), Int.natAbs_neg]
    rfl

/-- What a statement says before its list. -/
def statementHead (customer : Customer) (dataExtrato : Bytes) : Bytes :=
  kTotal ++ Decimal.ofInt customer.balance.toInt ++ kData ++ dataExtrato ++ kLimite ++
    Decimal.ofInt customer.limit.toInt ++ kUltimas

/-- The statement of a customer whose ring holds the log. -/
theorem RingOf.customerToJson_eq (h : RingOf log customer) (dataExtrato : Bytes) :
    customerToJson customer dataExtrato =
      statementHead customer dataExtrato ++ entries (log.reverse.take 10) ++ kEnd := by
  rw [customerToJson, h.transactionsToJson, statementHead]

/-- **The ring after any calls on an initial customer.** -/
theorem ringOf_executeAll (passes : ℕ) (row : Fin 5) (out : Customer × Int32)
    (versions : Fin 5 → Int32) (transactions : List Transaction) :
    let run := (executeAll passes row out.1 out.2 transactions).run
      fun row => ⟨kInitialCustomers row, versions row⟩
    RingOf (acceptedOf transactions run.1) (run.2 row).data := by
  intro run
  have hdata : (run.2 row).data =
      (acceptedOf transactions run.1).foldl applyTransaction (kInitialCustomers row) :=
    executeAll_data passes transactions
  rw [hdata]
  simpa using (RingOf.init row).foldl (acceptedOf transactions run.1)

/-- **The statement after any calls on an initial customer** lists the
last ten transactions accepted, or all there are, newest first, each shown
with its amount, its type, its description and its time. -/
theorem customerToJson_executeAll (passes : ℕ) (row : Fin 5) (out : Customer × Int32)
    (versions : Fin 5 → Int32) (transactions : List Transaction) (dataExtrato : Bytes) :
    let run := (executeAll passes row out.1 out.2 transactions).run
      fun row => ⟨kInitialCustomers row, versions row⟩
    let accepted := acceptedOf transactions run.1
    let customer := (run.2 row).data
    ∃ latest : List Transaction, latest.length = min accepted.length 10 ∧
      latest.reverse <:+ accepted ∧
      (∀ t ∈ latest, t.value ≠ Int32.minValue → transactionToJson t =
        shownEntry t.value.toInt.natAbs (if 0 < t.value.toInt then 99 else 100)
          (Text.cstr t.description.toList) (Text.cstr t.timestamp.toList)) ∧
      customerToJson customer dataExtrato = statementHead customer dataExtrato ++
        comma.intercalate (latest.map transactionToJson) ++ kEnd := by
  intro run accepted customer
  refine ⟨accepted.reverse.take 10, by simp [Nat.min_comm], ?_,
    fun t _ => transactionToJson_shown, ?_⟩
  · rw [← List.reverse_prefix, List.reverse_reverse]
    exact List.take_prefix 10 _
  · exact (ringOf_executeAll passes row out versions transactions).customerToJson_eq dataExtrato

end Rinha
