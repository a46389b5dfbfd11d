import Rinha.Server.Layout
import Rinha.Server.Model.RequestHandler
import Rinha.Server.Statement
/-!
# What a statement shows of a write

The parser folds `valor` and `tipo` into one signed number, and the
renderer takes it apart by a test for a positive one. The two agree on
every amount but nothing: a credit of zero is shown as a debit.
-/

namespace Rinha

variable {n : ℕ} {tipo : UInt8} {descricao : Bytes} {http : StringView} {r request : Request}
variable {customer : Customer} {log : List Transaction} {t : Transaction}

/-- The body of a write. -/
def writeBody (n : ℕ) (tipo : UInt8) (descricao : Bytes) : Bytes :=
  Text.bytes "\x7b\"valor\": " ++ Decimal.ofNat n ++ Text.bytes ", \"tipo\": \"" ++ [tipo] ++
    Text.bytes "\", \"descricao\": \"" ++ descricao ++ Text.bytes "\"\x7d"

/-- What a client may write. -/
structure Writable (n : ℕ) (tipo : UInt8) (descricao : Bytes) : Prop where
  amount : n ≤ 2147483647
  tipo : tipo = 99 ∨ tipo = 100
  length : 1 ≤ descricao.length ∧ descricao.length ≤ 10
  no_quote : 34 ∉ descricao
  no_nul : 0 ∉ descricao

/-! ## What the parser stores -/

/-- The body has the layout the parser reads. -/
def Writable.layout (h : Writable n tipo descricao) : Layout where
  before := Text.bytes "\x7b\"valor\": "
  digits := Decimal.ofNat n
  key := Text.bytes " \"tipo\": \""
  tipo := tipo
  gap := Text.bytes "\", \"descricao\": \""
  description := descricao
  before_length := rfl
  digits_ok := Decimal.isDigit_of_mem_ofNat
  key_length := rfl
  tipo_ok := h.tipo
  gap_length := rfl
  no_quote := h.no_quote
  description_length := h.length

theorem Writable.encode_layout (h : Writable n tipo descricao) :
    h.layout.encode = writeBody n tipo descricao := by
  simp [Layout.encode, layout, writeBody, Text.bytes]

/-- **The transaction stored**, of a write that is accepted. -/
theorem Writable.stored (h : Writable n tipo descricao)
    (hbody : (jsonBody http).text = writeBody n tipo descricao)
    (hread : fromHttp http r = (true, request)) (htype : request.type = .transaction) :
    request.transaction.value = (if tipo = 100 then Int32.ofNat n * -1 else Int32.ofNat n) ∧
      Text.cstr request.transaction.description.toList = descricao := by
  have hlayout : (jsonBody http).text = h.layout.encode := hbody.trans h.encode_layout.symm
  cases fromHttp_eq_true.mp hread with
  | balance => cases htype
  | transaction id _ _ _ _ =>
      refine ⟨?_, ?_⟩
      · refine (Layout.amount_eq hlayout).trans ?_
        rw [Layout.amount, show h.layout.digits = Decimal.ofNat n from rfl, Decimal.value_ofNat]
        rfl
      · exact (Layout.cstr_description hlayout _).trans (Text.cstr_of_notMem h.no_nul)

/-! ## What the renderer shows -/

/-- A positive number is shown as a credit, and any other as a debit. -/
theorem Writable.shown (h : Writable n tipo descricao)
    (hvalue : t.value = if tipo = 100 then Int32.ofNat n * -1 else Int32.ofNat n)
    (hdescription : Text.cstr t.description.toList = descricao) :
    transactionToJson t =
      shownEntry n (if n = 0 then 100 else tipo) descricao (Text.cstr t.timestamp.toList) := by
  have hn := h.amount
  have hint : t.value.toInt = if tipo = 100 then -(n : ℤ) else n := by
    rw [hvalue]
    split
    · rw [toInt_mul_neg_one]
      exact Int.bmod_eq_of_le (by omega) (by omega)
    · exact Int32.toInt_ofNat_of_lt (by omega)
  have hmin : t.value ≠ Int32.minValue := by
    rw [toInt_ne_minValue, hint]
    split <;> omega
  have hnum : t.value.toInt.natAbs = n := by
    rw [hint]
    split <;> omega
  have hletter : (if 0 < t.value.toInt then 99 else 100) = if n = 0 then 100 else tipo := by
    rw [hint]
    rcases h.tipo with rfl | rfl
    · by_cases hzero : n = 0
      · simp [hzero]
      · simp [hzero, Nat.pos_of_ne_zero hzero]
    · simp
  rw [transactionToJson_shown hmin, hnum, hletter, hdescription]

/-- The type that is shown can be read off the entry. -/
theorem shownEntry_tipo_inj {tipo' : UInt8} {time rest rest' : Bytes}
    (h : shownEntry n tipo descricao time ++ rest =
      shownEntry n tipo' descricao time ++ rest') : tipo = tipo' := by
  simp only [shownEntry, List.append_assoc] at h
  have hbehind := List.append_cancel_left (List.append_cancel_left (List.append_cancel_left h))
  exact (List.cons.inj hbehind).1

/-! ## The statement -/

/-- The newest entry of the statement is `entry`. -/
def ShowsNewest (customer : Customer) (dataExtrato entry : Bytes) : Prop :=
  ∃ older : List Transaction, customerToJson customer dataExtrato =
    statementHead customer dataExtrato ++
      comma.intercalate (entry :: older.map transactionToJson) ++ kEnd

theorem RingOf.showsNewest (h : RingOf (log ++ [t]) customer) (dataExtrato : Bytes) :
    ShowsNewest customer dataExtrato (transactionToJson t) := by
  refine ⟨log.reverse.take 9, ?_⟩
  rw [h.customerToJson_eq, List.reverse_append, List.reverse_singleton, List.singleton_append,
    List.take_succ_cons, entries, List.map_cons]

/-- There is one newest entry, as far as the type it shows. -/
theorem ShowsNewest.tipo_inj {tipo' : UInt8} {dataExtrato time : Bytes}
    (h : ShowsNewest customer dataExtrato (shownEntry n tipo descricao time))
    (h' : ShowsNewest customer dataExtrato (shownEntry n tipo' descricao time)) :
    tipo = tipo' := by
  obtain ⟨older, hshown⟩ := h
  obtain ⟨older', hshown'⟩ := h'
  have hsame := hshown.symm.trans hshown'
  simp only [Text.intercalate_cons, List.append_assoc] at hsame
  exact shownEntry_tipo_inj (List.append_cancel_left hsame)

/-! ## Write, then read -/

/-- What the calls of `executeAll` leave of the initial table. -/
def tableAfter (passes : ℕ) (row : Fin 5) (out : Customer × Int32) (versions : Fin 5 → Int32)
    (earlier : List Transaction) : Users :=
  ((executeAll passes row out.1 out.2 earlier).run
    fun row => ⟨kInitialCustomers row, versions row⟩).2

theorem exists_ringOf_tableAfter (passes : ℕ) (row : Fin 5) (out : Customer × Int32)
    (versions : Fin 5 → Int32) (earlier : List Transaction) :
    ∃ log, RingOf log (tableAfter passes row out versions earlier row).data :=
  ⟨_, ringOf_executeAll passes row out versions earlier⟩

/-- The newest entry after a write that was accepted and committed. -/
theorem Writable.showsNewest (passes : ℕ) (row : Fin 5) (out : Customer × Int32)
    (versions : Fin 5 → Int32) (earlier : List Transaction) (currentTime : Vector UInt8 20)
    (dataExtrato : Bytes) (h : Writable n tipo descricao)
    (hbody : (jsonBody http).text = writeBody n tipo descricao)
    (hread : fromHttp http r = (true, request)) (htype : request.type = .transaction)
    (hid : rowIndex request.id = some row)
    (hcommit : ((mariaDbExecuteTransaction tableSocket (passes + 1) request.id
      (stamp request.transaction currentTime) out.1 out.2).run
        (tableAfter passes row out versions earlier)).1 = some (.success, customer)) :
    ShowsNewest customer dataExtrato (shownEntry n (if n = 0 then 100 else tipo) descricao
      (Text.cstr (stamp request.transaction currentTime).timestamp.toList)) := by
  obtain ⟨hvalue, hdescription⟩ := h.stored hbody hread htype
  have hshown := h.shown ((stamp_value request.transaction currentTime).trans hvalue)
    (by rw [stamp_description, hdescription])
  obtain ⟨log, hring⟩ := exists_ringOf_tableAfter passes row out versions earlier
  generalize stamp request.transaction currentTime = t at hshown hcommit ⊢
  rw [execute_table passes hid] at hcommit
  split at hcommit
  · cases hcommit
  · obtain rfl := (Prod.mk.inj (Option.some.inj hcommit)).2
    have hafter : RingOf (log ++ [t]) (applyTransaction _ t) := hring.apply
    rw [← hshown]
    exact hafter.showsNewest dataExtrato

/-- **Write, then read.** The newest entry of the statement shows a write
that was accepted and committed, after any others, as its body has it, if
and only if it is no credit of zero. -/
theorem showsNewest_iff (passes : ℕ) (row : Fin 5) (out : Customer × Int32)
    (versions : Fin 5 → Int32) (earlier : List Transaction) (currentTime : Vector UInt8 20)
    (dataExtrato : Bytes) (h : Writable n tipo descricao)
    (hbody : (jsonBody http).text = writeBody n tipo descricao)
    (hread : fromHttp http r = (true, request)) (htype : request.type = .transaction)
    (hid : rowIndex request.id = some row)
    (hcommit : ((mariaDbExecuteTransaction tableSocket (passes + 1) request.id
      (stamp request.transaction currentTime) out.1 out.2).run
        (tableAfter passes row out versions earlier)).1 = some (.success, customer)) :
    ShowsNewest customer dataExtrato (shownEntry n tipo descricao
        (Text.cstr (stamp request.transaction currentTime).timestamp.toList)) ↔
      ¬(n = 0 ∧ tipo = 99) := by
  have hnewest := h.showsNewest passes row out versions earlier currentTime dataExtrato hbody hread
    htype hid hcommit
  constructor
  · rintro hasked ⟨rfl, rfl⟩
    exact absurd (hasked.tipo_inj hnewest) (by decide)
  · intro hsome
    rcases h.tipo with rfl | rfl
    · rw [if_neg fun hzero => hsome ⟨hzero, rfl⟩] at hnewest
      exact hnewest
    · rw [ite_self] at hnewest
      exact hnewest

/-! ## A debit of twelve, and a credit of nothing -/

/-- The minute the requests below are served in. -/
def sampleTime : Vector UInt8 20 :=
  Vector.ofFn fun k => (Text.bytes "2024-02-27 21:36").getD k 0

/-- A request of customer 1 to write. -/
def writeRequest (n : ℕ) (tipo : UInt8) (descricao : Bytes) : StringView :=
  .ofBytes (Text.bytes "POST /clientes/1/transacoes HTTP/1.1" ++ Text.crlf2 ++
    writeBody n tipo descricao)

/-- What it is read as. -/
def readWrite (n : ℕ) (tipo : UInt8) : Bool × Request :=
  fromHttp (writeRequest n tipo (Text.bytes "a")) ⟨.balance, 0, Transaction.zero⟩

/-- Eleven credits, which go once round the ring. -/
def elevenCredits : List Transaction :=
  (List.range 11).map fun k => { Transaction.zero with value := Int32.ofNat (k + 1) }

/-- What its execution after those returns. -/
def executeWrite (n : ℕ) (tipo : UInt8) : Option (TransactionResult × Customer) :=
  ((mariaDbExecuteTransaction tableSocket 1 (readWrite n tipo).2.id
    (stamp (readWrite n tipo).2.transaction sampleTime) (initialCustomer 0) 0).run
      (tableAfter 0 0 (initialCustomer 0, 0) (fun _ => 0) elevenCredits)).1

/-- The time it is shown with. -/
def shownTime (n : ℕ) (tipo : UInt8) : Bytes :=
  Text.cstr (stamp (readWrite n tipo).2.transaction sampleTime).timestamp.toList

theorem showsNewest_twelve :
    ∃ customer, executeWrite 12 100 = some (.success, customer) ∧ customer.balance = 54 ∧
      (ShowsNewest customer [] (shownEntry 12 100 (Text.bytes "a") (shownTime 12 100)) ↔
        ¬(12 = 0 ∧ (100 : UInt8) = 99)) := by
  have hsuccess : (executeWrite 12 100).map (fun p => (p.1, p.2.balance)) =
      some (.success, 54) := by decide +kernel
  obtain ⟨⟨result, customer⟩, hcommit, hfacts⟩ := Option.map_eq_some_iff.mp hsuccess
  obtain ⟨rfl, hbalance⟩ := Prod.mk.inj hfacts
  refine ⟨customer, hcommit, hbalance, ?_⟩
  have hread : (readWrite 12 100).1 = true := by decide +kernel
  have hbody : (jsonBody (writeRequest 12 100 (Text.bytes "a"))).text =
      writeBody 12 100 (Text.bytes "a") := by decide +kernel
  exact showsNewest_iff 0 0 (initialCustomer 0, 0) (fun _ => 0) elevenCredits sampleTime []
    ⟨by decide, by decide, by decide, by decide, by decide⟩ hbody (Prod.ext hread rfl)
    (by decide +kernel) (by decide +kernel) hcommit

/-- **A credit of zero** is accepted and committed, and shown as a debit. -/
theorem not_showsNewest_zero :
    (jsonBody (writeRequest 0 99 (Text.bytes "a"))).text = writeBody 0 99 (Text.bytes "a") ∧
      (readWrite 0 99).1 = true ∧
      ∃ customer, executeWrite 0 99 = some (.success, customer) ∧
        ShowsNewest customer [] (shownEntry 0 100 (Text.bytes "a") (shownTime 0 99)) ∧
        ¬ShowsNewest customer [] (shownEntry 0 99 (Text.bytes "a") (shownTime 0 99)) := by
  have hsuccess : (executeWrite 0 99).map Prod.fst = some .success := by decide +kernel
  obtain ⟨⟨_, customer⟩, hcommit, rfl⟩ := Option.map_eq_some_iff.mp hsuccess
  have hread : (readWrite 0 99).1 = true := by decide +kernel
  have hbody : (jsonBody (writeRequest 0 99 (Text.bytes "a"))).text =
      writeBody 0 99 (Text.bytes "a") := by decide +kernel
  have hwritable : Writable 0 99 (Text.bytes "a") :=
    ⟨by decide, by decide, by decide, by decide, by decide⟩
  have hnewest := hwritable.showsNewest 0 0 (initialCustomer 0, 0) (fun _ => 0) elevenCredits
    sampleTime [] hbody (Prod.ext hread rfl) (by decide +kernel) (by decide +kernel) hcommit
  refine ⟨hbody, hread, customer, hcommit, hnewest, fun hasked => ?_⟩
  exact absurd (hasked.tipo_inj hnewest) (by decide)

end Rinha
