import Rinha.Server.Model.Extrato
import Rinha.Server.WriteRead
/-!
# When a statement is JSON

Descriptions go from the request to the statement as they are, and all
the parser asks of one is that it has no quote. So the statement is JSON
just where each description in it may stand between quotes: a backslash
at the end of one takes the quote behind it along.
-/

namespace Rinha

open Json

variable {tokens : List Token} {rest time : Bytes} {e : Entry} {t : Transaction}

/-! ## An entry -/

/-- The description as the renderer reads it. -/
def descricaoOf (t : Transaction) : Bytes := Text.cstr t.description.toList

/-- And the time. -/
def realizadaEmOf (t : Transaction) : Bytes := Text.cstr t.timestamp.toList

/-- The entry is what the renderer writes of the transaction. -/
structure Writes (e : Entry) (t : Transaction) : Prop where
  valor : e.valor.text =
    Decimal.ofInt (if t.value > 0 then t.value else -t.value).toInt
  tipo : e.tipo.text = if t.value > 0 then Text.bytes "c" else Text.bytes "d"
  descricao : e.descricao.text = descricaoOf t
  realizadaEm : e.realizadaEm.text = realizadaEmOf t

/-- A transaction as it comes from a request and the clock. -/
structure Clean (t : Transaction) : Prop where
  descricao : 34 ∉ descricaoOf t
  realizadaEm : (realizadaEmOf t).all isPlain = true

theorem transactionToJson_append : transactionToJson t ++ rest =
    123 :: 34 :: (Text.bytes "valor" ++ 34 :: 58 ::
      (Decimal.ofInt (if t.value > 0 then t.value else -t.value).toInt ++ 44 ::
        34 :: (Text.bytes "tipo" ++ 34 :: 58 ::
          34 :: ((if t.value > 0 then Text.bytes "c" else Text.bytes "d") ++ 34 :: 44 ::
            34 :: (Text.bytes "descricao" ++ 34 :: 58 ::
              34 :: (descricaoOf t ++ 34 :: 44 ::
                34 :: (Text.bytes "realizada_em" ++ 34 :: 58 ::
                  34 :: (realizadaEmOf t ++ 34 :: 125 :: rest)))))))) := by
  have hvalor : kTransacaoValor = 123 :: 34 :: (Text.bytes "valor" ++ [34, 58]) := rfl
  have htipo : kTransacaoTipo = 44 :: 34 :: (Text.bytes "tipo" ++ [34, 58, 34]) := rfl
  have hdescricao : kTransacaoDescricao =
      34 :: 44 :: 34 :: (Text.bytes "descricao" ++ [34, 58, 34]) := rfl
  have hrealizada : kTransacaoRealizada =
      34 :: 44 :: 34 :: (Text.bytes "realizada_em" ++ [34, 58, 34]) := rfl
  have hend : kTransacaoEnd = [34, 125] := rfl
  simp only [transactionToJson, hvalor, htipo, hdescricao, hrealizada, hend, descricaoOf,
    realizadaEmOf, List.append_assoc, List.cons_append, List.nil_append]

theorem all_isPlain_tipo (t : Transaction) :
    (if t.value > 0 then Text.bytes "c" else Text.bytes "d").all isPlain = true := by
  split <;> decide

/-- **An entry and what follows it.** -/
theorem spells_entry (h : Clean t) :
    Spells (e.tokens ++ tokens) (transactionToJson t ++ rest) ↔
      Writes e t ∧ Spells tokens rest := by
  have htipo := all_isPlain_tipo t
  -- behind the description comes the quote of a name that is not a comma
  have hcomma : ∀ {tokens : List Token} {behind : Bytes},
      Spells (.string e.descricao :: .punct 44 :: tokens)
          (34 :: (descricaoOf t ++ 34 :: 44 :: 34 :: (Text.bytes "realizada_em" ++ behind))) ↔
        e.descricao.text = descricaoOf t ∧
          Spells (.punct 44 :: tokens) (44 :: 34 :: (Text.bytes "realizada_em" ++ behind)) :=
    spells_string_comma (c := 114) h.descricao (by decide) (by decide)
  rw [transactionToJson_append]
  simp only [Entry.tokens, List.cons_append, List.nil_append]
  rw [spells_punct_self (by decide), spells_key, spells_punct_self (by decide),
    spells_integer (isNumeric_of_mem_ofInt _) (ofInt_ne_nil _) (by decide) (by decide),
    spells_punct_self (by decide), spells_key, spells_punct_self (by decide), spells_plain htipo,
    spells_punct_self (by decide), spells_key, spells_punct_self (by decide), hcomma,
    spells_punct_self (by decide), spells_key, spells_punct_self (by decide),
    spells_plain h.realizadaEm, spells_punct_self (by decide)]
  constructor
  · rintro ⟨hvalor, htipo, hdescricao, hrealizada, hrest⟩
    exact ⟨⟨hvalor, htipo, hdescricao, hrealizada⟩, hrest⟩
  · rintro ⟨⟨hvalor, htipo, hdescricao, hrealizada⟩, hrest⟩
    exact ⟨hvalor, htipo, hdescricao, hrealizada, hrest⟩

/-! ## The statement -/

/-- **The entries and the end of the list.** -/
theorem spells_entries {es : List Entry} {latest : List Transaction}
    (h : ∀ t ∈ latest, Clean t) :
    Spells (entryTokens es ++ [.punct 93, .punct 125]) (entries latest ++ kEnd) ↔
      List.Forall₂ Writes es latest := by
  induction latest generalizing es with
  | nil =>
      have htext : entries [] ++ kEnd = [93, 125] := rfl
      rw [htext]
      cases es with
      | nil =>
          rw [entryTokens, List.nil_append, spells_punct_self (by decide),
            spells_punct_self (by decide)]
          exact iff_of_true spells_nil .nil
      | cons e es =>
          rw [entryTokens, Entry.tokens, List.append_assoc, List.cons_append,
            spells_punct (by decide)]
          exact iff_of_false (fun h => absurd h.1 (by decide)) nofun
  | cons t latest ih =>
      have hrest := fun t ht => h t (List.mem_cons_of_mem _ ht)
      rw [entries_cons, List.append_assoc, List.append_assoc]
      cases es with
      | nil =>
          rw [entryTokens, List.nil_append, transactionToJson_append, spells_punct (by decide)]
          exact iff_of_false (fun h => absurd h.1 (by decide)) nofun
      | cons e es =>
          rw [entryTokens, List.append_assoc, List.append_assoc,
            spells_entry (h t List.mem_cons_self), List.forall₂_cons]
          refine and_congr_right fun _ => ?_
          have hlatest := @ih es hrest
          -- both lists go on, with a comma, or neither does
          cases es with
          | nil =>
              cases latest with
              | nil => exact hlatest
              | cons t' latest =>
                  refine iff_of_false (fun hspells => ?_) nofun
                  have hend : Spells [.punct 93, .punct 125]
                      (44 :: (entries (t' :: latest) ++ kEnd)) := hspells
                  rw [spells_punct (by decide)] at hend
                  exact absurd hend.1 (by decide)
          | cons e' es =>
              cases latest with
              | nil =>
                  refine iff_of_false (fun hspells => ?_) nofun
                  have hend : Spells (.punct 44 :: (entryTokens (e' :: es) ++
                      [.punct 93, .punct 125])) (93 :: [125]) := hspells
                  rw [spells_punct (by decide)] at hend
                  exact absurd hend.1 (by decide)
              | cons t' latest =>
                  have hcomma : comma = [44] := rfl
                  simp only [List.isEmpty_cons, Bool.false_eq_true, if_false, List.length_cons,
                    ne_eq, Nat.add_one_ne_zero, not_false_eq_true, if_true, hcomma,
                    List.cons_append, List.nil_append]
                  rw [spells_punct_self (by decide)]
                  exact hlatest

/-- **What a statement says before its list**, and what follows. -/
theorem spells_head {x : Extrato} {customer : Customer} {dataExtrato : Bytes}
    (h : dataExtrato.all isPlain = true) :
    Spells x.tokens (statementHead customer dataExtrato ++ rest) ↔
      x.total.text = Decimal.ofInt customer.balance.toInt ∧ x.dataExtrato.text = dataExtrato ∧
        x.limite.text = Decimal.ofInt customer.limit.toInt ∧
          Spells (entryTokens x.ultimasTransacoes ++ [.punct 93, .punct 125]) rest := by
  have htotal : kTotal = 123 :: 34 :: (Text.bytes "saldo" ++ 34 :: 58 :: 123 ::
      34 :: (Text.bytes "total" ++ [34, 58])) := rfl
  have hdata : kData = 44 :: 34 :: (Text.bytes "data_extrato" ++ [34, 58, 34]) := rfl
  have hlimite : kLimite = 34 :: 44 :: 34 :: (Text.bytes "limite" ++ [34, 58]) := rfl
  have hultimas : kUltimas = 125 :: 44 :: 34 :: (Text.bytes "ultimas_transacoes" ++
      [34, 58, 91]) := rfl
  simp only [statementHead, htotal, hdata, hlimite, hultimas, Extrato.tokens, List.append_assoc,
    List.cons_append, List.nil_append]
  rw [spells_punct_self (by decide), spells_key, spells_punct_self (by decide),
    spells_punct_self (by decide), spells_key, spells_punct_self (by decide),
    spells_integer (isNumeric_of_mem_ofInt _) (ofInt_ne_nil _) (by decide) (by decide),
    spells_punct_self (by decide), spells_key, spells_punct_self (by decide), spells_plain h,
    spells_punct_self (by decide), spells_key, spells_punct_self (by decide),
    spells_integer (isNumeric_of_mem_ofInt _) (ofInt_ne_nil _) (by decide) (by decide),
    spells_punct_self (by decide), spells_punct_self (by decide), spells_key,
    spells_punct_self (by decide), spells_punct_self (by decide)]

/-- An entry can be written where its description can stand in a string. -/
theorem exists_writes_iff (h : Clean t) : (∃ e, Writes e t) ↔ Content (descricaoOf t) := by
  constructor
  · rintro ⟨e, he⟩
    exact he.descricao ▸ e.descricao.ok
  · intro hcontent
    exact ⟨⟨.ofInt (if t.value > 0 then t.value else -t.value).toInt,
      ⟨_, content_of_plain (all_isPlain_tipo t)⟩, ⟨_, hcontent⟩,
      ⟨_, content_of_plain h.realizadaEm⟩⟩, Integer.text_ofInt _, rfl, rfl, rfl⟩

theorem exists_forall₂_writes_iff {latest : List Transaction} (h : ∀ t ∈ latest, Clean t) :
    (∃ es, List.Forall₂ Writes es latest) ↔ ∀ t ∈ latest, Content (descricaoOf t) := by
  induction latest with
  | nil => exact iff_of_true ⟨[], .nil⟩ nofun
  | cons t latest ih =>
      have hlatest := ih fun t ht => h t (List.mem_cons_of_mem _ ht)
      rw [List.forall_mem_cons, ← hlatest, ← exists_writes_iff (h t List.mem_cons_self)]
      constructor
      · rintro ⟨_ | ⟨e, es⟩, hwrites⟩
        · cases hwrites
        · obtain ⟨he, hes⟩ := List.forall₂_cons.mp hwrites
          exact ⟨⟨e, he⟩, es, hes⟩
      · rintro ⟨⟨e, he⟩, es, hes⟩
        exact ⟨e :: es, .cons he hes⟩

/-- **A statement is JSON** just where the descriptions it lists may stand
in strings. -/
theorem isExtrato_iff {customer : Customer} {log : List Transaction} {dataExtrato : Bytes}
    (hring : RingOf log customer) (hdate : dataExtrato.all isPlain = true)
    (hlog : ∀ t ∈ log, Clean t) :
    IsExtrato (customerToJson customer dataExtrato) ↔
      ∀ t ∈ log.reverse.take 10, Content (descricaoOf t) := by
  have hclean : ∀ t ∈ log.reverse.take 10, Clean t := fun t ht =>
    hlog t (List.mem_reverse.mp (List.mem_of_mem_take ht))
  rw [← exists_forall₂_writes_iff hclean, IsExtrato, hring.customerToJson_eq]
  simp only [List.append_assoc, spells_head hdate, spells_entries hclean]
  constructor
  · rintro ⟨x, -, -, -, hwrites⟩
    exact ⟨_, hwrites⟩
  · rintro ⟨es, hwrites⟩
    exact ⟨⟨.ofInt customer.balance.toInt, ⟨dataExtrato, content_of_plain hdate⟩,
      .ofInt customer.limit.toInt, es⟩, Integer.text_ofInt _, rfl, Integer.text_ofInt _, hwrites⟩

/-! ## What is posted -/

/-- What `GetTime` writes: `2024-02-27 21:36`. -/
def ClockText (text : Bytes) : Prop :=
  text.all (Text.bytes "0123456789-: ").contains = true

instance (text : Bytes) : Decidable (ClockText text) := inferInstanceAs (Decidable (_ = true))

theorem ClockText.isPlain {text : Bytes} (h : ClockText text) : text.all isPlain = true := by
  have hplain : (Text.bytes "0123456789-: ").all Json.isPlain = true := by decide
  refine List.all_eq_true.mpr fun b hb => List.all_eq_true.mp hplain b ?_
  exact List.contains_iff_mem.mp (List.all_eq_true.mp h b hb)

/-- The description in the body of a request, up to a NUL. -/
def postedDescricao (http : StringView) : Bytes :=
  Text.cstr (((jsonBody http).text.drop (startDescIdx (jsonBody http))).takeWhile (· ≠ 34))

/-- **The description stored** is the one in the body, and has no quote. -/
theorem cstr_description_of_read {http : StringView} {r s : Request}
    (hread : fromHttp http r = (true, s)) (htype : s.type = .transaction)
    (hfits : http.size ≤ npos) :
    Text.cstr s.transaction.description.toList = postedDescricao http ∧
      34 ∉ postedDescricao http := by
  cases fromHttp_eq_true.mp hread with
  | balance => cases htype
  | transaction id _ _ _ hbody =>
      obtain ⟨l, hl⟩ := (accepted_iff_layout (Nat.le_trans (Nat.sub_le ..) hfits)).mp hbody
      have hposted : postedDescricao http = Text.cstr l.description := by
        have hplain : ∀ b ∈ l.description, (b ≠ 34 : Bool) = true := fun b hb => by
          have hne : b ≠ 34 := fun hquote => l.no_quote (hquote ▸ hb)
          simpa using hne
        rw [postedDescricao, Layout.startDescIdx_eq hl, hl, l.encode_eq, List.append_assoc,
          List.drop_left, List.takeWhile_append_of_pos hplain]
        simp
      rw [hposted]
      exact ⟨l.cstr_description hl _,
        fun hmem => l.no_quote ((List.takeWhile_prefix _).subset hmem)⟩

/-- A request that `FromHttp` accepts as a transaction, and the time it is
executed at. -/
structure Posted where
  http : StringView
  before : Request
  request : Request
  currentTime : Vector UInt8 20
  read : fromHttp http before = (true, request)
  type : request.type = .transaction
  fits : http.size ≤ npos
  clock : ClockText (Text.cstr currentTime.toList)

namespace Posted

variable {p : Posted}

/-- What is executed. -/
def transaction (p : Posted) : Transaction := stamp p.request.transaction p.currentTime

theorem descricaoOf_transaction (p : Posted) :
    descricaoOf p.transaction = postedDescricao p.http := by
  rw [descricaoOf, transaction, stamp_description]
  exact (cstr_description_of_read p.read p.type p.fits).1

theorem clean (p : Posted) : Clean p.transaction where
  descricao := by
    rw [p.descricaoOf_transaction]
    exact (cstr_description_of_read p.read p.type p.fits).2
  realizadaEm := by
    have htime : realizadaEmOf p.transaction = Text.cstr p.currentTime.toList := by
      rw [realizadaEmOf, transaction, stamp]
      exact cstr_strcpy _ _
    rw [htime]
    exact p.clock.isPlain

end Posted

/-- The requests executed on an initial customer, one after the other: what
the calls return, and the table. -/
def execute (passes : ℕ) (row : Fin 5) (out : Customer × Int32) (versions : Fin 5 → Int32)
    (posted : List Posted) : List (Option (TransactionResult × Customer)) × Users :=
  (executeAll passes row out.1 out.2 (posted.map Posted.transaction)).run
    fun row => ⟨kInitialCustomers row, versions row⟩

section

variable (passes : ℕ) (row : Fin 5) (out : Customer × Int32) (versions : Fin 5 → Int32)

theorem ringOf_execute {posted : List Posted}
    (h : Committed (execute passes row out versions posted).1) :
    RingOf (posted.map Posted.transaction)
      ((execute passes row out versions posted).2 row).data := by
  have hring : RingOf (acceptedOf _ (execute passes row out versions posted).1)
      ((execute passes row out versions posted).2 row).data :=
    ringOf_executeAll passes row out versions (posted.map Posted.transaction)
  have hall : acceptedOf (posted.map Posted.transaction)
      (execute passes row out versions posted).1 = posted.map Posted.transaction :=
    acceptedOf_of_committed passes h
  rwa [hall] at hring

/-- **Valid JSON.** After requests that were accepted and committed on an
initial customer, the statement is the JSON it is meant to be if and only
if the last ten descriptions posted may stand between quotes. -/
theorem isExtrato_posted_iff (posted : List Posted) (dataExtrato : Bytes)
    (hdate : ClockText dataExtrato) (h : Committed (execute passes row out versions posted).1) :
    IsExtrato (customerToJson ((execute passes row out versions posted).2 row).data dataExtrato) ↔
      ∀ p ∈ posted.reverse.take 10, Content (postedDescricao p.http) := by
  have hlog : ∀ t ∈ posted.map Posted.transaction, Clean t :=
    List.forall_mem_map.mpr fun p _ => p.clean
  rw [isExtrato_iff (ringOf_execute passes row out versions h) hdate.isPlain hlog,
    ← List.map_reverse, ← List.map_take, List.forall_mem_map]
  simp only [Posted.descricaoOf_transaction]

end

/-- A credit of one cent. -/
def postOf (descricao : Bytes)
    (h : (fromHttp (writeRequest 1 99 descricao) ⟨.balance, 0, Transaction.zero⟩).1 = true)
    (htype : (fromHttp (writeRequest 1 99 descricao) ⟨.balance, 0, Transaction.zero⟩).2.type =
      .transaction) (hfits : (writeRequest 1 99 descricao).size ≤ npos) : Posted where
  http := writeRequest 1 99 descricao
  before := ⟨.balance, 0, Transaction.zero⟩
  request := (fromHttp (writeRequest 1 99 descricao) ⟨.balance, 0, Transaction.zero⟩).2
  currentTime := sampleTime
  read := Prod.ext h rfl
  type := htype
  fits := hfits
  clock := by decide +kernel

def letterPost : Posted :=
  postOf (Text.bytes "a") (by decide +kernel) (by decide +kernel) (by decide +kernel)

/-- A description that is one backslash. -/
def backslashPost : Posted :=
  postOf (Text.bytes "\\") (by decide +kernel) (by decide +kernel) (by decide +kernel)

/-- A backslash, and ten letters after it. -/
def elevenPosts : List Posted := backslashPost :: List.replicate 10 letterPost

/-- The tenth letter takes the backslash off the statement. -/
theorem isExtrato_posted_eleven :
    Committed (execute 0 0 (initialCustomer 0, 0) (fun _ => 0) elevenPosts).1 ∧
      IsExtrato (customerToJson
        ((execute 0 0 (initialCustomer 0, 0) (fun _ => 0) elevenPosts).2 0).data
        (Text.bytes "2024-02-27 21:36")) := by
  have hcommitted : Committed (execute 0 0 (initialCustomer 0, 0) (fun _ => 0) elevenPosts).1 := by
    unfold Committed
    decide +kernel
  have hdate : ClockText (Text.bytes "2024-02-27 21:36") := by decide
  have hcontent : ∀ p ∈ elevenPosts.reverse.take 10, Content (postedDescricao p.http) := by
    have hlast : elevenPosts.reverse.take 10 = List.replicate 10 letterPost := rfl
    rw [hlast]
    intro p hp
    obtain rfl := List.eq_of_mem_replicate hp
    have hplain : (postedDescricao letterPost.http).all isPlain = true := by decide +kernel
    exact content_of_plain hplain
  exact ⟨hcommitted,
    (isExtrato_posted_iff 0 0 _ _ elevenPosts _ hdate hcommitted).mpr hcontent⟩

/-- **A backslash breaks the statement** of its customer. -/
theorem not_isExtrato_backslash :
    (fromHttp backslashPost.http backslashPost.before).1 = true ∧
      Committed (execute 0 0 (initialCustomer 0, 0) (fun _ => 0) [backslashPost]).1 ∧
      ¬IsExtrato (customerToJson
        ((execute 0 0 (initialCustomer 0, 0) (fun _ => 0) [backslashPost]).2 0).data
        (Text.bytes "2024-02-27 21:36")) := by
  have hcommitted :
      Committed (execute 0 0 (initialCustomer 0, 0) (fun _ => 0) [backslashPost]).1 := by
    unfold Committed
    decide +kernel
  have hdate : ClockText (Text.bytes "2024-02-27 21:36") := by decide
  refine ⟨congrArg Prod.fst backslashPost.read, hcommitted, fun hextrato => ?_⟩
  have hring := ringOf_execute 0 0 _ _ hcommitted
  have hclean : ∀ t ∈ [backslashPost].map Posted.transaction, Clean t :=
    List.forall_mem_map.mpr fun p _ => p.clean
  have hcontent := (isExtrato_iff hring hdate.isPlain hclean).mp hextrato backslashPost.transaction
    (List.mem_singleton.mpr rfl)
  have hposted : postedDescricao backslashPost.http = [92] := by decide +kernel
  rw [Posted.descricaoOf_transaction, hposted] at hcontent
  cases hcontent with
  | plain hplain _ => cases hplain

end Rinha
