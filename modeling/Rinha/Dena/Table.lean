import Rinha.Common.Implements
import Rinha.Store.Image
import Rinha.Dena.Model.HandlerSocket
import Rinha.Dena.Opening
/-!
# The calls over bytes are the calls on the table

A store that keeps a table of rows and answers the two requests as its
protocol says, its answers cut in any way, is a table to the program: a
`Customer` goes out as bytes, is escaped, framed, stored, sent back, found
in the stream, unescaped where it lies and cast, and is the same
`Customer`. So every program written over the two calls does over the
connection what it does on the table (`mapM_implements`).
-/

namespace Rinha

/-! ## Numbers -/

theorem signed_digits {ds : Bytes} (h : ∀ b ∈ ds, Decimal.isDigit b = true) :
    signed (ds.dropWhile isSpace) = (1, ds) := by
  cases ds with
  | nil => rfl
  | cons b ds =>
      have hb := Decimal.le_of_isDigit (h b List.mem_cons_self)
      have hspace : ¬isSpace b = true := by
        simp only [isSpace, Bool.or_eq_true, Bool.and_eq_true, decide_eq_true_eq,
          UInt8.le_iff_toNat_le, ← UInt8.toNat_inj, UInt8.reduceToNat]
        omega
      have hminus : b ≠ 45 := by
        rintro rfl
        exact absurd hb (by decide)
      have hplus : b ≠ 43 := by
        rintro rfl
        exact absurd hb (by decide)
      rw [List.dropWhile_cons_of_neg hspace]
      unfold signed
      split
      · rename_i heq
        exact absurd (List.cons.inj heq).1 hminus
      · rename_i heq
        exact absurd (List.cons.inj heq).1 hplus
      · rfl

theorem takeWhile_digits {ds : Bytes} (h : ∀ b ∈ ds, Decimal.isDigit b = true) :
    (ds.takeWhile fun b => 48 ≤ b && b ≤ 57) = ds := by
  rw [List.takeWhile_eq_self_iff]
  exact h

theorem stoi_eq {text ds : Bytes} (sign : ℤ)
    (h : signed (text.dropWhile isSpace) = (sign, ds))
    (hdigits : ∀ b ∈ ds, Decimal.isDigit b = true) (hne : ds ≠ [])
    (hlo : -2 ^ 31 ≤ sign * (Decimal.value ds : ℕ)) (hhi : sign * (Decimal.value ds : ℕ) < 2 ^ 31) :
    stoi text = some (Int32.ofInt (sign * (Decimal.value ds : ℕ))) := by
  have hbad : ¬(ds = [] ∨ sign * (Decimal.value ds : ℕ) < -2 ^ 31 ∨
      2 ^ 31 ≤ sign * (Decimal.value ds : ℕ)) := by
    rintro (hnil | hlt | hge)
    · exact hne hnil
    · omega
    · omega
  rw [stoi, h]
  simp only [takeWhile_digits hdigits]
  exact if_neg hbad

/-- **`std::stoi` undoes `std::to_string`.** -/
theorem stoi_toString (x : Int32) : stoi (Dena.toString x) = some x := by
  have hlo := x.le_toInt
  have hhi := x.toInt_lt
  have hdigits : ∀ b ∈ Decimal.ofNat x.toInt.natAbs, Decimal.isDigit b = true :=
    Decimal.isDigit_of_mem_ofNat
  have hvalue : Decimal.value (Decimal.ofNat x.toInt.natAbs) = x.toInt.natAbs :=
    Decimal.value_ofNat _
  have hne := Decimal.ofNat_ne_nil x.toInt.natAbs
  by_cases hneg : x.toInt < 0
  · have hx : -1 * (x.toInt.natAbs : ℤ) = x.toInt := by omega
    rw [Dena.toString, Decimal.ofInt, if_pos hneg,
      stoi_eq (-1) rfl hdigits hne (by rw [hvalue]; omega) (by rw [hvalue]; omega), hvalue,
      hx, Int32.ofInt_toInt]
  · have hx : 1 * (x.toInt.natAbs : ℤ) = x.toInt := by omega
    rw [Dena.toString, Decimal.ofInt, if_neg hneg,
      stoi_eq 1 (signed_digits hdigits) hdigits hne (by rw [hvalue]; omega) (by rw [hvalue]; omega),
      hvalue, hx, Int32.ofInt_toInt]

namespace Dena

variable {σ : Type} {mem : ℕ → UInt8} {refs : List (Option (ℕ × ℕ))}

/-! ## One row -/

/-- References to three fields that are there. -/
theorem values_three {a b d : Bytes} (h : Hstcpcli.values mem refs = [some a, some b, some d]) :
    ∃ p q r : ℕ × ℕ, refs = [some p, some q, some r] ∧ Memory.slice mem p.1 p.2 = a ∧
      Memory.slice mem q.1 q.2 = b ∧ Memory.slice mem r.1 r.2 = d := by
  obtain ⟨p, refs, rfl, hp, h⟩ := List.map_eq_cons_iff.mp h
  obtain ⟨q, refs, rfl, hq, h⟩ := List.map_eq_cons_iff.mp h
  obtain ⟨r, refs, rfl, hr, h⟩ := List.map_eq_cons_iff.mp h
  obtain rfl : refs = [] := List.map_eq_nil_iff.mp h
  obtain ⟨p, rfl, ha⟩ := Option.map_eq_some_iff.mp hp
  obtain ⟨q, rfl, hb⟩ := Option.map_eq_some_iff.mp hq
  obtain ⟨r, rfl, hd⟩ := Option.map_eq_some_iff.mp hr
  exact ⟨p, q, r, rfl, ha, hb, hd⟩

/-- **A row of a `Customer` is read as it was written.** -/
theorem readFields_image (before : Customer) (version' : Int32) {id : Bytes} {customer : Customer}
    {version : Int32} {padding : ℕ → UInt8}
    (h : Hstcpcli.values mem refs =
      [some id, some (customer.image padding), some (toString version)]) :
    readFields mem 0 refs (before, version') = some (customer, version) := by
  obtain ⟨p, q, r, rfl, -, hdata, hversion⟩ := values_three h
  have hsize : q.2 = sizeofCustomer := by
    rw [← Customer.length_image customer padding, ← hdata, Memory.length_slice]
  rw [hsize] at hdata
  simp [readFields, Customer.ofMemory_image hdata, hversion, stoi_toString]

/-- And a count of modified rows. -/
theorem modifiedFields_count (modified : Bool) {x : Int32}
    (h : Hstcpcli.values mem refs = [some (toString x)]) :
    modifiedFields mem refs modified = some (modified || decide (x > 0)) := by
  obtain ⟨p, refs, rfl, hp, h⟩ := List.map_eq_cons_iff.mp h
  obtain rfl : refs = [] := List.map_eq_nil_iff.mp h
  obtain ⟨p, rfl, hcount⟩ := Option.map_eq_some_iff.mp hp
  have hslice : Memory.slice mem p.1 p.2 = toString x := hcount
  simp [modifiedFields, hslice, stoi_toString]

/-! ## One exchange -/

namespace Hstcpcli

variable {c c' : Hstcpcli} {r : ExecGeneric} {numFlds : UInt32} {row : List (Option Bytes)}

/-- What an exchange with one row for an answer comes to. -/
structure Exchanged (c : Hstcpcli) (numFlds : UInt32) (row : List (Option Bytes))
    (refs : List (Option (ℕ × ℕ))) (c' : Hstcpcli) : Prop where
  values : Hstcpcli.values c'.readbuf.buffer refs = row
  last : c'.getNextRow = (none, c')
  idle : c'.responseBufRemove.Idle

/-- **One exchange**: the request goes out, the row of the answer is handed
out, then no other, and the client is left as it was found. -/
theorem Idle.exchange {net : Network σ} {peer : σ} (h : c.Idle)
    (hsent : sendCount (text [r]).length (net.exchange (text [r]) peer).1 = (text [r]).length)
    (hbytes : (net.exchange (text [r]) peer).2.1.bytes = responses [.rows numFlds [row]])
    (hending : (net.exchange (text [r]) peer).2.1.ending = .eagain)
    (hrow : row.length = numFlds.toNat) (hne : numFlds ≠ 0) :
    ∃ c₁ c₂ refs c₃, requestSend net (c.requestBufExecGeneric r) peer =
        ((0, c₁), (net.exchange (text [r]) peer).2.2) ∧ c₁.errorCode = 0 ∧
      c₁.responseRecv 0 = (0, numFlds.toNat, c₂) ∧ c₂.errorCode = 0 ∧
      2 ≤ c₂.responseEndOffset ∧ c₂.getNextRow = (some refs, c₃) ∧
      Exchanged c numFlds row refs c₃ := by
  obtain ⟨writebuf, hwritten, hsend⟩ := h.requestSend_eq net peer
    (List.cons_ne_nil r [])
  rw [if_pos hsent] at hsend
  generalize hc₁ : ({ c.clearError with
    writebuf := writebuf
    inbox := extend c.inbox (net.exchange (text [r]) peer).2.1
    numReqSent := [r].length } : Hstcpcli) = c₁ at hsend
  have hinbox : c₁.inbox.bytes = c.inbox.bytes ++ responses [.rows numFlds [row]] ∧
      c₁.inbox.ending = .eagain := by
    rw [← hc₁, ← hbytes]
    simp only [extend, if_pos h.ending, Inbox.bytes, List.flatten_append, hending, and_self]
  have hawaiting : c₁.Awaiting := by
    rw [← hc₁]
    exact ⟨by simp only [clearError]; decide, h.bufd, Nat.one_pos, h.sync.2, h.response, h.opened⟩
  have hvalid : (Response.rows numFlds [row]).Valid :=
    ⟨fun x hx => by rw [List.mem_singleton.mp hx, hrow], fun h => absurd h hne⟩
  have hstream : c₁.readbuf.contents ++ c₁.inbox.bytes =
      (Response.rows numFlds [row]).line ++ newline :: [] := by
    have hbuf : c₁.readbuf = c.readbuf := by rw [← hc₁]; rfl
    rw [hbuf, hinbox.1, ← List.append_assoc, h.stream]
    simp [responses]
  -- the answer is received
  obtain ⟨c₂, hrecv, hreceived⟩ :=
    responseRecv_line (n := 0) hawaiting hstream (newline_notMem_line hvalid)
  have hline : readLine (Response.rows numFlds [row]).line =
      ⟨0, numFlds, [row].flatten.map delimValue⟩ :=
    readLine_intercalate fun token htoken => by
      obtain ⟨value, -, rfl⟩ := List.mem_map.mp htoken
      exact clean_delimValue
  have hflds : c₂.numFlds = row.length := by rw [hreceived.numFlds, hline, hrow]
  have hpending : c₂.pending = row := by
    rw [hreceived.pending, hline, if_neg (not_not_intro rfl), map_readValue, List.flatten_cons,
      List.flatten_nil, List.append_nil]
  have hpos : row.length ≠ 0 := by
    rw [hrow]
    exact fun hzero => hne (UInt32.toNat_inj.mp hzero)
  -- its row, and no other
  obtain ⟨refs, c₃, hnext, hread⟩ := getNextRow_some hreceived.buffered (by rwa [hflds])
    (by rw [hpending]; exact fun hnil => hpos (by rw [hnil]; rfl))
  have hrows : (rows 1 c₂).2 = c₃ := by rw [rows, hnext]; rfl
  have hok : ¬(readLine (Response.rows numFlds [row]).line).code.toInt32 < 0 := by
    rw [hline]
    change ¬(0 : Int32) < 0
    decide
  have htook := (hreceived.toHolding.rows 1).took hawaiting hok
  rw [hrows] at htook
  rw [hline] at hrecv
  refine ⟨c₁, c₂, refs, c₃, hsend, ?_, hrecv, ?_, ?_, hnext, ?_, ?_, ?_⟩
  · rw [← hc₁]
    rfl
  · rw [hreceived.errorCode, hline]
    rfl
  · have hlength := length_table_le hvalid.1 hvalid.2
    rw [List.length_singleton] at hlength
    rw [hreceived.response]
    omega
  · have hderef := hread.deref
    rw [hpending, hflds, rowOf, List.take_length, Nat.sub_self, List.replicate_zero,
      List.append_nil] at hderef
    exact hderef
  · refine getNextRow_none (.inr ?_)
    rw [hread.pending, hpending, hflds, List.drop_length]
  · refine ⟨⟨⟨?_, htook.rcvd⟩, htook.bufd, ?_, htook.opened, htook.error⟩, htook.response,
      htook.stream, ?_⟩
    · rw [htook.sent, ← hc₁]
      rfl
    · rw [htook.writebuf, ← hc₁]
      exact hwritten
    · rw [htook.ending]
      exact hinbox.2

end Hstcpcli

/-! ## A store that keeps a table -/

open Dena.Hstcpcli

/-- What a store answers requests with that it has read. -/
abbrev Reader (σ : Type) := List Asked → σ → WriteResult × Inbox UInt8 × σ

/-- The store, behind a connection. -/
def Reader.network {σ : Type} (answer : Reader σ) : Network σ :=
  ⟨fun bytes => answer (readAsked bytes)⟩

/-- An answer of one row: the whole request was taken, and the row comes, in
whatever pieces. -/
structure Answers {σ : Type} (out : WriteResult × Inbox UInt8 × σ) (request : Bytes)
    (numFlds : UInt32) (row : List (Option Bytes)) : Prop where
  taken : sendCount request.length out.1 = request.length
  bytes : out.2.1.bytes = responses [.rows numFlds [row]]
  ending : out.2.1.ending = .eagain

/-- The protocol, for the two requests of this program: a key is looked up,
and a row is updated where its version is the one named, with the answer
saying how many were. -/
structure Serves {σ : Type} (answer : Reader σ) (table : σ → Fin 5 → Bytes × Int32)
    (readId writeId : ℕ) : Prop where
  find : ∀ s id, Answers (answer [.exec (some (findCustomer readId id))] s)
      (text [findCustomer readId id]) 3
      [some (idBuf id), some (table s id).1, some (toString (table s id).2)] ∧
    table (answer [.exec (some (findCustomer readId id))] s).2.2 = table s
  update : ∀ s id data version,
    Answers (answer [.exec (some (updateCustomer writeId id data version))] s)
        (text [updateCustomer writeId id data version]) 1
        [some (toString (if (table s id).2 = version then 1 else 0))] ∧
      table (answer [.exec (some (updateCustomer writeId id data version))] s).2.2 =
        if (table s id).2 = version then Function.update (table s) id (data, version + 1)
        else table s

/-- Clients between calls, and a store whose rows hold the bytes of a table's
`Customer`s. -/
structure Linked {σ : Type} (table : σ → Fin 5 → Bytes × Int32) (readId writeId : ℕ)
    (clients : Clients σ) (users : Users) : Prop where
  read : clients.readPtr.Idle
  readId : clients.readPtrId = readId
  write : clients.writePtr.Idle
  writeId : clients.writePtrId = writeId
  data : ∀ id, ∃ padding, (table clients.peer id).1 = (users id).data.image padding
  version : ∀ id, (table clients.peer id).2 = (users id).version

variable {answer : Reader σ} {table : σ → Fin 5 → Bytes × Int32} {readId writeId : ℕ}

theorem plain_findCustomer (id : Fin 5) (h : readId < 2 ^ 32) : (findCustomer readId id).Plain where
  pstId := h
  kvs := by simp [findCustomer]
  op := clean_bytes (Text.bytes "=") (by decide)
  modOp := nofun
  mvs := fun _ => rfl
  fils := rfl
  keypart := rfl
  invalues := rfl

theorem plain_updateCustomer (id : Fin 5) (data : Bytes) (version : Int32) (h : writeId < 2 ^ 32) :
    (updateCustomer writeId id data version).Plain where
  pstId := h
  kvs := by simp [updateCustomer]
  op := clean_bytes (Text.bytes "=") (by decide)
  modOp := clean_bytes (Text.bytes "U") (by decide)
  mvs := nofun
  fils := rfl
  keypart := rfl
  invalues := rfl

theorem exchange_network (answer : Reader σ) (s : σ) {r : ExecGeneric} (h : r.Plain) :
    answer.network.exchange (text [r]) s = answer [.exec (some r)] s :=
  congrArg (answer · s) (readAsked_text h)

/-- The row loop of `ReadCustomerHs`, over an answer of one row. -/
theorem readRows_one {left : ℕ} {c c' : Hstcpcli} {out out' : Customer × Int32} (h : 2 ≤ left)
    (hnext : c.getNextRow = (some refs, c')) (hlast : c'.getNextRow = (none, c'))
    (hrow : readFields c'.readbuf.buffer 0 refs out = some out') :
    readRows left c out = some (out', c') := by
  obtain ⟨left, rfl⟩ := Nat.exists_eq_add_of_le' h
  rw [readRows, hnext]
  dsimp only
  rw [hrow, Option.bind_some, readRows, hlast]

/-- And that of `WriteCustomerHs`. -/
theorem modifiedRows_one {left : ℕ} {c c' : Hstcpcli} {modified modified' : Bool} (h : 2 ≤ left)
    (hnext : c.getNextRow = (some refs, c')) (hlast : c'.getNextRow = (none, c'))
    (hrow : modifiedFields c'.readbuf.buffer refs modified = some modified') :
    modifiedRows left c modified = some (modified', c') := by
  obtain ⟨left, rfl⟩ := Nat.exists_eq_add_of_le' h
  rw [modifiedRows, hnext]
  dsimp only
  rw [hrow, Option.bind_some, modifiedRows, hlast]

/-- **`ReadCustomerHs`** is the read of the row. -/
theorem readCustomerHs_implements (hserves : Serves answer table readId writeId)
    (hread : readId < 2 ^ 32) (id : Fin 5) (customer : Customer) (version : Int32) :
    Implements (Linked table readId writeId) (readCustomerHs answer.network id customer version)
      (tableSocket.readCustomerHs id customer version) := by
  intro clients users h
  obtain ⟨hanswer, htable⟩ := hserves.find clients.peer id
  have hnet := exchange_network answer clients.peer
    (plain_findCustomer id hread)
  rw [← hnet] at hanswer htable
  obtain ⟨c₁, c₂, refs, c₃, hsend, herror, hrecv, herror', hfuel, hnext, hvalues, hlast, hidle⟩ :=
    h.read.exchange hanswer.taken hanswer.bytes hanswer.ending rfl (by decide)
  obtain ⟨padding, hdata⟩ := h.data id
  rw [hdata, h.version id] at hvalues
  have hrows := readRows_one hfuel hnext hlast
    (readFields_image customer version hvalues)
  refine ⟨{ clients with readPtr := c₃.responseBufRemove,
                         peer := (answer.network.exchange (text [findCustomer readId id])
                           clients.peer).2.2 }, ?_, ?_⟩
  · unfold readCustomerHs
    simp only [h.readId, hsend, herror, hrecv, herror', hrows, ne_eq, not_true_eq_false, if_false]
    rfl
  · refine ⟨hidle, h.readId, h.write, h.writeId, fun id' => ?_, fun id' => ?_⟩
    · simp only [htable]
      exact h.data id'
    · simp only [htable]
      exact h.version id'

/-- **`WriteCustomerHs`** is the conditional write. -/
theorem writeCustomerHs_implements (hserves : Serves answer table readId writeId)
    (hwrite : writeId < 2 ^ 32) (padding : ℕ → UInt8) (id : Fin 5) (customer : Customer)
    (version : Int32) :
    Implements (Linked table readId writeId)
      (writeCustomerHs answer.network padding id customer version)
      (tableSocket.writeCustomerHs id customer version) := by
  intro clients users h
  obtain ⟨hanswer, htable⟩ := hserves.update clients.peer id (customer.image padding) version
  have hnet := exchange_network answer clients.peer
    (plain_updateCustomer id (customer.image padding) version hwrite)
  rw [← hnet] at hanswer htable
  rw [h.version id] at hanswer htable
  obtain ⟨c₁, c₂, refs, c₃, hsend, herror, hrecv, herror', hfuel, hnext, hvalues, hlast, hidle⟩ :=
    h.write.exchange hanswer.taken hanswer.bytes hanswer.ending rfl (by decide)
  have hrows := modifiedRows_one hfuel hnext hlast
    (modifiedFields_count false hvalues)
  have hspec : tableSocket.writeCustomerHs id customer version users =
      users.write id customer version := rfl
  rw [hspec, Users.write]
  refine ⟨{ clients with writePtr := c₃.responseBufRemove,
                         peer := (answer.network.exchange (text [updateCustomer writeId id
                           (customer.image padding) version]) clients.peer).2.2 }, ?_, ?_⟩
  · unfold writeCustomerHs
    simp only [h.writeId, hsend, herror, hrecv, herror', hrows, ne_eq, not_true_eq_false, if_false]
    split
    · rfl
    · rfl
  · split
    · rename_i hhit
      rw [if_pos hhit] at htable
      refine ⟨h.read, h.readId, hidle, h.writeId, fun id' => ?_, fun id' => ?_⟩
      · by_cases hid : id' = id
        · subst hid
          exact ⟨padding, by simp only [htable, Function.update_self]⟩
        · simp only [htable, Function.update_of_ne hid]
          exact h.data id'
      · by_cases hid : id' = id
        · subst hid
          simp only [htable, Function.update_self]
        · simp only [htable, Function.update_of_ne hid]
          exact h.version id'
    · rename_i hmiss
      rw [if_neg hmiss] at htable
      refine ⟨h.read, h.readId, hidle, h.writeId, fun id' => ?_, fun id' => ?_⟩
      · simp only [htable]
        exact h.data id'
      · simp only [htable]
        exact h.version id'

/-! ## Such a store -/

/-- An answer of one row, in one piece. -/
def oneRow {σ : Type} (request : Bytes) (numFlds : UInt32) (row : List (Option Bytes)) (s : σ) :
    WriteResult × Inbox UInt8 × σ :=
  (.wrote request.length, ⟨[responses [.rows numFlds [row]]], .eagain, by simp [responses]⟩, s)

theorem answers_oneRow {request : Bytes} {numFlds : UInt32} {row : List (Option Bytes)} {s : σ} :
    Answers (oneRow request numFlds row s) request numFlds row where
  taken := by simp [oneRow, sendCount]
  bytes := by simp [oneRow, Inbox.bytes]
  ending := rfl

theorem nil_nonempty : ∀ chunk ∈ ([] : List Bytes), chunk ≠ [] := nofun

theorem opened_nonempty : ∀ chunk ∈ [responses [.rows 1 []]], chunk ≠ [] := by
  simp [responses]

/-- The row of an `id`. -/
def rowOfKey (key : Bytes) : Fin 5 :=
  ⟨((key.headD 0).toNat - 48) % 5, Nat.mod_lt _ (Nat.succ_pos 4)⟩

/-- A store that is its table. -/
def keeper : Reader (Fin 5 → Bytes × Int32) := fun rs table =>
  match rs with
  | [.exec (some r)] =>
      let id := rowOfKey ((r.kvs.headD none).getD [])
      match r.mvs with
      | [_, some data, some version] =>
          let hit := r.kvs[1]? = some (some (toString (table id).2))
          oneRow (text [r]) 1 [some (toString (if hit then 1 else 0))]
            (if hit then Function.update table id (data, (stoi version).getD 0) else table)
      | _ => oneRow (text [r]) 3
          [some (idBuf id), some (table id).1, some (toString (table id).2)] table
  | [.openIndex (some r)] =>
      (.wrote (openText r).length, ⟨[responses [.rows 1 []]], .eagain, opened_nonempty⟩, table)
  | _ => (.error, ⟨[], .eagain, nil_nonempty⟩, table)

theorem toString_inj {x y : Int32} : toString x = toString y ↔ x = y := by
  refine ⟨fun h => ?_, congrArg toString⟩
  have hstoi := congrArg stoi h
  rw [stoi_toString, stoi_toString] at hstoi
  exact Option.some.inj hstoi

theorem serves_keeper : Serves keeper (fun table => table) readId writeId := by
  have hid : ∀ id : Fin 5, rowOfKey (idBuf id) = id := by decide
  refine ⟨fun s id => ?_, fun s id data version => ?_⟩
  · have hkeeper : keeper [.exec (some (findCustomer readId id))] s =
        oneRow (text [findCustomer readId id]) 3
          [some (idBuf id), some (s id).1, some (toString (s id).2)] s := by
      simp only [keeper, findCustomer, List.headD_cons, Option.getD_some, hid]
    rw [hkeeper]
    exact ⟨answers_oneRow, rfl⟩
  · have hkeeper : keeper [.exec (some (updateCustomer writeId id data version))] s =
        oneRow (text [updateCustomer writeId id data version]) 1
          [some (toString (if (s id).2 = version then 1 else 0))]
          (if (s id).2 = version then Function.update s id (data, version + 1) else s) := by
      simp only [keeper, updateCustomer, List.headD_cons, Option.getD_some, hid,
        List.getElem?_cons_succ, List.getElem?_cons_zero, Option.some.injEq, toString_inj,
        stoi_toString, eq_comm]
    rw [hkeeper]
    exact ⟨answers_oneRow, rfl⟩

end Dena

/-! ## Programs over the two calls -/

section

variable {X Y ε : Type} {R : X → Y → Prop}

/-- One pair of calls does what another does. -/
structure HandlerSocket.Follows (R : X → Y → Prop) (hs : HandlerSocket (StateT X (Except ε)))
    (hs' : HandlerSocket (StateM Y)) : Prop where
  read : ∀ row customer version,
    Implements R (hs.readCustomerHs row customer version)
      (hs'.readCustomerHs row customer version)
  write : ∀ row customer version,
    Implements R (hs.writeCustomerHs row customer version)
      (hs'.writeCustomerHs row customer version)

variable {hs : HandlerSocket (StateT X (Except ε))} {hs' : HandlerSocket (StateM Y)}

theorem attempt_implements (h : hs.Follows R hs') (row : Fin 5) (transaction : Transaction)
    (customer : Customer) (version : Int32) :
    Implements R (attempt hs row transaction customer version)
      (attempt hs' row transaction customer version) := by
  unfold attempt
  refine (h.read row customer version).bind ?_
  rintro ⟨success, customer, version⟩
  refine .ite (.pure _) (.ite (.pure _) ?_)
  refine (h.write row _ version).bind fun modified => ?_
  exact .ite (.pure _) (.pure _)

theorem executeLoop_implements (h : hs.Follows R hs') (row : Fin 5) (transaction : Transaction)
    (version : Int32) (passes : ℕ) (customer : Customer) :
    Implements R (executeLoop hs row transaction version passes customer)
      (executeLoop hs' row transaction version passes customer) := by
  induction passes generalizing customer with
  | zero => exact .pure _
  | succ passes ih =>
      unfold executeLoop
      refine (attempt_implements h row transaction customer version).bind ?_
      rintro ⟨result | result, customer⟩
      · exact ih customer
      · exact .pure _

/-- A call of `maria_database.h`, with what its out-parameter and its
uninitialised local hold before. -/
inductive DbCall
  | execute (id : Int32) (transaction : Transaction) (customer : Customer) (version : Int32)
  | get (id : Int32) (customer : Customer) (version : Int32)

/-- What it returns, and the out-parameter. -/
inductive DbAnswer
  | executed (result : Option (TransactionResult × Customer))
  | got (success : Bool) (customer : Customer)
  deriving DecidableEq

def DbCall.run {m : Type → Type} [Monad m] (hs : HandlerSocket m) (passes : ℕ) :
    DbCall → m DbAnswer
  | .execute id transaction customer version => do
    return .executed (← mariaDbExecuteTransaction hs passes id transaction customer version)
  | .get id customer version => do
    let (success, customer) ← mariaDbGetCustomer hs id customer version
    return .got success customer

theorem run_implements (h : hs.Follows R hs') (passes : ℕ) (call : DbCall) :
    Implements R (call.run hs passes) (call.run hs' passes) := by
  cases call with
  | execute id transaction customer version =>
      refine Implements.bind ?_ fun _ => .pure _
      unfold mariaDbExecuteTransaction
      cases rowIndex id with
      | none => exact .pure _
      | some row => exact executeLoop_implements h row transaction version passes customer
  | get id customer version =>
      refine Implements.bind ?_ fun _ => .pure _
      unfold mariaDbGetCustomer
      cases rowIndex id with
      | none => exact .pure _
      | some row => exact (h.read row customer version).bind fun _ => .pure _

end

namespace Dena

/-- **The program over the connection is the program on the table.** With a
store that keeps its table by the protocol, however its answers are cut,
every sequence of `MariaDbExecuteTransaction` and `MariaDbGetCustomer`
calls returns over the bytes what it returns on the table itself, leaves
the store's rows the bytes of that table, and the clients ready for more. -/
theorem mapM_implements {σ : Type} (answer : Reader σ) (table : σ → Fin 5 → Bytes × Int32)
    (readId writeId : ℕ) (hserves : Serves answer table readId writeId) (hread : readId < 2 ^ 32)
    (hwrite : writeId < 2 ^ 32) (padding : ℕ → UInt8) (passes : ℕ) (calls : List DbCall) :
    Implements (Linked table readId writeId)
      (calls.mapM (DbCall.run (byteSocket answer.network padding) passes))
      (calls.mapM (DbCall.run tableSocket passes)) :=
  .mapM (run_implements ⟨readCustomerHs_implements hserves hread,
    writeCustomerHs_implements hserves hwrite padding⟩ passes) calls

/-- The clients at start, and a store of the initial rows. -/
def freshClients : Clients (Fin 5 → Bytes × Int32) where
  readPtr := .create true none fun _ => 0
  readPtrId := 0
  writePtr := .create true none fun _ => 0
  writePtrId := 1
  peer := fun id => ((kInitialCustomers id).image fun _ => 0, 1)

theorem linked_freshClients :
    Linked (fun table => table) 0 1 freshClients fun id => ⟨kInitialCustomers id, 1⟩ := by
  have hidle : (Hstcpcli.create true none fun _ => 0).Idle :=
    ⟨⟨⟨rfl, rfl⟩, rfl, rfl, rfl, by decide⟩, rfl, rfl, rfl⟩
  exact ⟨hidle, rfl, hidle, rfl, fun id => ⟨fun _ => 0, rfl⟩, fun id => rfl⟩

/-- A credit, and the customer read back. -/
theorem mapM_implements_credit :
    let calls : List DbCall := [.execute 1 { Transaction.zero with value := 7 }
      (initialCustomer 0) 0, .get 1 (initialCustomer 0) 0]
    ∃ clients, calls.mapM (DbCall.run (byteSocket keeper.network fun _ => 0) 1) freshClients =
      .ok ((calls.mapM (DbCall.run tableSocket 1) fun id => ⟨kInitialCustomers id, 1⟩).1,
        clients) := by
  intro calls
  obtain ⟨clients, hrun, -⟩ := mapM_implements keeper (fun table => table) 0 1 serves_keeper
    (by decide) (by decide) (fun _ => 0) 1 calls freshClients _ linked_freshClients
  exact ⟨clients, hrun⟩

end Dena
end Rinha
