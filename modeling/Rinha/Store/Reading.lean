import Mathlib.Data.List.Basic
import Mathlib.Data.List.Induction
import Rinha.Store.Acknowledge
/-!
# Which row a customer is read from

`ReadCustomerHs` returns true on every normal reply. Its loops assign the
customer from one field and the version from another, wherever they find
them, and the customer as many bytes long as a `Customer` is, so what it
returns is one row's only if the last row that has either has both, the
data in full (`sameRow_iff`). Of a reply without rows it returns what was
in memory.
-/

namespace Rinha

variable {behind : ℕ → ℕ → UInt8} {mem : ℕ → UInt8} {row fields : List (Option Bytes)}
variable {rows : List (List (Option Bytes))} {out out' : Customer × Int32}

/-- The rows the out-parameters of `ReadCustomerHs` were last assigned
from. -/
structure Assigned where
  customer : Option ℕ
  version : Option ℕ
  deriving DecidableEq

/-- The loop over the fields of row `k`, by its assignments. -/
def assignFields (k : ℕ) : ℕ → List (Option Bytes) → Assigned → Assigned
  | _, [], assigned => assigned
  | i, none :: fields, assigned => assignFields k (i + 1) fields assigned
  | i, some _ :: fields, assigned =>
      let customer := if i = 1 then some k else assigned.customer
      let version := if i = 2 then some k else assigned.version
      assignFields k (i + 1) fields ⟨customer, version⟩

/-- The loop over the rows, from row `k` on. -/
def assignRows : ℕ → List (List (Option Bytes)) → Assigned → Assigned
  | _, [], assigned => assigned
  | k, row :: rows, assigned => assignRows (k + 1) rows (assignFields k 0 row assigned)

/-- What `ReadCustomerHs` assigns of a reply. -/
def assignedOf (rows : List (List (Option Bytes))) : Assigned := assignRows 0 rows ⟨none, none⟩

/-- The data field of a row, where it is there and not null. -/
def dataField (row : List (Option Bytes)) : Option Bytes := row.getD 1 none

/-- The version field. -/
def versionField (row : List (Option Bytes)) : Option Bytes := row.getD 2 none

/-- The data field has every byte that is copied of it. -/
def HoldsCustomer (row : List (Option Bytes)) : Prop :=
  ∃ d, dataField row = some d ∧ sizeofCustomer ≤ d.length

/-- Both are assigned, and from one row, no byte of which lies behind it. -/
def Assigned.SameRow (rows : List (List (Option Bytes))) (assigned : Assigned) : Prop :=
  ∃ k row, assigned.customer = some k ∧ assigned.version = some k ∧ rows[k]? = some row ∧
    HoldsCustomer row

/-- The last row that has data or a version has both, the data as long as a
`Customer`, and there is one. -/
def EndsWhole (rows : List (List (Option Bytes))) : Prop :=
  ∃ before row after, rows = before ++ row :: after ∧
    (HoldsCustomer row ∧ versionField row ≠ none) ∧
    ∀ r ∈ after, dataField r = none ∧ versionField r = none

/-! ## The loop over the fields -/

theorem readFields_of_ge {i : ℕ} (h : 3 ≤ i) : readFields mem i fields out = some out := by
  induction fields generalizing i with
  | nil => rfl
  | cons field fields ih =>
      cases field with
      | none => exact ih (by omega)
      | some v =>
          rw [readFields, if_neg (by omega), if_neg (by omega)]
          exact ih (by omega)

theorem assignFields_of_ge {k i : ℕ} {assigned : Assigned} (h : 3 ≤ i) :
    assignFields k i fields assigned = assigned := by
  induction fields generalizing i with
  | nil => rfl
  | cons field fields ih =>
      cases field with
      | none => exact ih (by omega)
      | some v =>
          rw [assignFields, if_neg (by omega), if_neg (by omega)]
          exact ih (by omega)

/-- **A row** gives the customer its data and the version its version field,
each where it is there. -/
theorem readFields_eq :
    readFields mem 0 row out =
      ((versionField row).elim (some out.2) stoi).map fun version =>
        ((dataField row).elim out.1 (Customer.ofField · mem), version) := by
  match row with
  | [] => rfl
  | [none] => rfl
  | [some _] => rfl
  | [none, none] => rfl
  | [none, some _] => rfl
  | [some _, none] => rfl
  | [some _, some _] => rfl
  | a :: b :: none :: fields =>
      have hend : ∀ out, readFields mem 3 fields out = some out := fun _ =>
        readFields_of_ge (Nat.le_refl 3)
      rcases a with _ | a <;> rcases b with _ | b <;> exact hend _
  | a :: b :: some v :: fields =>
      have hend : ∀ out, readFields mem 3 fields out = some out := fun _ =>
        readFields_of_ge (Nat.le_refl 3)
      rcases a with _ | a <;> rcases b with _ | b <;> cases hparse : stoi v <;>
        simp [readFields, hend, versionField, dataField, hparse]

theorem assignFields_eq {k : ℕ} {assigned : Assigned} :
    assignFields k 0 row assigned =
      ⟨(dataField row).elim assigned.customer fun _ => some k,
        (versionField row).elim assigned.version fun _ => some k⟩ := by
  match row with
  | [] => rfl
  | [none] => rfl
  | [some _] => rfl
  | [none, none] => rfl
  | [none, some _] => rfl
  | [some _, none] => rfl
  | [some _, some _] => rfl
  | a :: b :: c :: fields =>
      have hend : ∀ assigned, assignFields k 3 fields assigned = assigned := fun _ =>
        assignFields_of_ge (Nat.le_refl 3)
      rcases a with _ | a <;> rcases b with _ | b <;> rcases c with _ | c <;>
        simp [assignFields, hend, versionField, dataField]

/-! ## The loop over the rows -/

theorem readRows_concat {k : ℕ} :
    readRows behind k (rows ++ [row]) out =
      (readRows behind k rows out).bind fun out =>
        readFields (behind (k + rows.length)) 0 row out := by
  induction rows generalizing k out with
  | nil =>
      rw [List.nil_append, readRows, readRows, Option.bind_some]
      exact (Option.bind_fun_some _).symm ▸ rfl
  | cons first rows ih =>
      rw [List.cons_append, readRows, readRows, Option.bind_assoc, List.length_cons,
        Nat.add_comm rows.length, ← Nat.add_assoc]
      exact congrArg (Option.bind _) (funext fun out => ih)

theorem assignRows_concat {k : ℕ} {assigned : Assigned} :
    assignRows k (rows ++ [row]) assigned =
      assignFields (k + rows.length) 0 row (assignRows k rows assigned) := by
  induction rows generalizing k assigned with
  | nil => rfl
  | cons first rows ih =>
      rw [List.cons_append, assignRows, ih, assignRows, List.length_cons,
        Nat.add_right_comm, Nat.add_assoc]

/-- The last row decides, where it has something. -/
theorem assignedOf_concat :
    assignedOf (rows ++ [row]) =
      ⟨(dataField row).elim (assignedOf rows).customer fun _ => some rows.length,
        (versionField row).elim (assignedOf rows).version fun _ => some rows.length⟩ := by
  rw [assignedOf, assignRows_concat, assignFields_eq, Nat.zero_add]
  rfl

/-- The value of an out-parameter is that of a field of the row it was
assigned from, or what it was. -/
def TakenFrom {α : Type} (rows : List (List (Option Bytes))) (source : Option ℕ)
    (field : List (Option Bytes) → Option Bytes) (parse : ℕ → Bytes → Option α) (old value : α) :
    Prop :=
  match source with
  | none => value = old
  | some k => ∃ row v, rows[k]? = some row ∧ field row = some v ∧ parse k v = some value

theorem TakenFrom.concat {α : Type} {source : Option ℕ} {old value : α}
    {field : List (Option Bytes) → Option Bytes} {parse : ℕ → Bytes → Option α}
    (h : TakenFrom rows source field parse old value) :
    TakenFrom (rows ++ [row]) source field parse old value := by
  cases source with
  | none => exact h
  | some k =>
      obtain ⟨r, v, hrow, hv⟩ := h
      have hlt := (List.getElem?_eq_some_iff.mp hrow).1
      exact ⟨r, v, (List.getElem?_append_left hlt).trans hrow, hv⟩

/-- What the loops make of the data field of row `k`. -/
def castField (behind : ℕ → ℕ → UInt8) (k : ℕ) (d : Bytes) : Option Customer :=
  some (.ofField d (behind k))

/-- **What is assigned is what is returned.** -/
theorem readRows_takenFrom (h : readRows behind 0 rows out = some out') :
    TakenFrom rows (assignedOf rows).customer dataField (castField behind) out.1 out'.1 ∧
      TakenFrom rows (assignedOf rows).version versionField (fun _ => stoi) out.2 out'.2 := by
  -- from the last row, which overrides what the ones before it assigned
  induction rows using List.reverseRecOn generalizing out' with
  | nil =>
      cases h
      exact ⟨rfl, rfl⟩
  | append_singleton rows row ih =>
      rw [readRows_concat] at h
      obtain ⟨middle, hrows, hrow⟩ := Option.bind_eq_some_iff.mp h
      obtain ⟨hcustomer, hversion⟩ := ih hrows
      rw [readFields_eq, Nat.zero_add] at hrow
      obtain ⟨version, hparse, rfl⟩ := Option.map_eq_some_iff.mp hrow
      have hlast : (rows ++ [row])[rows.length]? = some row := List.getElem?_concat_length
      rw [assignedOf_concat]
      constructor
      · cases hdata : dataField row with
        | none => exact hcustomer.concat
        | some d => exact ⟨row, d, hlast, hdata, rfl⟩
      · cases hfield : versionField row with
        | none =>
            rw [hfield] at hparse
            obtain rfl := Option.some.inj hparse
            exact hversion.concat
        | some v =>
            rw [hfield] at hparse
            exact ⟨row, v, hlast, hfield, hparse⟩

/-- Every version of a reply is a number. -/
def VersionsParse (rows : List (List (Option Bytes))) : Prop :=
  ∀ row ∈ rows, ∀ v, versionField row = some v → (stoi v).isSome = true

/-- With versions that parse the loops come to their end. -/
theorem readRows_isSome (hparse : VersionsParse rows) (k : ℕ) (out : Customer × Int32) :
    (readRows behind k rows out).isSome := by
  induction rows generalizing k out with
  | nil => rfl
  | cons row rows ih =>
      have hfields : (readFields (behind k) 0 row out).isSome := by
        rw [readFields_eq, Option.isSome_map]
        cases hfield : versionField row with
        | none => rfl
        | some v => exact hparse row List.mem_cons_self v hfield
      obtain ⟨middle, hmiddle⟩ := Option.isSome_iff_exists.mp hfields
      rw [readRows, hmiddle, Option.bind_some]
      exact ih (fun r hr => hparse r (List.mem_cons_of_mem _ hr)) (k + 1) middle

/-! ## One row -/

theorem lt_of_elim {field : Option Bytes} {before : Option ℕ} {n k : ℕ}
    (hbefore : ∀ k, before = some k → k < n) (h : (field.elim before fun _ => some n) = some k) :
    k < n + 1 := by
  cases field with
  | none => exact Nat.lt_succ_of_lt (hbefore k h)
  | some v => exact Option.some.inj h ▸ Nat.lt_succ_self n

/-- What is assigned comes from a row that is there. -/
theorem assignedOf_lt (rows : List (List (Option Bytes))) :
    (∀ k, (assignedOf rows).customer = some k → k < rows.length) ∧
      ∀ k, (assignedOf rows).version = some k → k < rows.length := by
  induction rows using List.reverseRecOn with
  | nil => exact ⟨nofun, nofun⟩
  | append_singleton rows row ih =>
      rw [assignedOf_concat, List.length_append, List.length_singleton]
      exact ⟨fun k hk => lt_of_elim ih.1 hk, fun k hk => lt_of_elim ih.2 hk⟩

theorem HoldsCustomer.ne_none (h : HoldsCustomer row) : dataField row ≠ none := by
  obtain ⟨d, hd, -⟩ := h
  simp [hd]

/-- A last row with neither changes nothing. -/
theorem endsWhole_concat_neither (hdata : dataField row = none)
    (hversion : versionField row = none) : EndsWhole (rows ++ [row]) ↔ EndsWhole rows := by
  constructor
  · rintro ⟨before, r, after, heq, hboth, hafter⟩
    rcases List.eq_nil_or_concat' after with rfl | ⟨after, last, rfl⟩
    · obtain ⟨rfl, hlast⟩ := List.append_inj' heq rfl
      cases hlast
      exact absurd hdata hboth.1.ne_none
    · rw [← List.cons_append, ← List.append_assoc] at heq
      obtain ⟨rfl, -⟩ := List.append_inj' heq rfl
      exact ⟨before, r, after, rfl, hboth, fun s hs => hafter s (List.mem_append_left _ hs)⟩
  · rintro ⟨before, r, after, rfl, hboth, hafter⟩
    refine ⟨before, r, after ++ [row], by simp, hboth, fun s hs => ?_⟩
    rcases List.mem_append.mp hs with hs | hs
    · exact hafter s hs
    · exact List.mem_singleton.mp hs ▸ ⟨hdata, hversion⟩

/-- One with either has to have both. -/
theorem endsWhole_concat_either (h : dataField row ≠ none ∨ versionField row ≠ none) :
    EndsWhole (rows ++ [row]) ↔ HoldsCustomer row ∧ versionField row ≠ none := by
  constructor
  · rintro ⟨before, r, after, heq, hboth, hafter⟩
    rcases List.eq_nil_or_concat' after with rfl | ⟨after, last, rfl⟩
    · obtain ⟨-, hlast⟩ := List.append_inj' heq rfl
      cases hlast
      exact hboth
    · rw [← List.cons_append, ← List.append_assoc] at heq
      obtain ⟨-, hlast⟩ := List.append_inj' heq rfl
      cases hlast
      obtain ⟨hdata, hversion⟩ := hafter row (List.mem_append_right _ List.mem_cons_self)
      exact absurd h (not_or.mpr ⟨not_not.mpr hdata, not_not.mpr hversion⟩)
  · exact fun hboth => ⟨rows, row, [], rfl, hboth, nofun⟩

/-- **One row** is what both are assigned from if and only if the last row
that has either has both, the data in full. -/
theorem sameRow_iff (rows : List (List (Option Bytes))) :
    (assignedOf rows).SameRow rows ↔ EndsWhole rows := by
  induction rows using List.reverseRecOn with
  | nil =>
      constructor
      · rintro ⟨k, row, h, -⟩
        cases h
      · rintro ⟨before, row, after, h, -⟩
        exact absurd h (by simp)
  | append_singleton rows row ih =>
      obtain ⟨hcustomer, hversion⟩ := assignedOf_lt rows
      rw [assignedOf_concat, Assigned.SameRow]
      cases hdata : dataField row with
      | none =>
          cases hfield : versionField row with
          | none =>
              rw [endsWhole_concat_neither hdata hfield, ← ih]
              refine exists_congr fun k => exists_congr fun r => and_congr_right fun hk => ?_
              rw [List.getElem?_append_left (hcustomer k hk)]
              rfl
          | some v =>
              rw [endsWhole_concat_either (.inr (by simp [hfield]))]
              -- the version is of the last row, and the customer of one before it
              refine iff_of_false ?_ fun h => h.1.ne_none hdata
              rintro ⟨k, r, hk, hlast, -⟩
              have hlt := hcustomer k hk
              rw [← Option.some.inj hlast] at hlt
              exact Nat.lt_irrefl _ hlt
      | some d =>
          cases hfield : versionField row with
          | none =>
              rw [endsWhole_concat_either (.inl (by simp [hdata])), hfield]
              -- the customer is of the last row, and the version of one before it
              refine iff_of_false ?_ fun h => h.2 rfl
              rintro ⟨k, r, hlast, hk, -⟩
              have hlt := hversion k hk
              rw [← Option.some.inj hlast] at hlt
              exact Nat.lt_irrefl _ hlt
          | some v =>
              rw [endsWhole_concat_either (.inl (by simp [hdata])), hfield]
              have hlast : (rows ++ [row])[rows.length]? = some row := List.getElem?_concat_length
              constructor
              · rintro ⟨k, r, hk, -, hr, hholds⟩
                obtain rfl : rows.length = k := Option.some.inj hk
                obtain rfl : row = r := Option.some.inj (hlast.symm.trans hr)
                exact ⟨hholds, Option.some_ne_none _⟩
              · exact fun h => ⟨_, row, rfl, rfl, hlast, h.1⟩

/-! ## What the entry points make of it -/

/-- What `MariaDbExecuteTransaction` works with: what a read came away with,
and what a write sends back. -/
inductive Note
  | took (customer : Customer) (version : Int32)
  | wrote (customer : Customer) (version : Int32)

/-- `Wire`, with notes that are kept however the call ends. -/
abbrev Noted := StateT Clients (ExceptT Halt (StateM (List Note)))

/-- The two calls over the wire, noted. -/
def notedSocket (behind : Behind) : HandlerSocket Noted where
  readCustomerHs _ customer version := fun clients notes =>
    match readCustomerHs behind customer version clients with
    | .ok ((true, out), clients') => (.ok ((true, out), clients'), notes ++ [.took out.1 out.2])
    | result => (result, notes)
  writeCustomerHs _ customer version := fun clients notes =>
    (writeCustomerHs clients, notes ++ [.wrote customer version])

/-- A row of a normal reply has every byte of this customer, and this
version. -/
def FromRow (o : Outcome) (out : Customer × Int32) : Prop :=
  ∃ rows row d v, normalReply o = some rows ∧ row ∈ rows ∧
    (dataField row = some d ∧ sizeofCustomer ≤ d.length ∧
      ∀ mem, Customer.ofField d mem = out.1) ∧
    versionField row = some v ∧ stoi v = some out.2

/-- What is worked with is a row some reply delivered, and what is sent back
is that row with the transaction applied. -/
def Note.Delivered (transaction : Transaction) (reads : ℕ → Outcome) : Note → Prop
  | .took customer version => ∃ k, FromRow (reads k) (customer, version)
  | .wrote customer version => ∃ k read, FromRow (reads k) (read, version) ∧
      customer = applyTransaction read transaction

/-- From its next exchange on the replies of a client end in a whole row, or
it has had its last. -/
def WholeFrom (reads : ℕ → Outcome) (c : Hstcpcli) : Prop :=
  c.Dead ∨ (c.Ready ∧ c.outcomes = reads ∧
    ∀ k, c.exchanges ≤ k → ∀ rows, normalReply (reads k) = some rows → EndsWhole rows)

theorem fromRow_of_endsWhole {o : Outcome} (h : delivered behind o out = some out')
    (hwhole : ∀ rows, normalReply o = some rows → EndsWhole rows) : FromRow o out' := by
  obtain ⟨rows, hreply, hread⟩ := Option.bind_eq_some_iff.mp h
  obtain ⟨k, row, hk, hk', hrow, d, hd, hlength⟩ := (sameRow_iff rows).mpr (hwhole rows hreply)
  obtain ⟨hcustomer, hversion⟩ := readRows_takenFrom hread
  rw [hk] at hcustomer
  rw [hk'] at hversion
  obtain ⟨row', d', hrow', hd', hcast⟩ := hcustomer
  obtain ⟨row'', v, hrow'', hv, hparse⟩ := hversion
  obtain rfl : row = row' := Option.some.inj (hrow.symm.trans hrow')
  obtain rfl : row = row'' := Option.some.inj (hrow.symm.trans hrow'')
  obtain rfl : d = d' := Option.some.inj (hd.symm.trans hd')
  -- the field is long enough for what lies behind it not to matter
  refine ⟨rows, row, d, v, hreply, List.mem_of_getElem? hrow, ⟨hd, hlength, fun mem => ?_⟩, hv,
    hparse⟩
  exact (Customer.ofField_of_le hlength mem (behind k)).trans (Option.some.inj hcast)

section

variable {behind : Behind} {reads : ℕ → Outcome} {clients clients' : Clients}
variable {transaction : Transaction}
variable {store : Fin 5} {customer : Customer} {version : Int32} {id : Int32}

theorem WholeFrom.read (h : WholeFrom reads clients.readPtr) {success : Bool}
    (hread : readCustomerHs behind customer version clients = .ok ((success, out'), clients')) :
    WholeFrom reads clients'.readPtr ∧ (success = true → ∃ k, FromRow (reads k) out') := by
  have hrest : clients.readPtr.AtRest := h.elim .inr fun h => .inl h.1
  rcases read_cases behind hrest (customer, version) with
    ⟨-, ⟨halt, hrun⟩ | ⟨c, hdead, hrun⟩⟩ | ⟨hready, out'', c, hout, hready', houts, hexch, hrun⟩
  · rw [hrun] at hread
    cases hread
  · rw [hrun] at hread
    cases hread
    exact ⟨.inl hdead, nofun⟩
  · rw [hrun] at hread
    cases hread
    rcases h with hdead | ⟨-, hreads, hwhole⟩
    · exact absurd hdead hready.not_dead
    · refine ⟨.inr ⟨hready', houts.trans hreads, fun k hk => hwhole k ?_⟩, fun _ => ?_⟩
      · simp only [hexch] at hk
        omega
      · subst hreads
        exact ⟨_, fromRow_of_endsWhole hout (hwhole _ (Nat.le_refl _))⟩

theorem readPtr_of_write {modified : Bool}
    (h : writeCustomerHs clients = .ok (modified, clients')) :
    clients'.readPtr = clients.readPtr := by
  simp only [writeCustomerHs] at h
  repeat' split at h
  all_goals cases h
  all_goals rfl

/-- What a pass of the loop notes. -/
def attemptNotes (behind : Behind) (transaction : Transaction) (customer : Customer)
    (version : Int32) (clients : Clients) : List Note :=
  match readCustomerHs behind customer version clients with
  | .ok ((true, out), _) =>
      if limitExceeded out.1 transaction then [.took out.1 out.2]
      else [.took out.1 out.2, .wrote (applyTransaction out.1 transaction) out.2]
  | _ => []

/-- A pass, noted, does as it does on the wire. -/
theorem attempt_noted (notes : List Note) :
    attempt (notedSocket behind) store transaction customer version clients notes =
      (attempt (wireSocket behind) store transaction customer version clients,
        notes ++ attemptNotes behind transaction customer version clients) := by
  rw [attemptNotes]
  cases hread : readCustomerHs behind customer version clients with
  | error halt =>
      rw [attempt_of_readHalted hread, List.append_nil]
      simp only [attempt, notedSocket, bind, StateT.bind, ExceptT.bind, ExceptT.mk, hread]
      rfl
  | ok result =>
      obtain ⟨⟨success, out⟩, clients'⟩ := result
      cases success with
      | false =>
          rw [attempt_of_readFailed hread, List.append_nil]
          simp only [attempt, notedSocket, bind, StateT.bind, ExceptT.bind, ExceptT.mk, hread]
          rfl
      | true =>
          cases hlim : limitExceeded out.1 transaction with
          | true =>
              rw [attempt_of_exceeded hread hlim]
              simp only [attempt, notedSocket, bind, StateT.bind, ExceptT.bind, ExceptT.mk, hread,
                ExceptT.bindCont, Bool.not_true, Bool.false_eq_true, if_false, hlim, if_true]
              rfl
          | false =>
              cases hwrite : writeCustomerHs clients' with
              | error halt =>
                  rw [attempt_of_writeHalted hread hlim hwrite]
                  simp only [attempt, notedSocket, bind, StateT.bind, ExceptT.bind, ExceptT.mk,
                    hread, ExceptT.bindCont, Bool.not_true, Bool.false_eq_true, if_false, hlim,
                    hwrite, List.append_assoc]
                  rfl
              | ok result =>
                  obtain ⟨modified, clients''⟩ := result
                  rw [attempt_of_written hread hlim hwrite]
                  simp only [attempt, notedSocket, bind, StateT.bind, ExceptT.bind, ExceptT.mk,
                    hread, ExceptT.bindCont, Bool.not_true, Bool.false_eq_true, if_false, hlim,
                    hwrite, List.append_assoc]
                  cases modified <;> rfl

/-- **A pass works with what a row delivered.** -/
theorem attemptNotes_delivered (h : WholeFrom reads clients.readPtr) :
    ∀ note ∈ attemptNotes behind transaction customer version clients,
      note.Delivered transaction reads := by
  rw [attemptNotes]
  cases hread : readCustomerHs behind customer version clients with
  | error halt => exact nofun
  | ok result =>
      obtain ⟨⟨success, out⟩, clients'⟩ := result
      cases success with
      | false => exact nofun
      | true =>
          obtain ⟨k, hrow⟩ := (WholeFrom.read h hread).2 rfl
          have htook : Note.Delivered transaction reads (.took out.1 out.2) := ⟨k, hrow⟩
          cases hlim : limitExceeded out.1 transaction with
          | true =>
              simp only [hlim, if_true]
              exact List.forall_mem_singleton.mpr htook
          | false =>
              simp only [hlim, Bool.false_eq_true, if_false]
              exact List.forall_mem_cons.mpr
                ⟨htook, List.forall_mem_singleton.mpr ⟨k, out.1, hrow, rfl⟩⟩

/-- And leaves the reader as whole as it was. -/
theorem WholeFrom.attempt {result : Option TransactionResult × Customer}
    (h : WholeFrom reads clients.readPtr)
    (hrun : Rinha.attempt (wireSocket behind) store transaction customer version clients =
      .ok (result, clients')) : WholeFrom reads clients'.readPtr := by
  cases hread : readCustomerHs behind customer version clients with
  | error halt =>
      rw [attempt_of_readHalted hread] at hrun
      cases hrun
  | ok read =>
      obtain ⟨⟨success, out⟩, middle⟩ := read
      have hmiddle := (WholeFrom.read h hread).1
      cases success with
      | false =>
          rw [attempt_of_readFailed hread] at hrun
          cases hrun
          exact hmiddle
      | true =>
          cases hlim : limitExceeded out.1 transaction with
          | true =>
              rw [attempt_of_exceeded hread hlim] at hrun
              cases hrun
              exact hmiddle
          | false =>
              cases hwrite : writeCustomerHs middle with
              | error halt =>
                  rw [attempt_of_writeHalted hread hlim hwrite] at hrun
                  cases hrun
              | ok written =>
                  obtain ⟨modified, after⟩ := written
                  rw [attempt_of_written hread hlim hwrite] at hrun
                  cases hrun
                  rw [readPtr_of_write hwrite]
                  exact hmiddle

/-- **The retry loop**, noted, does as it does on the wire, and works with
what a row delivered. -/
theorem executeLoop_noted (passes : ℕ) (notes : List Note) :
    ∃ more,
      executeLoop (notedSocket behind) store transaction version passes customer clients notes =
        (executeLoop (wireSocket behind) store transaction version passes customer clients,
          notes ++ more) ∧
      (WholeFrom reads clients.readPtr →
        ∀ note ∈ more, note.Delivered transaction reads) := by
  induction passes generalizing customer clients notes with
  | zero => exact ⟨[], by rw [List.append_nil]; rfl, fun _ => nofun⟩
  | succ passes ih =>
      cases hrun : Rinha.attempt (wireSocket behind) store transaction customer version clients with
      | error halt =>
          refine ⟨attemptNotes behind transaction customer version clients, ?_,
            attemptNotes_delivered⟩
          rw [executeLoop_of_halted hrun]
          simp only [executeLoop, bind, StateT.bind, ExceptT.bind, ExceptT.mk, attempt_noted, hrun]
          rfl
      | ok result =>
          obtain ⟨⟨result, left⟩, clients'⟩ := result
          cases result with
          | some result =>
              refine ⟨attemptNotes behind transaction customer version clients, ?_,
                attemptNotes_delivered⟩
              rw [executeLoop_of_result hrun]
              simp only [executeLoop, bind, StateT.bind, ExceptT.bind, ExceptT.mk, attempt_noted,
                hrun]
              rfl
          | none =>
              -- no row was modified: this pass, and then the ones behind it
              obtain ⟨more, hloop, hmore⟩ := @ih clients' left
                (notes ++ attemptNotes behind transaction customer version clients)
              refine ⟨attemptNotes behind transaction customer version clients ++ more, ?_,
                fun hwhole note hnote => ?_⟩
              · rw [executeLoop_of_retry hrun, ← List.append_assoc, ← hloop]
                simp only [executeLoop, bind, StateT.bind, ExceptT.bind, ExceptT.mk,
                  attempt_noted, hrun]
                rfl
              · rcases List.mem_append.mp hnote with hnote | hnote
                · exact attemptNotes_delivered hwhole note hnote
                · exact hmore (hwhole.attempt hrun) note hnote

/-- **Whole rows in, whole rows out.** `MariaDbExecuteTransaction`, noted. -/
theorem execute_noted (passes : ℕ) (clients : Clients) (id : Int32) (customer : Customer)
    (version : Int32) :
    (mariaDbExecuteTransaction (notedSocket behind) passes id transaction customer version clients
        []).1 =
      mariaDbExecuteTransaction (wireSocket behind) passes id transaction customer version clients ∧
    (WholeFrom reads clients.readPtr →
      ∀ note ∈ (mariaDbExecuteTransaction (notedSocket behind) passes id transaction customer
        version clients []).2, note.Delivered transaction reads) := by
  cases hid : rowIndex id with
  | none =>
      simp only [mariaDbExecuteTransaction, hid]
      exact ⟨rfl, fun _ _ hnote => absurd hnote List.not_mem_nil⟩
  | some store =>
      obtain ⟨more, hloop, hmore⟩ := @executeLoop_noted behind reads clients transaction store
        customer version passes []
      simp only [mariaDbExecuteTransaction, hid, hloop, List.nil_append]
      exact ⟨trivial, hmore⟩

theorem getCustomer_of_read (hid : rowIndex id = some store) {success : Bool}
    (h : readCustomerHs behind customer version clients = .ok ((success, out), clients')) :
    mariaDbGetCustomer (wireSocket behind) id customer version clients =
      .ok ((success, out.1), clients') := by
  simp only [mariaDbGetCustomer, hid, wireSocket, bind, StateT.bind, h, Except.bind]
  rfl

/-- **A customer of one row.** To every normal reply whose versions parse
`ReadCustomerHs` returns true, and `MariaDbGetCustomer` what it read; both
out-parameters are assigned, and from the same row, if and only if the last
row of the reply that has either has both, the data in full. Where all
replies are of that kind, no pass of `MariaDbExecuteTransaction` works with
a customer or a version that no row delivered, or sends one back. -/
theorem readsOneRow_iff (behind : Behind) (customer : Customer) (version : Int32) :
    (∀ (clients : Clients) (rows : List (List (Option Bytes))), clients.readPtr.Ready →
      normalReply clients.readPtr.outcome = some rows → VersionsParse rows →
      (∃ customer' version' clients',
        readCustomerHs behind customer version clients =
          .ok ((true, customer', version'), clients') ∧
        (∀ id, (rowIndex id).isSome = true →
          mariaDbGetCustomer (wireSocket behind) id customer version clients =
            .ok ((true, customer'), clients')) ∧
        TakenFrom rows (assignedOf rows).customer dataField
          (castField (behind clients.readPtr.exchanges)) customer customer' ∧
        TakenFrom rows (assignedOf rows).version versionField (fun _ => stoi) version version') ∧
      ((assignedOf rows).SameRow rows ↔ EndsWhole rows)) ∧
    ∀ (clients : Clients) (passes : ℕ) (id : Int32) (transaction : Transaction),
      (mariaDbExecuteTransaction (notedSocket behind) passes id transaction customer version clients
          []).1 =
        mariaDbExecuteTransaction (wireSocket behind) passes id transaction customer version
          clients ∧
      (WholeFrom clients.readPtr.outcomes clients.readPtr →
        ∀ note ∈ (mariaDbExecuteTransaction (notedSocket behind) passes id transaction customer
          version clients []).2, note.Delivered transaction clients.readPtr.outcomes) := by
  constructor
  · intro clients rows hready hreply hparse
    have hends : (readRows (behind clients.readPtr.exchanges) 0 rows (customer, version)).isSome :=
      readRows_isSome hparse 0 _
    obtain ⟨⟨customer', version'⟩, hread⟩ := Option.isSome_iff_exists.mp hends
    have hdelivered : delivered (behind clients.readPtr.exchanges) clients.readPtr.outcome
        (customer, version) = some (customer', version') := by
      rw [delivered, hreply, Option.bind_some, hread]
    obtain ⟨c, -, -, -, hrun⟩ := read_of_delivered hready hdelivered
    obtain ⟨hcustomer, hversion⟩ := readRows_takenFrom hread
    refine ⟨⟨customer', version', _, hrun, fun id hid => ?_, hcustomer, hversion⟩, sameRow_iff rows⟩
    obtain ⟨store, hstore⟩ := Option.isSome_iff_exists.mp hid
    exact getCustomer_of_read hstore hrun
  · exact fun clients passes id transaction => execute_noted passes clients id customer version

theorem endsWhole_firstRow : EndsWhole [firstRow] :=
  ⟨[], firstRow, [], rfl,
    ⟨⟨_, rfl, Nat.le_of_eq (Customer.length_image _ _).symm⟩, Option.some_ne_none _⟩,
    fun _ h => absurd h List.not_mem_nil⟩

/-- A store that answers each read with the first row: a debit is worked out
on its customer, and what is sent back is that with the debit. -/
theorem readsOneRow_first :
    let debit : Transaction := { Transaction.zero with value := -1 }
    (assignedOf [firstRow]).SameRow [firstRow] ∧
      Note.Delivered debit (fun _ => rowReply) (.took (initialCustomer 100000) 1) ∧
      Note.Delivered debit (fun _ => rowReply)
        (.wrote (applyTransaction (initialCustomer 100000) debit) 1) := by
  intro debit
  let clients : Clients := ⟨openClient fun _ => rowReply, openClient fun _ => .endOfFile⟩
  have hready : clients.readPtr.Ready := ready_openClient _
  have hreply : normalReply rowReply = some [firstRow] := rfl
  have hparse : VersionsParse [firstRow] := by
    intro row hmem v hv
    obtain rfl := List.mem_singleton.mp hmem
    obtain rfl := Option.some.inj hv
    decide
  have hwhole : WholeFrom clients.readPtr.outcomes clients.readPtr :=
    .inr ⟨hready, rfl, fun k _ rows h => by
      obtain rfl := Option.some.inj (hreply.symm.trans h)
      exact endsWhole_firstRow⟩
  obtain ⟨hfirst, hsecond⟩ := readsOneRow_iff zeros (initialCustomer 0) 0
  have hlist : (mariaDbExecuteTransaction (notedSocket zeros) 1 1 debit (initialCustomer 0) 0
      clients []).2 =
      [.took (initialCustomer 100000) 1,
        .wrote (applyTransaction (initialCustomer 100000) debit) 1] := by
    obtain ⟨c, -, -, -, hread⟩ := @read_of_delivered zeros clients hready (initialCustomer 0, 0) _
      (delivered_rowReply _ _)
    obtain ⟨cw, -, -, hwrite⟩ := write_of_broken { clients with readPtr := c }
      (ready_openClient _) (.inl rfl)
    have hrow : rowIndex 1 = some 0 := by decide
    have hlim : limitExceeded (initialCustomer 100000) debit = false := by decide
    have hattempt : attempt (wireSocket zeros) 0 debit (initialCustomer 0) 0 clients = _ :=
      attempt_of_written hread hlim hwrite
    simp only [mariaDbExecuteTransaction, hrow, executeLoop, bind, StateT.bind, ExceptT.bind,
      ExceptT.mk, attempt_noted, hattempt, attemptNotes, hread, hlim]
    rfl
  have hdelivered := (hsecond clients 1 1 debit).2 hwhole
  rw [hlist] at hdelivered
  exact ⟨((hfirst clients [firstRow] hready hreply hparse).2).mpr endsWhole_firstRow,
    hdelivered _ List.mem_cons_self,
    hdelivered _ (List.mem_cons_of_mem _ (List.mem_singleton.mpr rfl))⟩

/-- **A reply without rows** is read as whatever was in memory. -/
theorem not_readsOneRow_empty :
    (∃ clients', readCustomerHs zeros (initialCustomer 7) 9
        ⟨openClient fun _ => .reply 0 3 [], openClient fun _ => .endOfFile⟩ =
      .ok ((true, initialCustomer 7, 9), clients')) ∧
    ¬ (assignedOf []).SameRow [] :=
  ⟨⟨_, rfl⟩, fun ⟨_, _, h, _⟩ => nomatch h⟩

end

end Rinha
