import Rinha.Store.Commits
import Rinha.Store.Model.StartUp
/-!
# Start-up over a working table

An upsert takes the data back and leaves the version, so no reader can
tell. Where every upsert finds its row absent, or as it was initially,
start-up does nothing to a row that a thread has seen: the run is one of
the threads alone, on the table that has the missing rows.
-/

namespace Rinha
namespace StartUp

variable {Inst Worker : Type}

/-! ## What is to be kept -/

/-- The row each customer starts from. -/
def baseRow (users : Users) (present : Fin 5 → Bool) : Users :=
  fun row => if present row then users row else ⟨kInitialCustomers row, 1⟩

/-- What was acknowledged on a row is in its data: the calls that returned
success are among its commits, once each, and the data is the commits
applied in order. -/
structure Kept (base : Users) (s : Workers.State Inst Worker) (row : Fin 5) : Prop where
  success : ∀ r ∈ s.returns, r.row = some row → r.result = .success →
    ((s.commits row).map Workers.Commit.no).count r.no = 1 ∧
      ∃ inst, ⟨r.no, inst, r.transaction⟩ ∈ s.commits row
  data : (s.users row).data =
    ((s.commits row).map Workers.Commit.transaction).foldl applyTransaction (base row).data
  balance : (s.users row).data.balance =
    ((s.commits row).map fun e => e.transaction.value).foldl (· + ·) (base row).data.balance

/-- No row has other data at the same version. -/
def SameData (s s' : State Inst Worker) : Prop :=
  ∀ row, s.present row = true → (s'.workers.users row).version = (s.workers.users row).version →
    (s'.workers.users row).data = (s.workers.users row).data

/-- An upsert finds its row absent, or with its initial data. -/
def FindsInitial (s : State Inst Worker) : Action Inst Worker → Prop
  | .insert inst => ∀ h : s.inserted inst < 5, s.present ⟨s.inserted inst, h⟩ = true →
      (s.workers.users ⟨s.inserted inst, h⟩).data = kInitialCustomers ⟨s.inserted inst, h⟩
  | .work _ => True

/-- And the row's versions have not been through. -/
structure Harmless (s : State Inst Worker) (a : Action Inst Worker) : Prop where
  finds : FindsInitial s a
  few : ∀ row, (s.workers.commits row).length + 1 < 2 ^ 32

/-! ## The threads alone -/

/-- The threads' state, on the table that has the missing rows. -/
def State.seen (s : State Inst Worker) (base : Users) : Workers.State Inst Worker :=
  { s.workers with
    users := fun row => if s.present row then s.workers.users row else base row }

theorem State.seen_users {s : State Inst Worker} {base : Users} {row : Fin 5}
    (h : s.present row = true) : (s.seen base).users row = s.workers.users row := by
  simp [State.seen, h]

theorem State.seen_eq {s : State Inst Worker} {base : Users} (h : ∀ row, s.present row = true) :
    s.seen base = s.workers := by
  simp [State.seen, h]

theorem insert_present {s : State Inst Worker} (row row' : Fin 5) (h : s.present row' = true) :
    (s.insertCustomer row).present row' = true := by
  by_cases hrow : row' = row
  · simp [State.insertCustomer, hrow]
  · simpa [State.insertCustomer, hrow] using h

section

variable [DecidableEq Inst] [DecidableEq Worker]
variable {users : Users} {present : Fin 5 → Bool} {s s' : State Inst Worker}
variable {a : Action Inst Worker}

/-- Start-up so far has not been noticed. -/
structure Unnoticed (users : Users) (present : Fin 5 → Bool) (s : State Inst Worker) : Prop where
  reachable : Workers.Reachable (baseRow users present) (s.seen (baseRow users present))
  present_of_present : ∀ row, present row = true → s.present row = true
  present_of_inserted : ∀ inst, ∀ row : Fin 5, row < s.inserted inst → s.present row = true
  commits_lt : ∀ row, (s.workers.commits row).length < 2 ^ 32

theorem unnoticed_init (users : Users) (present : Fin 5 → Bool) :
    Unnoticed users present (State.init users present : State Inst Worker) where
  reachable := by
    have hseen : (State.init users present : State Inst Worker).seen (baseRow users present) =
        Workers.State.init (baseRow users present) := by
      simp only [State.seen, State.init, Workers.State.init, Workers.State.mk.injEq, and_true]
      funext row
      by_cases hrow : present row = true <;> simp [baseRow, hrow]
    rw [hseen]
    exact .refl
  present_of_present _ h := h
  present_of_inserted _ _ h := absurd h (Nat.not_lt_zero _)
  commits_lt _ := by simp [State.init, Workers.State.init]

/-- **A harmless upsert changes nothing a thread can see.** -/
theorem Unnoticed.seen_insert (h : Unnoticed users present s) {row : Fin 5}
    (hfinds : s.present row = true → (s.workers.users row).data = kInitialCustomers row) :
    (s.insertCustomer row).seen (baseRow users present) = s.seen (baseRow users present) := by
  simp only [State.seen, State.insertCustomer, Workers.State.mk.injEq, and_true]
  funext row'
  by_cases hrow : row' = row
  · subst hrow
    simp only [Function.update_self, if_true]
    cases hpresent : s.present row' with
    | true =>
        simp only [upsert, if_true, ← hfinds hpresent]
    | false =>
        have habsent : present row' = false := by
          rw [← Bool.not_eq_true]
          intro htrue
          rw [h.present_of_present row' htrue] at hpresent
          cases hpresent
        simp [upsert, baseRow, habsent]
  · simp [hrow]

theorem commits_length_le {w w' : Workers.State Inst Worker} (h : Workers.Stepped w w')
    (row : Fin 5) :
    (w'.commits row).length ≤ (w.commits row).length + 1 := by
  cases h with
  | written t call customer version hpc hv =>
      refine @Workers.record_cases _ w.commits call.row row _
        (fun history => history.length ≤ (w.commits row).length + 1)
        (Nat.le_succ _) fun hrow => ?_
      simp [hrow]
  | _ => exact Nat.le_succ _

/-- **The step.** An upsert leaves the threads' state, and a thread moves on
the table where all rows are. -/
theorem Unnoticed.step (h : Unnoticed users present s) (ha : Harmless s a)
    (hs : s.step a = some s') : Unnoticed users present s' := by
  cases a with
  | insert inst =>
      simp only [State.step] at hs
      split at hs
      · rename_i hlt
        obtain rfl := Option.some.inj hs
        constructor
        case reachable =>
          -- no thread can tell, so the run of the threads is the one it was
          have hseen := h.seen_insert (ha.finds hlt)
          exact hseen ▸ h.reachable
        case present_of_present =>
          exact fun row hrow => insert_present _ row (h.present_of_present row hrow)
        case present_of_inserted =>
          intro inst' row hrow
          simp only [Function.update_apply] at hrow
          by_cases hlast : row = ⟨s.inserted inst, hlt⟩
          · simp [State.insertCustomer, hlast]
          · refine insert_present _ row ?_
            split at hrow
            · rename_i hinst
              have hne : (row : ℕ) ≠ s.inserted inst := fun heq => hlast (Fin.ext heq)
              exact h.present_of_inserted inst row (by omega)
            · exact h.present_of_inserted inst' row hrow
        case commits_lt => exact h.commits_lt
      · cases hs
  | work action =>
      simp only [State.step] at hs
      split at hs
      · rename_i hstarted
        obtain ⟨w, hw, rfl⟩ := Option.map_eq_some_iff.mp hs
        -- the instance has started, so all five rows are there
        have hall : ∀ row, s.present row = true := fun row =>
          h.present_of_inserted (instOf action) row (by omega)
        have hreach := h.reachable
        rw [State.seen_eq hall] at hreach
        refine { h with reachable := ?_, commits_lt := fun row => ?_ }
        · rw [State.seen_eq (s := { s with workers := w }) hall]
          exact hreach.tail hw
        · have := commits_length_le (Workers.stepped_of_step hw) row
          have := ha.few row
          change (w.commits row).length < 2 ^ 32
          omega
      · cases hs

/-- **The run.** -/
theorem unnoticed_of_run
    (h : Lts.Reachable (Lts.Guarded Harmless (Lts.ofFun State.step)) (.init users present) s) :
    Unnoticed users present s :=
  h.invariant (unnoticed_init users present) fun hi hs => hi.step hs.1 hs.2

/-- So what the threads keep among themselves they keep. -/
theorem Unnoticed.kept (h : Unnoticed users present s) {row : Fin 5}
    (hrow : s.present row = true) : Kept (baseRow users present) s.workers row := by
  -- the threads ran alone on the table that has the missing rows
  have hinv : Workers.Inv (baseRow users present) (s.seen (baseRow users present)) :=
    Workers.inv_of_reachable h.reachable h.commits_lt
  have hdata : (s.workers.users row).data = ((s.workers.commits row).map
      Workers.Commit.transaction).foldl applyTransaction (baseRow users present row).data := by
    rw [← State.seen_users hrow, hinv.rows row]
    rfl
  constructor
  case success =>
    intro r hr hrr hres
    have hsound := hinv.returns r hr
    simp only [Workers.Return.Sound, hres] at hsound
    obtain ⟨row', customer, hr', -, hcom⟩ := hsound
    obtain rfl : row' = row := Option.some.inj (hr'.symm.trans hrr)
    have hmem := hcom.mem
    obtain ⟨before, inst, later, horder, -⟩ := hcom
    refine ⟨List.count_eq_one_of_mem (hinv.nodup _) hmem, inst, ?_⟩
    rw [show s.workers.commits row' = _ from horder]
    simp
  case data => exact hdata
  case balance =>
    rw [hdata, balance_foldl, List.map_map]
    rfl

/-- A thread that writes a row counts its version up. -/
theorem data_of_stepped {w w' : Workers.State Inst Worker} (h : Workers.Stepped w w') (row : Fin 5)
    (hversion : (w'.users row).version = (w.users row).version) :
    (w'.users row).data = (w.users row).data := by
  cases h with
  | written t call customer version hpc hv =>
      simp only [Workers.State.goto, Workers.State.commit] at hversion ⊢
      by_cases hrow : row = call.row
      · subst hrow
        rw [Function.update_self] at hversion
        exact absurd (hversion.trans hv) (Versioned.succ_ne _)
      · rw [Function.update_of_ne hrow]
  | _ => rfl

/-- **A step keeps data and version together** just where an upsert finds
its row absent, or with its initial data. -/
theorem sameData_iff (hs : s.step a = some s') : SameData s s' ↔ FindsInitial s a := by
  cases a with
  | insert inst =>
      simp only [State.step] at hs
      split at hs
      · rename_i hlt
        obtain rfl := Option.some.inj hs
        have hself : s.present ⟨s.inserted inst, hlt⟩ = true →
            (s.insertCustomer ⟨s.inserted inst, hlt⟩).workers.users ⟨s.inserted inst, hlt⟩ =
              ⟨kInitialCustomers ⟨s.inserted inst, hlt⟩,
                (s.workers.users ⟨s.inserted inst, hlt⟩).version⟩ := fun hpresent => by
          simp [State.insertCustomer, upsert, hpresent]
        constructor
        · intro hsame _ hpresent
          have hdata := hsame _ hpresent (by rw [hself hpresent])
          rw [hself hpresent] at hdata
          exact hdata.symm
        · intro hfinds row hpresent _
          by_cases hrow : row = ⟨s.inserted inst, hlt⟩
          · subst hrow
            rw [hself hpresent]
            exact (hfinds hlt hpresent).symm
          · simp [State.insertCustomer, Function.update_of_ne hrow]
      · cases hs
  | work action =>
      simp only [State.step] at hs
      split at hs
      · obtain ⟨w, hw, rfl⟩ := Option.map_eq_some_iff.mp hs
        exact iff_of_true
          (fun row _ hversion => data_of_stepped (Workers.stepped_of_step hw) row hversion) trivial
      · cases hs

/-- **Start-up over a working table.** In every run whose upserts each find
their row absent or initial, before the versions of a row have been
through, no acknowledged transaction is lost; and in its every state the
steps that keep data and version together are those that go on so. -/
theorem kept_of_harmless (users : Users) (present : Fin 5 → Bool) {s : State Inst Worker}
    (h : Lts.Reachable (Lts.Guarded Harmless (Lts.ofFun State.step)) (.init users present) s) :
    (∀ row, s.present row = true → Kept (baseRow users present) s.workers row) ∧
      ∀ a s', s.step a = some s' → (SameData s s' ↔ FindsInitial s a) :=
  ⟨fun _ hrow => (unnoticed_of_run h).kept hrow, fun _ _ hs => sameData_iff hs⟩

end

/-! ## Two instances -/

instance [DecidableEq Inst] (s : State Inst Worker) (a : Action Inst Worker) :
    Decidable (FindsInitial s a) :=
  match a with
  | .insert inst =>
      if h : s.inserted inst < 5 then
        decidable_of_iff
          (s.present ⟨s.inserted inst, h⟩ = true →
            (s.workers.users ⟨s.inserted inst, h⟩).data = kInitialCustomers ⟨s.inserted inst, h⟩)
          ⟨fun hfinds _ => hfinds, fun hfinds => hfinds h⟩
      else .isTrue fun hlt => absurd hlt h
  | .work _ => .isTrue trivial

instance [DecidableEq Inst] (s : State Inst Worker) (a : Action Inst Worker) :
    Decidable (Harmless s a) :=
  decidable_of_iff
    (FindsInitial s a ∧ ∀ row, (s.workers.commits row).length + 1 < 2 ^ 32)
    ⟨fun h => ⟨h.1, h.2⟩, fun h => ⟨h.finds, h.few⟩⟩

/-- No row is there. -/
def emptyTable : State Bool Unit := .init (fun _ => ⟨initialCustomer 0, 0⟩) fun _ => false

def credit : Transaction := { Transaction.zero with value := 10 }

/-- An instance starts; a thread of it credits the first customer. -/
def startUp (inst : Bool) : List (Action Bool Unit) := List.replicate 5 (.insert inst)
def creditFirst (inst : Bool) : List (Action Bool Unit) :=
  .work (.execute (inst, ()) 1 credit) :: List.replicate 5 (.work (.advance (inst, ())))

/-- Both start before the first credit. -/
theorem kept_of_startUps_first :
    ∃ s : State Bool Unit,
      Lts.Run (Lts.Guarded Harmless (Lts.ofFun State.step)) emptyTable
        (startUp true ++ startUp false ++ creditFirst true) s ∧
      s.workers.returns.length = 1 ∧
      Kept (baseRow (fun _ => ⟨initialCustomer 0, 0⟩) fun _ => false) s.workers 0 := by
  obtain ⟨s, hs, hfacts⟩ : ∃ s, Lts.exec (Lts.guardedFun Harmless State.step) emptyTable
      (startUp true ++ startUp false ++ creditFirst true) = some s ∧
        (s.workers.returns.length, s.present 0) = (1, true) :=
    Option.map_eq_some_iff.mp (by decide +kernel)
  obtain ⟨hlen, hpresent⟩ := Prod.mk.inj hfacts
  have hrun := Lts.run_of_exec_guarded hs
  exact ⟨s, hrun, hlen, (kept_of_harmless _ _ ⟨_, hrun⟩).1 0 hpresent⟩

/-- The second starts after it: the credit was acknowledged, and is gone. -/
theorem not_kept_late_startUp :
    ∃ s s' : State Bool Unit,
      Lts.Run (Lts.ofFun State.step) emptyTable (startUp true ++ creditFirst true) s ∧
      s.step (.insert false) = some s' ∧
      s.workers.returns.map (fun r => (r.row, r.transaction, r.result)) =
        [(some 0, credit, .success)] ∧
      (s.workers.users 0).data.balance = 10 ∧ (s'.workers.users 0).data.balance = 0 ∧
      ¬SameData s s' ∧
      ¬Kept (baseRow (fun _ => ⟨initialCustomer 0, 0⟩) fun _ => false) s'.workers 0 := by
  have hexec : ((Lts.exec State.step emptyTable (startUp true ++ creditFirst true)).bind fun s =>
      (s.step (.insert false)).map fun s' => decide
        ((s.workers.returns.map fun r => (r.row, r.transaction, r.result)) =
            [(some 0, credit, .success)] ∧
          s.present 0 = true ∧ (s'.workers.users 0).version = (s.workers.users 0).version ∧
          (s.workers.users 0).data.balance = 10 ∧ (s'.workers.users 0).data.balance = 0 ∧
          (s'.workers.commits 0).map (fun e => e.transaction.value) = [10])) = some true := by
    decide +kernel
  obtain ⟨s, hs, hnext⟩ := Option.bind_eq_some_iff.mp hexec
  obtain ⟨s', hs', hfacts⟩ := Option.map_eq_some_iff.mp hnext
  obtain ⟨hreturns, hpresent, hversion, hbalance, hbalance', hcommits⟩ := of_decide_eq_true hfacts
  refine ⟨s, s', Lts.run_of_exec hs, hs', hreturns, hbalance, hbalance', fun hsame => ?_,
    fun hkept => ?_⟩
  · have hdata := hsame 0 hpresent hversion
    rw [hdata, hbalance] at hbalance'
    exact absurd hbalance' (by decide)
  · have hsum := hkept.balance
    rw [hbalance', hcommits] at hsum
    exact absurd hsum (by decide)

end StartUp
end Rinha
