import Rinha.Server.Bank
import Rinha.Store.Linearized
/-!
# The accounts, with everyone at once

The bank a client sees one request after the other is also the bank all
threads of all instances see together: there is an order of their calls,
each at a moment between its call and its return, in which the five exact
accounts answer what the calls handed back. Where the run's credits stay
together within an `int`, and no debit is near its bottom, no sum of any
order leaves it.
-/

namespace Rinha

open Bank

/-! ## Credits that fit -/

section

variable {τ : Type}

/-- What an entry adds, if it does. -/
def creditIn : Ask (Fin 5) Details τ → ℕ
  | .post _ entry => entry.value.toNat
  | _ => 0

/-- No entry takes off more than leaves room for the longest line. -/
def Shallow : Ask (Fin 5) Details τ → Prop
  | .post _ entry => -2 ^ 31 + 10000000 ≤ entry.value
  | _ => True

variable {bank : Fin 5 → Account Details} {ask : Ask (Fin 5) Details τ}
variable {asks : List (Ask (Fin 5) Details τ)} {credits : ℕ}

/-- The lines are no longer than the longest, and the balances at most what
was credited. -/
structure Credited (credits : ℕ) (bank : Fin 5 → Account Details) : Prop where
  limit : ∀ row, (bank row).limit ≤ 10000000
  balance : ∀ row, (bank row).balance ≤ credits

theorem credited_openings : Credited 0 openings where
  limit := by decide
  balance _ := Int.le_refl 0

theorem Credited.exact (h : Credited credits bank) (hfits : credits + creditIn ask < 2 ^ 31)
    (hshallow : Shallow ask) : Exact bank ask := by
  cases ask with
  | post row entry =>
      have hlimit := h.limit row
      have hbalance := h.balance row
      have hline := (bank row).line_balance
      simp only [creditIn] at hfits
      simp only [Shallow] at hshallow
      refine ⟨⟨?_, ?_⟩, ?_⟩ <;> omega
  | unreadable => trivial
  | unknown => trivial
  | statement row now => trivial

theorem Credited.answer (h : Credited credits bank) :
    Credited (credits + creditIn ask) (answer bank ask).2 := by
  have hsame : Credited (credits + creditIn ask) bank :=
    ⟨h.limit, fun row => (h.balance row).trans (by omega)⟩
  cases ask with
  | post row entry =>
      rw [Bank.answer]
      split
      · refine ⟨fun row' => ?_, fun row' => ?_⟩ <;> by_cases heq : row' = row
        · subst heq
          simpa using h.limit row'
        · simpa [heq] using h.limit row'
        · subst heq
          have hbalance := h.balance row'
          simp only [Function.update_self, Account.post_balance, creditIn]
          omega
        · simpa [heq] using hsame.balance row'
      · exact hsame
  | unreadable => exact hsame
  | unknown => exact hsame
  | statement row now => exact hsame

/-- **Credits that fit together** fit in any order. -/
theorem Credited.along (h : Credited credits bank)
    (hfits : credits + (asks.map creditIn).sum < 2 ^ 31) (hshallow : ∀ ask ∈ asks, Shallow ask) :
    Along Exact bank asks := by
  induction asks generalizing credits bank with
  | nil => trivial
  | cons ask asks ih =>
      rw [List.map_cons, List.sum_cons] at hfits
      refine ⟨h.exact (by omega) (hshallow ask List.mem_cons_self), ?_⟩
      exact ih h.answer (by omega) fun ask' h' => hshallow ask' (List.mem_cons_of_mem _ h')

end

namespace Workers

open Linearizable

/-! ## One call -/

/-- What a call asks. -/
def Op.ask : Op → Ask (Fin 5) Details Unit
  | .execute id transaction =>
      match rowIndex id with
      | none => .unknown
      | some row => .post row (entryOf transaction)
  | .get id =>
      match rowIndex id with
      | none => .unknown
      | some row => .statement row ()

/-- What a call hands back is an answer: the customer it sets, if the answer
names an account, keeps that account. -/
inductive Shows : Op → Ret → Answer Details Unit → Prop
  | notFound {id transaction} : rowIndex id = none →
      Shows (.execute id transaction) (.executed .notFound none) .unknown
  | refused {id transaction customer} :
      Shows (.execute id transaction) (.executed .limitExceeded (some customer)) .refused
  | posted {id transaction row account customer} : rowIndex id = some row →
      Keeps row account customer →
      Shows (.execute id transaction) (.executed .success (some customer)) (.posted account)
  | missing {id} : rowIndex id = none → Shows (.get id) (.got none) .unknown
  | statement {id row account customer} : rowIndex id = some row → Keeps row account customer →
      Shows (.get id) (.got (some customer)) (.statement account ())

variable {bank : Fin 5 → Account Details} {held held' : Fin 5 → Customer} {op : Op}

theorem serveOne_exact (h : ∀ row, Keeps row (bank row) (held row))
    (hexact : Exact bank op.ask) :
    Shows op (serveOne held op).2 (answer bank op.ask).1 ∧
      ∀ row, Keeps row ((answer bank op.ask).2 row) ((serveOne held op).1 row) := by
  cases op with
  | get id =>
      cases hid : rowIndex id with
      | none =>
          simp only [serveOne, Op.ask, hid, answer]
          exact ⟨.missing hid, h⟩
      | some row =>
          simp only [serveOne, Op.ask, hid, answer]
          exact ⟨.statement hid (h row), h⟩
  | execute id transaction =>
      cases hid : rowIndex id with
      | none =>
          simp only [serveOne, Op.ask, hid, answer]
          exact ⟨.notFound hid, h⟩
      | some row =>
          simp only [Op.ask, hid] at hexact
          simp only [serveOne, Op.ask, hid]
          by_cases htakes : (bank row).Takes (entryOf transaction)
          · have hlim := ((h row).takes_iff hexact.1).mp htakes
            have hposted := (h row).post hexact.1 hexact.2 htakes
            rw [answer, dif_pos htakes, hlim]
            refine ⟨.posted hid hposted, fun row' => ?_⟩
            by_cases heq : row' = row
            · subst heq
              simpa using hposted
            · simpa [heq] using h row'
          · have hlim : limitExceeded (held row) transaction = true := by
              rwa [(h row).takes_iff hexact.1, Bool.not_eq_false] at htakes
            rw [answer, dif_neg htakes, hlim]
            exact ⟨.refused, h⟩

/-- **A legal order** is one the accounts answer. -/
theorem Legal.exact {order : List (Linearizable.Entry Op Ret)}
    (h : Legal serveOne held order held')
    (hkeeps : ∀ row, Keeps row (bank row) (held row))
    (hexact : Along Exact bank (order.map fun e => e.op.ask)) :
    List.Forall₂ (fun e => Shows e.op e.ret) order
        (Bank.answerAll bank (order.map fun e => e.op.ask)).1 ∧
      ∀ row, Keeps row ((Bank.answerAll bank (order.map fun e => e.op.ask)).2 row)
        (held' row) := by
  induction h with
  | nil => exact ⟨.nil, hkeeps⟩
  | @snoc order s e hlegal hret ih =>
      rw [List.map_append, List.map_singleton, along_concat] at hexact
      obtain ⟨hshows, hleft⟩ := ih hexact.1
      obtain ⟨hnow, hnext⟩ := serveOne_exact hleft hexact.2
      rw [List.map_append, List.map_singleton, answerAll_concat]
      refine ⟨List.rel_append hshows (.cons ?_ .nil), hnext⟩
      rwa [hret]

/-! ## Every run -/

section Run

variable {Inst Worker : Type}

/-- What an action's call would credit. -/
def Action.credit : Action Inst Worker → ℕ
  | .execute _ _ transaction => transaction.value.toInt.toNat
  | _ => 0

/-- The call does not debit more than leaves room for the longest line. -/
def Action.Shallow : Action Inst Worker → Prop
  | .execute _ _ transaction => -2 ^ 31 + 10000000 ≤ transaction.value.toInt
  | _ => True

theorem creditIn_le (a : Action Inst Worker) :
    a.op?.elim 0 (fun op => creditIn op.ask) ≤ a.credit := by
  cases a with
  | execute t id transaction =>
      simp only [Action.op?, Option.elim_some, Op.ask]
      cases rowIndex id with
      | none => exact Nat.zero_le _
      | some row => exact Nat.le_refl _
  | getCustomer t id =>
      simp only [Action.op?, Option.elim_some, Op.ask]
      cases rowIndex id <;> exact Nat.le_refl _
  | advance t => exact Nat.le_refl _

theorem Action.Shallow.ask {a : Action Inst Worker} {op : Op} (h : a.Shallow)
    (hop : a.op? = some op) : Rinha.Shallow op.ask := by
  cases a with
  | execute t id transaction =>
      obtain rfl := Option.some.inj hop
      cases hid : rowIndex id with
      | none => simp only [Op.ask, hid, Rinha.Shallow]
      | some row =>
          simp only [Op.ask, hid]
          exact h
  | getCustomer t id =>
      obtain rfl := Option.some.inj hop
      cases hid : rowIndex id <;> simp only [Op.ask, hid, Rinha.Shallow]
  | advance t => cases hop

variable [DecidableEq Inst] [DecidableEq Worker]

/-- **Everyone at once sees the five accounts.** In a run of any instances and
threads from the table as it is initialized, whose credits together fit an
`int`, there is an order of the calls that linearizes the run and in which
the exact accounts answer what each call handed back; and in the end the
table keeps the accounts. -/
theorem accounts_of_run (versions : Fin 5 → Int32) {as : List (Action Inst Worker)}
    {w : Watched Inst Worker}
    (h : Lts.Run (Lts.ofFun Watched.step)
      (Watched.init fun row => ⟨kInitialCustomers row, versions row⟩) as w)
    (hfew : ∀ row, (w.state.commits row).length < 2 ^ 32)
    (hcredits : (as.map Action.credit).sum < 2 ^ 31) (hdebits : ∀ a ∈ as, a.Shallow) :
    ∃ order, Linearized serveOne kInitialCustomers (fun n => as[n]?.bind Action.op?) w.done order
        w.now (customers w.state.users) ∧
      List.Forall₂ (fun e => Shows e.op e.ret) order
        (Bank.answerAll openings (order.map fun e => e.op.ask)).1 ∧
      ∀ row, Keeps row ((Bank.answerAll openings (order.map fun e => e.op.ask)).2 row)
        (w.state.users row).data := by
  obtain ⟨order, hwatch⟩ := watch_of_run (fun n => as[n]?.bind Action.op?) h
    (fun n a hn => by simp only [hn, Option.bind_some]) hfew
  have hlin := hwatch.lin
  -- the calls in the order are calls of the run, each taken once
  have hsum : ((order.map fun e => e.op.ask).map creditIn).sum < 2 ^ 31 := by
    have hle := hlin.sum_le fun op => creditIn op.ask
    have hbound : (as.map fun a => a.op?.elim 0 fun op => creditIn op.ask).sum ≤
        (as.map Action.credit).sum := List.sum_le_sum fun a _ => creditIn_le a
    rw [List.map_map]
    exact Nat.lt_of_le_of_lt (Nat.le_trans hle hbound) hcredits
  have hshallow : ∀ ask ∈ order.map fun e => e.op.ask, Rinha.Shallow ask := fun ask hask => by
    obtain ⟨e, he, rfl⟩ := List.mem_map.mp hask
    obtain ⟨a, ha, hop⟩ := Option.bind_eq_some_iff.mp (hlin.called e he).1
    exact (hdebits a (List.mem_of_getElem? ha)).ask hop
  have hexact : Along Exact openings (order.map fun e => e.op.ask) :=
    credited_openings.along (by omega) hshallow
  obtain ⟨hshows, hleft⟩ := Legal.exact hlin.legal keeps_openings hexact
  exact ⟨order, hlin, hshows, hleft⟩

end Run

/-- Two instances credit one customer at once: the second write finds its
version stale, and its call is made again. -/
def racingCredits : List (Action Bool Unit) :=
  [.execute (false, ()) 1 { Transaction.zero with value := 5 },
    .execute (true, ()) 1 { Transaction.zero with value := 7 }] ++
    List.replicate 3 (.advance (false, ())) ++ List.replicate 3 (.advance (true, ())) ++
    List.replicate 2 (.advance (false, ())) ++ List.replicate 5 (.advance (true, ()))

theorem accounts_of_run_race : ∃ (w : Watched Bool Unit)
    (order : List (Linearizable.Entry Op Ret)),
    w.done.length = 2 ∧ w.state.failedWrites true 0 = 1 ∧
      List.Forall₂ (fun e => Shows e.op e.ret) order
        (Bank.answerAll openings (order.map fun e => e.op.ask)).1 ∧
      Keeps 0 ((Bank.answerAll openings (order.map fun e => e.op.ask)).2 0) (w.state.users 0).data ∧
      (w.state.users 0).data.balance.toInt = 12 := by
  obtain ⟨w, hs, hlen, hfailed, hbalance, hfew⟩ : ∃ w : Watched Bool Unit,
      Lts.exec Watched.step (Watched.init fun row => ⟨kInitialCustomers row, 1⟩) racingCredits =
        some w ∧ w.done.length = 2 ∧ w.state.failedWrites true 0 = 1 ∧
        (w.state.users 0).data.balance.toInt = 12 ∧
        ∀ row, (w.state.commits row).length < 2 ^ 32 :=
    ⟨_, rfl, by decide, by decide, by decide, by decide⟩
  have hdebits : ∀ a ∈ racingCredits, a.Shallow := fun a ha => by
    simp only [racingCredits, List.mem_append, List.mem_cons, List.mem_replicate,
      List.not_mem_nil, or_false] at ha
    rcases ha with ((((rfl | rfl) | ⟨-, rfl⟩) | ⟨-, rfl⟩) | ⟨-, rfl⟩) | ⟨-, rfl⟩
    · exact (by decide : (-2 ^ 31 + 10000000 : ℤ) ≤ 5)
    · exact (by decide : (-2 ^ 31 + 10000000 : ℤ) ≤ 7)
    all_goals trivial
  obtain ⟨order, -, hshows, hkeeps⟩ :=
    accounts_of_run (fun _ => 1) (Lts.run_of_exec hs) hfew (by decide) hdebits
  exact ⟨w, order, hlen, hfailed, hshows, hkeeps 0, hbalance⟩

end Workers
end Rinha
