import Rinha.Server.Statement
import Rinha.Store.Commits
/-!
# The ring and its count

The index of the ring goes on modulo ten. The count is kept apart from it,
by a comparison made before it is raised, and stops at eleven where there
are ten slots. So the index and the slots follow what was accepted however
long that is, and the count with them up to the tenth transaction
(`ringInvariant_executeAll_iff`). A reader does not see the difference: it
only asks whether the count is below ten.
-/

namespace Rinha

variable {log : List Transaction} {customer : Customer}

/-- The next transaction has a slot, and each slot holds the last one of
its number modulo ten. -/
structure RingPlaces (log : List Transaction) (customer : Customer) : Prop where
  next : customer.nextTransactionIndex.toInt = (log.length % 10 : ℕ)
  inside : 0 ≤ customer.nextTransactionIndex.toInt ∧ customer.nextTransactionIndex.toInt ≤ 9
  slots : ∀ i transaction, RingLog.lastAt 10 log i = some transaction →
    slot customer.transactions i = transaction

/-- And the count is that of the slots that are occupied. -/
structure RingInvariant (log : List Transaction) (customer : Customer) : Prop
    extends RingPlaces log customer where
  count : customer.transactionCount.toInt = (min log.length 10 : ℕ)
  occupied : customer.transactionCount.toInt = (RingLog.occupied 10 log : ℕ)
  capacity : customer.transactionCount.toInt ≤ 10

theorem RingOf.places (h : RingOf log customer) : RingPlaces log customer where
  next := h.next
  inside := by
    rw [h.next]
    omega
  slots _ _ hlast := h.holds.eq_of_lastAt (by decide) hlast

/-- **The ring of a log** counts its slots up to the tenth entry. -/
theorem RingOf.invariant_iff (h : RingOf log customer) :
    RingInvariant log customer ↔ log.length ≤ 10 := by
  constructor
  · intro hinvariant
    have hcount := hinvariant.count
    rw [h.count] at hcount
    omega
  · intro hlen
    have hcount : customer.transactionCount.toInt = (min log.length 10 : ℕ) := by
      rw [h.count]
      omega
    exact {
      toRingPlaces := h.places
      count := hcount
      occupied := by rw [hcount, RingLog.occupied_eq]
      capacity := by
        rw [hcount]
        omega }

/-- **The ring between calls.** After any calls on an initial customer the
next index is the number of accepted transactions modulo ten, and each slot
holds the last one that belongs there; and the count is that of the
occupied slots if and only if no more than ten were accepted, past which it
is eleven. -/
theorem ringInvariant_executeAll_iff (passes : ℕ) (row : Fin 5) (out : Customer × Int32)
    (versions : Fin 5 → Int32) (transactions : List Transaction) :
    let run := (executeAll passes row out.1 out.2 transactions).run
      fun row => ⟨kInitialCustomers row, versions row⟩
    let accepted := acceptedOf transactions run.1
    let customer := (run.2 row).data
    RingPlaces accepted customer ∧
      (RingInvariant accepted customer ↔ accepted.length ≤ 10) ∧
      customer.transactionCount.toInt = (min accepted.length 11 : ℕ) := by
  intro run accepted customer
  have hring : RingOf accepted customer := ringOf_executeAll passes row out versions transactions
  exact ⟨hring.places, hring.invariant_iff, hring.count⟩

/-- A credit of one. -/
def smallCredit : Transaction := { Transaction.zero with value := 1 }

/-- **An eleventh transaction** is counted, and has no slot of its own. -/
theorem not_ringInvariant_eleven :
    let run := (executeAll 0 0 (initialCustomer 0) 0 (List.replicate 11 smallCredit)).run
      fun row => ⟨kInitialCustomers row, 1⟩
    (acceptedOf (List.replicate 11 smallCredit) run.1).length = 11 ∧
      (run.2 0).data.transactionCount = 11 ∧
      ¬RingInvariant (acceptedOf (List.replicate 11 smallCredit) run.1) (run.2 0).data := by
  intro run
  have hcount : (run.2 0).data.transactionCount = 11 := by decide +kernel
  refine ⟨by decide +kernel, hcount, fun h => ?_⟩
  have hcapacity := h.capacity
  rw [hcount] at hcapacity
  exact absurd hcapacity (by decide)

/-! ## Every interleaving -/

namespace Workers

variable {Inst Worker : Type} [DecidableEq Inst] [DecidableEq Worker]
variable {users₀ : Users} {s : State Inst Worker}

/-- **The ring of a row** is that of its commits, whoever made them. -/
theorem ringOf_of_reachable {versions : Fin 5 → Int32}
    (h : Reachable (fun row => ⟨kInitialCustomers row, versions row⟩) s)
    (hfew : ∀ row, (s.commits row).length < 2 ^ 32) (row : Fin 5) :
    RingOf ((s.commits row).map Commit.transaction) (s.users row).data := by
  have hinv := inv_of_reachable h hfew
  have hdata : (s.users row).data = ((s.commits row).map Commit.transaction).foldl
      applyTransaction (kInitialCustomers row) := by
    rw [hinv.rows row]
    rfl
  rw [hdata]
  simpa using (RingOf.init row).foldl ((s.commits row).map Commit.transaction)

end Workers
end Rinha
