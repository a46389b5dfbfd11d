import Mathlib.Algebra.BigOperators.Group.List.Basic
import Mathlib.Algebra.Ring.Int.Defs
import Mathlib.Logic.Function.Basic
import Mathlib.Tactic.Common
/-!
# Accounts with a credit line

An account is what was posted to it, in the order it was, and never was
that below the line: an account below it cannot be built. The balance is
a sum and the statement the history itself, so there is nothing to keep
in step. Whatever asks an account something is given an answer and an
account again.
-/

namespace Bank

/-- A value, and what is noted with it. -/
structure Entry (δ : Type*) where
  value : ℤ
  details : δ
  deriving DecidableEq

/-- The entries posted, oldest first, at no time below the line. -/
structure Account (δ : Type*) where
  limit : ℤ
  history : List (Entry δ)
  line : ∀ n, -limit ≤ ((history.take n).map Entry.value).sum

/-- What may be asked: a request that is none, one about no row, a statement
or an entry to post. -/
inductive Ask (ρ δ τ : Type*)
  | unreadable
  | unknown
  | statement (row : ρ) (now : τ)
  | post (row : ρ) (entry : Entry δ)

/-- And what is answered. -/
inductive Answer (δ τ : Type*)
  | unreadable
  | unknown
  | statement (account : Account δ) (now : τ)
  | refused
  | posted (account : Account δ)

variable {ρ δ τ : Type*}

namespace Account

/-- An account with nothing posted. -/
def opening (limit : ℕ) : Account δ where
  limit := limit
  history := []
  line n := by simp

def balance (account : Account δ) : ℤ := (account.history.map Entry.value).sum

theorem line_balance (account : Account δ) : -account.limit ≤ account.balance := by
  have h := account.line account.history.length
  rwa [List.take_length] at h

/-- The entry leaves the account at or above its line. -/
def Takes (account : Account δ) (entry : Entry δ) : Prop :=
  -account.limit ≤ account.balance + entry.value

instance (account : Account δ) (entry : Entry δ) : Decidable (account.Takes entry) :=
  inferInstanceAs (Decidable (_ ≤ _))

theorem line_concat (account : Account δ) (entry : Entry δ) (h : account.Takes entry) (n : ℕ) :
    -account.limit ≤ (((account.history ++ [entry]).take n).map Entry.value).sum := by
  rcases Nat.lt_or_ge account.history.length n with hn | hn
  · rw [List.take_of_length_le (by simp; omega), List.map_append, List.sum_append]
    simpa [Takes, balance] using h
  · rw [List.take_append_of_le_length hn]
    exact account.line n

/-- An entry the account takes, behind the others. -/
def post (account : Account δ) (entry : Entry δ) (h : account.Takes entry) : Account δ where
  limit := account.limit
  history := account.history ++ [entry]
  line := account.line_concat entry h

variable {account : Account δ} {entry : Entry δ} {h : account.Takes entry}

@[simp] theorem post_limit : (account.post entry h).limit = account.limit := rfl

@[simp] theorem post_history : (account.post entry h).history = account.history ++ [entry] := rfl

@[simp] theorem post_balance : (account.post entry h).balance = account.balance + entry.value := by
  simp [balance]

end Account

variable [DecidableEq ρ]

/-- The answer to a question, and the accounts afterwards. -/
def answer (bank : ρ → Account δ) : Ask ρ δ τ → Answer δ τ × (ρ → Account δ)
  | .unreadable => (.unreadable, bank)
  | .unknown => (.unknown, bank)
  | .statement row now => (.statement (bank row) now, bank)
  | .post row entry =>
      if h : (bank row).Takes entry then
        let account := (bank row).post entry h
        (.posted account, Function.update bank row account)
      else (.refused, bank)

/-- One question after the other. -/
def answerAll (bank : ρ → Account δ) : List (Ask ρ δ τ) → List (Answer δ τ) × (ρ → Account δ)
  | [] => ([], bank)
  | ask :: asks =>
      let next := answer bank ask
      let rest := answerAll next.2 asks
      (next.1 :: rest.1, rest.2)

/-- Along the questions, each meets the condition on the accounts it finds. -/
def Along (condition : (ρ → Account δ) → Ask ρ δ τ → Prop) :
    (ρ → Account δ) → List (Ask ρ δ τ) → Prop
  | _, [] => True
  | bank, ask :: asks => condition bank ask ∧ Along condition (answer bank ask).2 asks

section

variable {condition : (ρ → Account δ) → Ask ρ δ τ → Prop} {bank : ρ → Account δ}
variable {asks : List (Ask ρ δ τ)} {ask : Ask ρ δ τ}

theorem answerAll_concat : answerAll bank (asks ++ [ask]) =
    ((answerAll bank asks).1 ++ [(answer (answerAll bank asks).2 ask).1],
      (answer (answerAll bank asks).2 ask).2) := by
  induction asks generalizing bank with
  | nil => rfl
  | cons first asks ih =>
      rw [List.cons_append, answerAll, ih]
      rfl

theorem along_concat : Along condition bank (asks ++ [ask]) ↔
    Along condition bank asks ∧ condition (answerAll bank asks).2 ask := by
  induction asks generalizing bank with
  | nil => simp [Along, answerAll]
  | cons first asks ih =>
      rw [List.cons_append, Along, ih, Along, and_assoc]
      rfl

end

instance decidableAlong (condition : (ρ → Account δ) → Ask ρ δ τ → Prop)
    [∀ bank ask, Decidable (condition bank ask)] :
    ∀ bank asks, Decidable (Along condition bank asks)
  | _, [] => isTrue trivial
  | bank, ask :: asks =>
      haveI := decidableAlong condition (answer bank ask).2 asks
      inferInstanceAs (Decidable (condition bank ask ∧ _))

end Bank
