import Mathlib.Data.Nat.Notation
import Mathlib.Tactic.Common
/-!
# Delimited text

Items that do not contain the separator, each behind one, and lines that
do not contain the terminator, each in front of one. Either text splits
back into what it was made of, so a separator is all the framing such
items need.
-/

namespace Delimited

variable {β : Type*} [DecidableEq β] {sep b : β} {text rest item : List β}
variable {its its' : List (List β)}

/-- Items, each behind a separator. -/
def led (sep : β) (its : List (List β)) : List β := its.flatMap fun item => sep :: item

/-- The items of a text. The separator in front of the first is skipped,
whatever it is. -/
def items (sep : β) : List β → List (List β)
  | [] => []
  | _ :: rest => rest.splitOn sep

/-- Lines, each in front of its terminator. -/
def ended (sep : β) (its : List (List β)) : List β := its.flatMap fun item => item ++ [sep]

omit [DecidableEq β] in
@[simp] theorem led_nil : led sep [] = [] := rfl

omit [DecidableEq β] in
@[simp] theorem led_cons : led sep (item :: its) = sep :: (item ++ led sep its) := rfl

omit [DecidableEq β] in
@[simp] theorem led_append : led sep (its ++ its') = led sep its ++ led sep its' := by
  simp [led]

omit [DecidableEq β] in
@[simp] theorem ended_nil : ended sep [] = [] := rfl

omit [DecidableEq β] in
@[simp] theorem ended_cons : ended sep (item :: its) = item ++ sep :: ended sep its := by
  simp [ended]

omit [DecidableEq β] in
@[simp] theorem ended_append : ended sep (its ++ its') = ended sep its ++ ended sep its' := by
  simp [ended]

omit [DecidableEq β] in
/-- Items with separators between them are the first, and the others behind
one each. -/
theorem intercalate_cons : [sep].intercalate (item :: its) = item ++ led sep its := by
  induction its generalizing item with
  | nil => simp
  | cons next its ih => rw [List.intercalate_cons_cons, ih, led_cons]; simp

/-! ## Reading the items -/

@[simp] theorem items_nil : items sep [] = [] := rfl

theorem items_eq_nil_iff : items sep text = [] ↔ text = [] := by
  cases text with
  | nil => exact iff_of_true rfl rfl
  | cons b rest => exact iff_of_false (List.splitOn_ne_nil sep rest) (List.cons_ne_nil b rest)

/-- **The first item** ends at the next separator, where the rest begins. -/
theorem items_cons : items sep (b :: rest) =
    rest.takeWhile (· ≠ sep) :: items sep (rest.dropWhile (· ≠ sep)) := by
  have hnot : sep ∉ rest.takeWhile (· ≠ sep) := fun hmem => by
    simpa using List.all_eq_true.mp List.all_takeWhile sep hmem
  rw [items]
  conv_lhs => rw [← List.takeWhile_append_dropWhile (p := (· ≠ sep)) (l := rest)]
  cases hdrop : rest.dropWhile (· ≠ sep) with
  | nil => rw [List.append_nil, List.splitOn_eq_singleton hnot, items_nil]
  | cons c rest' =>
      have hc : c = sep := by
        have hhead := List.head?_dropWhile_not (· ≠ sep) rest
        rw [hdrop] at hhead
        simpa using hhead
      subst hc
      rw [List.splitOn_append_cons_self_of_not_mem hnot, items]

/-- An item that stands behind a separator, in front of another or at the
end, is read as it is. -/
theorem items_append (hitem : sep ∉ item) (hrest : ∀ c ∈ rest.head?, c = sep) :
    items sep (b :: (item ++ rest)) = item :: items sep rest := by
  rw [items]
  cases rest with
  | nil => rw [List.append_nil, List.splitOn_eq_singleton hitem, items_nil]
  | cons c rest =>
      obtain rfl : c = sep := hrest c rfl
      rw [List.splitOn_append_cons_self_of_not_mem hitem, items]

/-- **The items are read back.** -/
theorem items_led (h : ∀ item ∈ its, sep ∉ item) : items sep (led sep its) = its := by
  induction its with
  | nil => rfl
  | cons item its ih =>
      have hhead : ∀ c ∈ (led sep its).head?, c = sep := by
        cases its with
        | nil => simp
        | cons => simp [eq_comm]
      rw [led_cons, items_append (h item List.mem_cons_self) hhead,
        ih fun x hx => h x (List.mem_cons_of_mem _ hx)]

/-! ## Reading the lines -/

/-- **The lines are read back**, and an empty one behind the last. -/
theorem splitOn_ended (h : ∀ item ∈ its, sep ∉ item) :
    (ended sep its).splitOn sep = its ++ [[]] := by
  induction its with
  | nil => simp
  | cons item its ih =>
      rw [ended_cons, List.splitOn_append_cons_self_of_not_mem (h item List.mem_cons_self),
        ih fun x hx => h x (List.mem_cons_of_mem _ hx), List.cons_append]

/-- So a sequence of lines is their text. -/
theorem ended_inj (h : ∀ item ∈ its, sep ∉ item) (h' : ∀ item ∈ its', sep ∉ item)
    (heq : ended sep its = ended sep its') : its = its' := by
  have hsplit := congrArg (List.splitOn sep) heq
  rw [splitOn_ended h, splitOn_ended h'] at hsplit
  exact List.append_cancel_right hsplit

end Delimited
