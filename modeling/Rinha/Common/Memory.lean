import Mathlib.Data.Nat.Notation
import Mathlib.Tactic.Common
/-!
# Memory

A cell at every address, and what a pointer and a size see of it. A loop
that writes cell by cell and one that copies a block come to the same
here: both are a `put`, and what is read back afterwards depends on where
it was put alone.
-/

namespace Memory

variable {β : Type*}

/-- The `size` cells from an address on. -/
def slice (mem : ℕ → β) (start size : ℕ) : List β :=
  (List.range size).map fun i => mem (start + i)

/-- A block of cells is written from an address on. -/
def put (mem : ℕ → β) (start : ℕ) (block : List β) : ℕ → β := fun i =>
  if start ≤ i then block[i - start]?.getD (mem i) else mem i

variable {mem mem' : ℕ → β} {start start' size size' i : ℕ} {block block' : List β} {b : β}

/-! ## Reading -/

@[simp] theorem length_slice : (slice mem start size).length = size := by simp [slice]

@[simp] theorem slice_zero : slice mem start 0 = [] := rfl

theorem getElem_slice (h : i < (slice mem start size).length) :
    (slice mem start size)[i] = mem (start + i) := by
  simp [slice]

theorem getElem?_slice (h : i < size) : (slice mem start size)[i]? = some (mem (start + i)) := by
  simp [slice, h]

/-- Two blocks that lie end to end are one. -/
theorem slice_add : slice mem start (size + size') =
    slice mem start size ++ slice mem (start + size) size' := by
  simp [slice, List.range_add, Nat.add_assoc, Function.comp_def]

theorem slice_succ : slice mem start (size + 1) = mem start :: slice mem (start + 1) size := by
  rw [Nat.add_comm size 1, slice_add]
  rfl

theorem take_slice (h : size ≤ size') :
    (slice mem start size').take size = slice mem start size := by
  obtain ⟨k, rfl⟩ := Nat.exists_eq_add_of_le h
  rw [slice_add]
  exact List.take_left' length_slice

theorem drop_slice (h : size ≤ size') :
    (slice mem start size').drop size = slice mem (start + size) (size' - size) := by
  obtain ⟨k, rfl⟩ := Nat.exists_eq_add_of_le h
  rw [slice_add, Nat.add_sub_cancel_left]
  exact List.drop_left' length_slice

/-- What two memories agree on, they hold alike. -/
theorem slice_congr (h : ∀ i, start ≤ i → i < start + size → mem i = mem' i) :
    slice mem start size = slice mem' start size := by
  refine List.map_congr_left fun i hi => ?_
  have := List.mem_range.mp hi
  exact h _ (by omega) (by omega)

/-- The first cells with a property are where they were, -/
theorem slice_takeWhile {p : β → Bool} :
    slice mem start ((slice mem start size).takeWhile p).length =
      (slice mem start size).takeWhile p := by
  have hle : ((slice mem start size).takeWhile p).length ≤ size := by
    simpa using (List.takeWhile_prefix (l := slice mem start size) p).length_le
  rw [← take_slice hle]
  exact (List.prefix_iff_eq_take.mp (List.takeWhile_prefix p)).symm

/-- and so are the others. -/
theorem slice_dropWhile {p : β → Bool} :
    slice mem (start + ((slice mem start size).takeWhile p).length)
        (size - ((slice mem start size).takeWhile p).length) =
      (slice mem start size).dropWhile p := by
  have hle : ((slice mem start size).takeWhile p).length ≤ size := by
    simpa using (List.takeWhile_prefix (l := slice mem start size) p).length_le
  rw [← drop_slice hle]
  have happend := congrArg (List.drop ((slice mem start size).takeWhile p).length)
    (List.takeWhile_append_dropWhile (p := p) (l := slice mem start size))
  rw [List.drop_left] at happend
  exact happend.symm

/-! ## Writing -/

@[simp] theorem put_nil : put mem start [] = mem := by
  funext i
  simp [put]

theorem put_of_lt (h : i < start) : put mem start block i = mem i := by
  rw [put, if_neg (by omega)]

theorem put_of_ge (h : start + block.length ≤ i) : put mem start block i = mem i := by
  rw [put, if_pos (by omega), List.getElem?_eq_none (by omega), Option.getD_none]

theorem put_add (h : i < block.length) : put mem start block (start + i) = block[i] := by
  rw [put, if_pos (by omega), Nat.add_sub_cancel_left, List.getElem?_eq_getElem h,
    Option.getD_some]

/-- **What was written is read back.** -/
@[simp] theorem slice_put_self : slice (put mem start block) start block.length = block := by
  refine List.ext_getElem length_slice fun i h hi => ?_
  rw [getElem_slice, put_add hi]

/-- **What lies elsewhere stays.** -/
theorem slice_put_of_disjoint (h : start' + size ≤ start ∨ start + block.length ≤ start') :
    slice (put mem start block) start' size = slice mem start' size := by
  refine slice_congr fun i hlo hhi => ?_
  rcases h with h | h
  · exact put_of_lt (by omega)
  · exact put_of_ge (by omega)

/-- A block written in two parts. -/
theorem put_append :
    put mem start (block ++ block') = put (put mem start block) (start + block.length) block' := by
  funext i
  rcases Nat.lt_or_ge i (start + block.length) with hlt | hge
  · have hsecond : put (put mem start block) (start + block.length) block' i =
        put mem start block i := put_of_lt hlt
    rw [hsecond]
    rcases Nat.lt_or_ge i start with hbelow | hin
    · rw [put_of_lt hbelow, put_of_lt hbelow]
    · obtain ⟨k, rfl⟩ := Nat.exists_eq_add_of_le hin
      rw [put_add (by omega : k < block.length), put_add (by simp; omega),
        List.getElem_append_left]
  · obtain ⟨k, rfl⟩ := Nat.exists_eq_add_of_le hge
    rcases Nat.lt_or_ge k block'.length with hk | hk
    · rw [put_add hk, Nat.add_assoc, put_add (by simp; omega)]
      simp
    · rw [put_of_ge (by simp; omega), put_of_ge (by omega), put_of_ge (by omega)]

theorem put_cons : put mem start (b :: block) = put (put mem start [b]) (start + 1) block :=
  @put_append _ mem start [b] block

/-- What lies before a block is read together with it. -/
theorem slice_append_put :
    slice (put mem (start + size) block) start (size + block.length) =
      slice mem start size ++ block := by
  rw [slice_add, slice_put_self, slice_put_of_disjoint (.inl (Nat.le_refl _))]

end Memory
