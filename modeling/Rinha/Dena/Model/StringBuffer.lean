import Rinha.Common.Memory
import Rinha.Common.Text
/-!
# `string_buffer.hpp`

The buffer both directions of a store connection go through: an
allocation, and in it the place where the contents begin and the place
where they end. A read takes them off the front by moving the first place
on, a write puts them at the second, and the allocation grows by doubling.
The places are fields with their order, so a buffer whose contents are
outside its allocation cannot be built.

Sizes are naturals. In the source a sum of sizes may wrap, and `reserve`
ends the process where doubling an allocation would; neither happens where
the lengths come to at most `2 ^ 62` (`StringBuffer.run_refines`).
-/

namespace Rinha
namespace Dena

/-- `string_buffer`. -/
structure StringBuffer where
  buffer : ℕ → UInt8
  beginOffset : ℕ
  endOffset : ℕ
  allocSize : ℕ
  begin_le : beginOffset ≤ endOffset
  end_le : endOffset ≤ allocSize

namespace StringBuffer

/-- The buffer as its constructor leaves it, over whatever memory. -/
def init (buffer : ℕ → UInt8) : StringBuffer := ⟨buffer, 0, 0, 0, Nat.le_refl _, Nat.le_refl _⟩

def size (b : StringBuffer) : ℕ := b.endOffset - b.beginOffset

/-- What is between `begin()` and `end()`. -/
def contents (b : StringBuffer) : Bytes := Memory.slice b.buffer b.beginOffset b.size

/-- `while (asz < need)`, at most so many times. -/
def growLoop : ℕ → ℕ → ℕ → ℕ
  | 0, _, asz => asz
  | rounds + 1, need, asz =>
      if asz < need then growLoop rounds need ((if asz = 0 then 16 else asz) * 2) else asz

/-- The size `reserve` allocates, where the one there is does not do. -/
def grow (need asz : ℕ) : ℕ := growLoop need need asz

theorem le_growLoop {rounds need asz : ℕ} : asz ≤ growLoop rounds need asz := by
  induction rounds generalizing asz with
  | zero => exact Nat.le_refl _
  | succ rounds ih =>
      rw [growLoop]
      split
      · refine Nat.le_trans ?_ ih
        split <;> omega
      · exact Nat.le_refl _

theorem need_le_growLoop {rounds need asz : ℕ} (h : need ≤ rounds + asz) :
    need ≤ growLoop rounds need asz := by
  induction rounds generalizing asz with
  | zero => simpa [growLoop] using h
  | succ rounds ih =>
      rw [growLoop]
      split
      · refine ih ?_
        split <;> omega
      · omega

/-- It is enough. -/
theorem need_le_grow (need asz : ℕ) : need ≤ grow need asz :=
  need_le_growLoop (Nat.le_add_right _ _)

/-- And no less than there was. -/
theorem le_grow (need asz : ℕ) : asz ≤ grow need asz := le_growLoop

/-- `reserve`. What is beyond the old allocation is whatever was there. -/
def reserve (b : StringBuffer) (len : ℕ) : StringBuffer :=
  { b with
    allocSize := grow (b.beginOffset + len) b.allocSize
    end_le := Nat.le_trans b.end_le (le_grow _ _) }

/-- There is room for what was asked. -/
theorem reserve_room (b : StringBuffer) (len : ℕ) :
    b.beginOffset + len ≤ (b.reserve len).allocSize := need_le_grow _ _

def clear (b : StringBuffer) : StringBuffer :=
  { b with
    beginOffset := 0
    endOffset := 0
    begin_le := Nat.le_refl _
    end_le := Nat.zero_le _ }

def resize (b : StringBuffer) (len : ℕ) : StringBuffer :=
  if h : b.size < len then
    { b.reserve len with
      buffer := Memory.put b.buffer b.endOffset (List.replicate (len - b.size) 0)
      endOffset := b.beginOffset + len
      begin_le := Nat.le_add_right _ _
      end_le := b.reserve_room len }
  else
    { b with
      endOffset := b.beginOffset + len
      begin_le := Nat.le_add_right _ _
      end_le := by
        have := b.begin_le
        have := b.end_le
        unfold size at h
        omega }

def eraseFront (b : StringBuffer) (len : ℕ) : StringBuffer :=
  if h : len ≥ b.size then b.clear
  else
    { b with
      beginOffset := b.beginOffset + len
      begin_le := by
        unfold size at h
        omega }

/-- `make_space`, which hands out the place at `end_offset`. -/
def makeSpace (b : StringBuffer) (len : ℕ) : StringBuffer := b.reserve (b.size + len)

/-- Bytes are written into the space made. -/
def fill (b : StringBuffer) (bytes : Bytes) : StringBuffer :=
  { b with buffer := Memory.put b.buffer b.endOffset bytes }

def spaceWrote (b : StringBuffer) (len : ℕ) : StringBuffer :=
  { b with
    endOffset := b.endOffset + min len (b.allocSize - b.endOffset)
    begin_le := Nat.le_add_right_of_le b.begin_le
    end_le := by
      have := b.end_le
      omega }

def append (b : StringBuffer) (bytes : Bytes) : StringBuffer :=
  { b.reserve (b.size + bytes.length) with
    buffer := Memory.put b.buffer b.endOffset bytes
    endOffset := b.endOffset + bytes.length
    begin_le := Nat.le_add_right_of_le b.begin_le
    end_le := by
      have hbegin := b.begin_le
      have hroom := b.reserve_room (b.size + bytes.length)
      simp only [reserve, size] at hroom ⊢
      omega }

/-- `append_2`, which asks for more than it needs. -/
def append2 (b : StringBuffer) (bytes bytes' : Bytes) : StringBuffer :=
  { b.reserve (b.endOffset + bytes.length + bytes'.length) with
    buffer := Memory.put (Memory.put b.buffer b.endOffset bytes) (b.endOffset + bytes.length) bytes'
    endOffset := b.endOffset + (bytes.length + bytes'.length)
    begin_le := Nat.le_add_right_of_le b.begin_le
    end_le := by
      have hroom := b.reserve_room (b.endOffset + bytes.length + bytes'.length)
      simp only [reserve] at hroom ⊢
      omega }

end StringBuffer
end Dena
end Rinha
