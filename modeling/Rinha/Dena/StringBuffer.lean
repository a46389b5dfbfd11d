import Mathlib.Algebra.Ring.Nat
import Rinha.Dena.Model.StringBuffer
/-!
# The buffer is a queue of bytes

What is between `begin()` and `end()` changes under each operation as a
queue does, whatever the offsets have come to and whatever is in the rest
of the allocation; and nothing outside the allocation is written. Where the
lengths of a sequence come to at most `2 ^ 62`, no size of it leaves
`size_t` and no doubling ends the process (`run_refines`).
-/

namespace Rinha
namespace Dena
namespace StringBuffer

variable {b : StringBuffer} {bytes bytes' : Bytes} {len need asz rounds : ℕ}

/-! ## Growth -/

/-- **`size_t` does not wrap** on the way, for buffers up to `2 ^ 63`. -/
theorem grow_lt (hneed : need ≤ 2 ^ 63) (hasz : asz < 2 ^ 64) : grow need asz < 2 ^ 64 := by
  have key : ∀ rounds asz, asz < 2 ^ 64 → growLoop rounds need asz < 2 ^ 64 := by
    intro rounds
    induction rounds with
    | zero => exact fun asz h => h
    | succ rounds ih =>
        intro asz h
        rw [growLoop]
        split
        · refine ih _ ?_
          split <;> omega
        · exact h
  exact key _ _ hasz

/-! ## The contents, operation by operation -/

@[simp] theorem length_contents : b.contents.length = b.size := Memory.length_slice

theorem end_eq : b.endOffset = b.beginOffset + b.size := by
  have := b.begin_le
  unfold size
  omega

@[simp] theorem contents_init (buffer : ℕ → UInt8) : (init buffer).contents = [] := rfl

@[simp] theorem contents_clear : b.clear.contents = [] := rfl

@[simp] theorem contents_reserve : (b.reserve len).contents = b.contents := rfl

@[simp] theorem contents_makeSpace : (b.makeSpace len).contents = b.contents := rfl

/-- Where the contents are followed by what was written there. -/
theorem contents_of_put {b' : StringBuffer} (hbegin : b'.beginOffset = b.beginOffset)
    (hend : b'.endOffset = b.endOffset + bytes.length)
    (hbuffer : b'.buffer = Memory.put b.buffer b.endOffset bytes) :
    b'.contents = b.contents ++ bytes := by
  have hsize : b'.size = b.size + bytes.length := by
    have := b.begin_le
    unfold size
    omega
  rw [contents, hsize, hbegin, hbuffer, end_eq, Memory.slice_append_put, contents]

@[simp] theorem contents_append : (b.append bytes).contents = b.contents ++ bytes :=
  contents_of_put rfl rfl rfl

@[simp] theorem contents_append2 :
    (b.append2 bytes bytes').contents = b.contents ++ (bytes ++ bytes') :=
  contents_of_put rfl (by simp [append2]) Memory.put_append.symm

/-- What fits the space made for it is taken over. -/
theorem contents_spaceWrote {space : StringBuffer} (hbegin : space.beginOffset = b.beginOffset)
    (hend : space.endOffset = b.endOffset)
    (hroom : b.endOffset + bytes.length ≤ space.allocSize)
    (hbuffer : space.buffer = Memory.put b.buffer b.endOffset bytes) :
    (space.spaceWrote bytes.length).contents = b.contents ++ bytes := by
  refine contents_of_put hbegin ?_ hbuffer
  change space.endOffset + min bytes.length (space.allocSize - space.endOffset) = _
  omega

theorem makeSpace_room : b.endOffset + len ≤ (b.makeSpace len).allocSize := by
  have hroom := b.reserve_room (b.size + len)
  rw [end_eq, Nat.add_assoc]
  exact hroom

theorem contents_fill (h : bytes.length ≤ len) :
    (((b.makeSpace len).fill bytes).spaceWrote bytes.length).contents = b.contents ++ bytes :=
  contents_spaceWrote rfl rfl
    (Nat.le_trans (Nat.add_le_add_left h _) (makeSpace_room (b := b))) rfl

@[simp] theorem contents_eraseFront : (b.eraseFront len).contents = b.contents.drop len := by
  unfold eraseFront
  split
  · rename_i h
    rw [contents_clear, List.drop_eq_nil_of_le (by simpa using h)]
  · rename_i h
    have hle : len ≤ b.size := by omega
    rw [contents, contents, Memory.drop_slice hle]
    congr 1
    simp only [size]
    omega

/-- `resize` cuts off what is beyond, or fills up with zeros. -/
theorem contents_resize :
    (b.resize len).contents = b.contents.take len ++ List.replicate (len - b.size) 0 := by
  unfold resize
  split
  · rename_i h
    rw [List.take_of_length_le (by rw [length_contents]; omega)]
    refine contents_of_put rfl ?_ rfl
    have hend := @end_eq b
    change b.beginOffset + len = b.endOffset + _
    rw [List.length_replicate]
    omega
  · rename_i h
    rw [Nat.sub_eq_zero_of_le (by omega), List.replicate_zero, List.append_nil, contents, contents,
      Memory.take_slice (by omega), size]
    congr 1
    exact Nat.add_sub_cancel_left _ _

/-! ## A run of operations -/

/-- What the client does with a buffer. `wrote room bytes` makes room, writes
no more than it and says how much. -/
inductive Op
  | clear
  | resize (len : ℕ)
  | reserve (len : ℕ)
  | eraseFront (len : ℕ)
  | append (bytes : Bytes)
  | append2 (bytes bytes' : Bytes)
  | wrote (room : ℕ) (bytes : Bytes)
  deriving DecidableEq

/-- No more is written into space than was made. -/
def Op.Fits : Op → Prop
  | .wrote room bytes => bytes.length ≤ room
  | _ => True

instance : (op : Op) → Decidable op.Fits
  | .wrote room bytes => inferInstanceAs (Decidable (bytes.length ≤ room))
  | .clear | .resize _ | .reserve _ | .eraseFront _ | .append _ | .append2 _ _ =>
      inferInstanceAs (Decidable True)

def Op.run (b : StringBuffer) : Op → StringBuffer
  | .clear => b.clear
  | .resize len => b.resize len
  | .reserve len => b.reserve len
  | .eraseFront len => b.eraseFront len
  | .append bytes => b.append bytes
  | .append2 bytes bytes' => b.append2 bytes bytes'
  | .wrote room bytes => ((b.makeSpace room).fill bytes).spaceWrote bytes.length

/-- The same on a queue. -/
def Op.onQueue (queue : Bytes) : Op → Bytes
  | .clear => []
  | .resize len => queue.take len ++ List.replicate (len - queue.length) 0
  | .reserve _ => queue
  | .eraseFront len => queue.drop len
  | .append bytes => queue ++ bytes
  | .append2 bytes bytes' => queue ++ (bytes ++ bytes')
  | .wrote _ bytes => queue ++ bytes

variable {op : Op} {ops : List Op}

/-- One operation. -/
theorem contents_run (h : op.Fits) : (op.run b).contents = op.onQueue b.contents := by
  cases op with
  | clear => exact contents_clear
  | resize len => exact contents_resize.trans (by rw [Op.onQueue, length_contents])
  | reserve len => exact contents_reserve
  | eraseFront len => exact contents_eraseFront
  | append bytes => exact contents_append
  | append2 bytes bytes' => exact contents_append2
  | wrote room bytes => exact contents_fill h

/-! ## The sizes of a run -/

/-- How many bytes an operation may put behind the contents. -/
def Op.length : Op → ℕ
  | .clear | .eraseFront _ => 0
  | .resize len | .reserve len => len
  | .append bytes => bytes.length
  | .append2 bytes bytes' => bytes.length + bytes'.length
  | .wrote room _ => room

/-- What `reserve` compares the allocation with. -/
def Op.asked (b : StringBuffer) : Op → ℕ
  | .clear | .eraseFront _ => 0
  | .resize len | .reserve len => b.beginOffset + len
  | .append bytes => b.beginOffset + (b.size + bytes.length)
  | .append2 bytes bytes' => b.beginOffset + (b.endOffset + bytes.length + bytes'.length)
  | .wrote room _ => b.beginOffset + (b.size + room)

/-- `append_2` counts what was read off twice, the others once. -/
theorem asked_le : op.asked b ≤ 2 * b.endOffset + op.length := by
  have := b.begin_le
  have := @end_eq b
  cases op <;> simp only [Op.asked, Op.length] <;> omega

theorem endOffset_run (h : op.Fits) : (op.run b).endOffset ≤ b.endOffset + op.length := by
  have hbegin := b.begin_le
  cases op with
  | clear => exact Nat.zero_le _
  | reserve len => exact Nat.le_add_right _ _
  | resize len =>
      have hresize : (b.resize len).endOffset = b.beginOffset + len := by
        unfold resize
        split <;> rfl
      exact hresize ▸ Nat.add_le_add_right hbegin len
  | eraseFront len =>
      simp only [Op.run, eraseFront]
      split
      · exact Nat.zero_le _
      · exact Nat.le_refl _
  | append bytes => exact Nat.le_refl _
  | append2 bytes bytes' => exact Nat.le_refl _
  | wrote room bytes =>
      exact Nat.add_le_add_left (Nat.le_trans (Nat.min_le_left _ _) h) _

theorem allocSize_run (hasked : op.asked b ≤ 2 ^ 63) (h : b.allocSize < 2 ^ 64) :
    (op.run b).allocSize < 2 ^ 64 := by
  cases op with
  | clear => exact h
  | eraseFront len =>
      simp only [Op.run, eraseFront]
      split <;> exact h
  | resize len =>
      simp only [Op.run, resize]
      split
      · exact grow_lt hasked h
      · exact h
  | reserve _ | append _ | append2 _ _ | wrote _ _ => exact grow_lt hasked h

/-- **The sizes of a whole run**, from any buffer: the contents end no further
than what was put there, and the allocation fits `size_t`. -/
theorem sizes_run (hfits : ∀ op ∈ ops, op.Fits) (halloc : b.allocSize < 2 ^ 64)
    (hlen : b.endOffset + (ops.map Op.length).sum ≤ 2 ^ 62) :
    (ops.foldl Op.run b).endOffset ≤ b.endOffset + (ops.map Op.length).sum ∧
      (ops.foldl Op.run b).allocSize < 2 ^ 64 := by
  induction ops generalizing b with
  | nil => exact ⟨Nat.le_refl _, halloc⟩
  | cons op ops ih =>
      rw [List.map_cons, List.sum_cons] at hlen ⊢
      have hend := endOffset_run (b := b) (hfits op List.mem_cons_self)
      have hasked : op.asked b ≤ 2 * b.endOffset + op.length := asked_le
      have halloc' : (op.run b).allocSize < 2 ^ 64 := allocSize_run (by omega) halloc
      obtain ⟨hends, hallocs⟩ := ih (fun x hx => hfits x (List.mem_cons_of_mem _ hx)) halloc'
        (by omega)
      exact ⟨Nat.le_trans hends (by omega), hallocs⟩

/-! ## What is written where -/

/-- Outside the range an operation's writes lie in, memory stays. -/
theorem buffer_of_put {start stop i : ℕ} (hlen : start + bytes.length ≤ stop)
    (hi : i < start ∨ stop ≤ i) : Memory.put b.buffer start bytes i = b.buffer i := by
  rcases hi with hi | hi
  · exact Memory.put_of_lt hi
  · exact Memory.put_of_ge (by omega)

/-- **An operation writes between `end()` and the end of the allocation**,
and nowhere else. -/
theorem buffer_run (h : op.Fits) {i : ℕ} (hi : i < b.endOffset ∨ (op.run b).allocSize ≤ i) :
    (op.run b).buffer i = b.buffer i := by
  cases op with
  | clear => rfl
  | reserve len => rfl
  | resize len =>
      by_cases hlen : b.size < len
      · have hroom := b.reserve_room len
        simp only [Op.run, resize, dif_pos hlen] at hi ⊢
        have hfits : b.endOffset + (List.replicate (len - b.size) (0 : UInt8)).length ≤
            (b.reserve len).allocSize := by
          rw [List.length_replicate, end_eq]
          omega
        exact buffer_of_put hfits hi
      · simp only [Op.run, resize, dif_neg hlen]
  | eraseFront len =>
      by_cases hlen : len ≥ b.size
      · simp only [Op.run, eraseFront, dif_pos hlen, clear]
      · simp only [Op.run, eraseFront, dif_neg hlen]
  | append bytes => exact buffer_of_put (b.append bytes).end_le hi
  | append2 bytes bytes' =>
      change Memory.put (Memory.put b.buffer b.endOffset bytes) (b.endOffset + bytes.length)
        bytes' i = b.buffer i
      rw [← Memory.put_append]
      refine buffer_of_put ?_ hi
      rw [List.length_append]
      exact (b.append2 bytes bytes').end_le
  | wrote room bytes =>
      exact buffer_of_put
        (Nat.le_trans (Nat.add_le_add_left h _) (makeSpace_room (b := b))) hi

/-- **The buffer refines a queue.** After every sequence of operations on a
buffer its contents are what the same operations make of a queue, and no
operation of the sequence wrote in front of its buffer's `end()` or behind
its allocation. Where all lengths together are at most `2 ^ 62`, what
`reserve` compares with never wraps and the doubling it does never
overflows. -/
theorem run_refines (memory : ℕ → UInt8) (ops : List Op) (h : ∀ op ∈ ops, op.Fits) :
    (ops.foldl Op.run (init memory)).contents = ops.foldl Op.onQueue [] ∧
      (∀ before op after, ops = before ++ op :: after →
        ∀ i, (i < (before.foldl Op.run (init memory)).endOffset ∨
            ((before ++ [op]).foldl Op.run (init memory)).allocSize ≤ i) →
          ((before ++ [op]).foldl Op.run (init memory)).buffer i =
            (before.foldl Op.run (init memory)).buffer i) ∧
      ((ops.map Op.length).sum ≤ 2 ^ 62 → ∀ before op after, ops = before ++ op :: after →
        op.asked (before.foldl Op.run (init memory)) ≤ 2 ^ 63 ∧
          ((before ++ [op]).foldl Op.run (init memory)).allocSize < 2 ^ 64) := by
  refine ⟨?_, ?_, ?_⟩
  · have key : ∀ b : StringBuffer, ∀ queue, b.contents = queue →
        (ops.foldl Op.run b).contents = ops.foldl Op.onQueue queue := by
      induction ops with
      | nil => exact fun b queue hb => hb
      | cons op ops ih =>
          intro b queue hb
          refine ih (fun x hx => h x (List.mem_cons_of_mem _ hx)) _ _ ?_
          rw [contents_run (h op List.mem_cons_self), hb]
    exact key _ _ rfl
  · rintro before op after rfl i hi
    rw [List.foldl_append] at hi ⊢
    exact buffer_run (h op (by simp)) hi
  · rintro hlen before op after rfl
    rw [List.map_append, List.map_cons, List.sum_append, List.sum_cons] at hlen
    have hfits : ∀ x ∈ before, x.Fits := fun x hx => h x (List.mem_append_left _ hx)
    have hinit : (init memory).endOffset = 0 := rfl
    obtain ⟨hend, halloc⟩ := sizes_run (b := init memory) hfits (Nat.two_pow_pos 64) (by omega)
    have hasked : op.asked (before.foldl Op.run (init memory)) ≤ 2 ^ 63 :=
      Nat.le_trans asked_le (by omega)
    rw [List.foldl_append]
    exact ⟨hasked, allocSize_run hasked halloc⟩

/-- A line put together, read off and followed by another. -/
def lineOps : List Op :=
  [.append [80, 9], .wrote 64 [49], .append2 [10] [], .eraseFront 3, .append [65]]

/-- What is left of them, in an allocation that fits. -/
theorem run_refines_line :
    (lineOps.foldl Op.run (init fun _ => 0)).contents = [10, 65] ∧
      (lineOps.foldl Op.run (init fun _ => 0)).allocSize < 2 ^ 64 := by
  obtain ⟨hcontents, -, hsizes⟩ := run_refines (fun _ => 0) lineOps (by decide)
  have hlen : (lineOps.map Op.length).sum ≤ 2 ^ 62 := by decide
  exact ⟨hcontents, (hsizes hlen (lineOps.take 4) (.append [65]) [] rfl).2⟩

end StringBuffer
end Dena
end Rinha
