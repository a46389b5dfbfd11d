import Mathlib.Algebra.Group.Int.Defs
import Mathlib.Algebra.Group.Nat.Defs
import Mathlib.Data.List.Chain
import Mathlib.Data.List.Range
import Rinha.Common.Run
/-!
# A signed counter over a ring

A counter of `w` bits is only ever counted up, and its remainder by `k` is
a slot of a ring. The remainder takes the sign of the counter. So the slots
go round in order up to the wrap at `2 ^ (w - 1)`, where the next remainder
is negative unless `k` divides that number (`Wraps.cyclic_idxs_iff`).

`Counts` is a machine that keeps such a counter and notes its remainders;
what it notes along a run are the remainders of a range (`Counts.trace_eq`).
-/

namespace RingCounter

variable {w k m n n' i : ℕ}

/-- The remainder, with the sign of the counter. -/
def idx (k : ℕ) (counter : BitVec w) : ℤ := counter.toInt.tmod k

/-- The remainders of the counts `m`, …, `m + n - 1`, in `w` bits. -/
def idxs (w k m n : ℕ) : List ℤ := (List.range' m n).map fun i => idx k (BitVec.ofNat w i)

/-- All in the ring, and each the slot behind the one before. -/
structure Cyclic (k : ℕ) (slots : List ℤ) : Prop where
  inside : ∀ i ∈ slots, 0 ≤ i ∧ i < k
  consecutive : slots.IsChain fun i j : ℤ => j = (i + 1) % k

/-- A ring whose slots the wrap does not come out even with. -/
structure Wraps (w k : ℕ) : Prop where
  width_pos : 0 < w
  slots_pos : 0 < k
  not_dvd : ¬k ∣ 2 ^ (w - 1)

/-! ## Up to the wrap -/

theorem toInt_ofNat_of_lt (hw : 0 < w) (h : n < 2 ^ (w - 1)) :
    (BitVec.ofNat w n).toInt = n := by
  have hpow : 2 ^ w = 2 * 2 ^ (w - 1) := by
    rw [← Nat.pow_succ', Nat.succ_eq_add_one, Nat.sub_add_cancel hw]
  rw [BitVec.toInt_ofNat', hpow]
  exact Int.bmod_eq_of_le (by omega) (by omega)

theorem idx_ofNat (hw : 0 < w) (h : n < 2 ^ (w - 1)) :
    idx k (BitVec.ofNat w n) = ((n % k : ℕ) : ℤ) := by
  rw [idx, toInt_ofNat_of_lt hw h]
  rfl

/-- The one behind the greatest value is the least. -/
theorem toInt_ofNat_wrapped (hw : 0 < w) :
    (BitVec.ofNat w (2 ^ (w - 1))).toInt = -((2 ^ (w - 1) : ℕ) : ℤ) := by
  have hmin : BitVec.ofNat w (2 ^ (w - 1)) = BitVec.intMin w :=
    BitVec.eq_of_toNat_eq (by rw [BitVec.toNat_ofNat, BitVec.toNat_intMin])
  rw [hmin, BitVec.toInt_intMin_of_pos hw, Int.natCast_pow]
  rfl

/-- At the wrap the remainder is negative. -/
theorem Wraps.idx_lt (h : Wraps w k) : idx k (BitVec.ofNat w (2 ^ (w - 1))) < 0 := by
  rw [idx, toInt_ofNat_wrapped h.width_pos, Int.neg_tmod, ← Int.ofNat_tmod]
  have hpos := Nat.pos_of_ne_zero fun hzero => h.not_dvd (Nat.dvd_of_mod_eq_zero hzero)
  omega

/-- The counter is negative at the wrap, and not before. -/
theorem nonneg_iff (hw : 0 < w) (h : n ≤ 2 ^ (w - 1)) :
    0 ≤ (BitVec.ofNat w n).toInt ↔ n < 2 ^ (w - 1) := by
  rcases Nat.lt_or_eq_of_le h with hlt | rfl
  · rw [toInt_ofNat_of_lt hw hlt]
    exact iff_of_true (Int.natCast_nonneg n) hlt
  · have hpos : 0 < 2 ^ (w - 1) := Nat.two_pow_pos _
    rw [toInt_ofNat_wrapped hw]
    omega

/-! ## The remainders of a range -/

theorem length_idxs : (idxs w k m n).length = n := by
  rw [idxs, List.length_map, List.length_range']

theorem idxs_succ : idxs w k m (n + 1) = idx k (BitVec.ofNat w m) :: idxs w k (m + 1) n := rfl

theorem idxs_append : idxs w k m n ++ idxs w k (m + n) n' = idxs w k m (n + n') := by
  rw [idxs, idxs, idxs, ← List.map_append, List.range'_append_1]

theorem eq_idx_of_getElem? {x : ℤ} (h : (idxs w k m n)[i]? = some x) :
    x = idx k (BitVec.ofNat w (m + i)) := by
  rw [idxs, List.getElem?_map] at h
  obtain ⟨j, hj, rfl⟩ := Option.map_eq_some_iff.mp h
  obtain ⟨hi, rfl⟩ := List.getElem?_eq_some_iff.mp hj
  rw [List.getElem_range', Nat.one_mul]

/-- With no negative one among them the counter has not wrapped. -/
theorem Wraps.le_of_nonneg (h : Wraps w k) (hm : m ≤ 2 ^ (w - 1))
    (hnonneg : ∀ i ∈ idxs w k m n, 0 ≤ i) : m + n ≤ 2 ^ (w - 1) := by
  by_contra hlt
  have hmem : 2 ^ (w - 1) ∈ List.range' m n := List.mem_range'_1.mpr ⟨hm, by omega⟩
  exact absurd (hnonneg _ (List.mem_map_of_mem hmem)) (Int.not_le.mpr h.idx_lt)

theorem Wraps.cyclic_of_le (h : Wraps w k) (hle : m + n ≤ 2 ^ (w - 1)) :
    Cyclic k (idxs w k m n) := by
  have heq : idxs w k m n = (List.range' m n).map fun i => ((i % k : ℕ) : ℤ) := by
    refine List.map_congr_left fun i hi => idx_ofNat h.width_pos ?_
    have := List.mem_range'_1.mp hi
    omega
  rw [heq]
  constructor
  · intro i hi
    obtain ⟨j, -, rfl⟩ := List.mem_map.mp hi
    exact ⟨Int.natCast_nonneg _, Int.ofNat_lt.mpr (Nat.mod_lt _ h.slots_pos)⟩
  · rw [List.isChain_map]
    refine (List.isChain_range' m n 1).imp fun i j hj => ?_
    rw [hj, Int.natCast_emod, Int.natCast_emod, Int.emod_add_emod]
    rfl

/-- **The slots go round in order** just as long as the counter does not
wrap. -/
theorem Wraps.cyclic_idxs_iff (h : Wraps w k) (hm : m ≤ 2 ^ (w - 1)) :
    Cyclic k (idxs w k m n) ↔ m + n ≤ 2 ^ (w - 1) :=
  ⟨fun hcyclic => h.le_of_nonneg hm fun i hi => (hcyclic.inside i hi).1, h.cyclic_of_le⟩

/-! ## A machine that counts -/

section Machine

variable {σ α : Type*} {f : σ → α → Option σ} {counter : σ → BitVec w} {note : σ → α → List ℤ}
variable {s t : σ} {as : List α} {a : α}

/-- A step notes nothing, or the remainder of the counter, which it then
counts up; none goes on from a negative one. -/
structure Counts (k : ℕ) (f : σ → α → Option σ) (counter : σ → BitVec w)
    (note : σ → α → List ℤ) : Prop where
  note_eq : ∀ t a, note t a = [] ∨ note t a = [idx k (counter t)]
  counter_eq : ∀ {t a u}, f t a = some u →
    counter u = counter t + BitVec.ofNat w (note t a).length
  nonneg : ∀ {t a u}, f t a = some u → ∀ i ∈ note t a, 0 ≤ i

/-- What a step notes, by the count before it. -/
theorem Counts.note_idxs (h : Counts k f counter note) (hcounter : counter t = BitVec.ofNat w m)
    (a : α) : note t a = idxs w k m (note t a).length := by
  rcases h.note_eq t a with hnone | hone
  · rw [hnone]
    rfl
  · rw [hone, hcounter]
    rfl

theorem Counts.idxs_append_note (h : Counts k f counter note)
    (hcounter : counter t = BitVec.ofNat w (m + n)) (a : α) :
    idxs w k m n ++ note t a = idxs w k m (n + (note t a).length) := by
  rw [← idxs_append, ← h.note_idxs hcounter a]

/-- One step more keeps the slots in order unless it notes a remainder of
a negative counter. -/
theorem Counts.cyclic_note_iff (h : Counts k f counter note) (hwraps : Wraps w k)
    (hcounter : counter t = BitVec.ofNat w n) (hn : n ≤ 2 ^ (w - 1)) (a : α) :
    Cyclic k (idxs w k 0 (n + (note t a).length)) ↔ note t a = [] ∨ 0 ≤ (counter t).toInt := by
  rw [hwraps.cyclic_idxs_iff (Nat.zero_le _), hcounter, nonneg_iff hwraps.width_pos hn,
    Nat.zero_add]
  rcases h.note_eq t a with hnone | hone
  · rw [hnone]
    exact iff_of_true hn (.inl rfl)
  · rw [hone]
    exact (or_iff_right (List.cons_ne_nil _ _)).symm

/-- **Every run** notes the remainders of a range, and has not wrapped. -/
theorem Counts.trace_eq (h : Counts k f counter note) (hwraps : Wraps w k)
    (hrun : Lts.Run (Lts.ofFun f) s as t) (hcounter : counter s = BitVec.ofNat w m)
    (hm : m ≤ 2 ^ (w - 1)) :
    ∃ n, m + n ≤ 2 ^ (w - 1) ∧ Lts.trace f note s as = idxs w k m n ∧
      counter t = BitVec.ofNat w (m + n) := by
  refine hrun.invariant_trace (I := fun notes t => ∃ n, m + n ≤ 2 ^ (w - 1) ∧
    notes = idxs w k m n ∧ counter t = BitVec.ofNat w (m + n)) ⟨0, hm, rfl, hcounter⟩ ?_
  rintro notes t a u ⟨n, hle, rfl, ht⟩ hstep
  refine ⟨n + (note t a).length, ?_, h.idxs_append_note ht a, ?_⟩
  · -- the step went on, so the count it noted was not the one at the wrap
    rw [← Nat.add_assoc]
    refine hwraps.le_of_nonneg hle ?_
    rw [← h.note_idxs ht a]
    exact h.nonneg hstep
  · rw [h.counter_eq hstep, ht, ← BitVec.ofNat_add, Nat.add_assoc]

end Machine

end RingCounter
