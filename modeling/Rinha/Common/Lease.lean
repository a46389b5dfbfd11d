import Mathlib.Data.List.Nodup
import Mathlib.Logic.Function.Basic
/-!
# Leasing from a pool

Resources of type `R` wait in queues, one queue for each home `ι`. A client
takes the head of a queue and later gives back what it holds, which joins
the queue of its home at the end. `Sound` says every resource is in its
queue once or held by one client, and never both; taking and giving back
keep it, so what is handed out is held by nobody, and a queue runs dry
just when clients hold everything that belongs to it.
-/

namespace Lease

variable {ι C R : Type*} [DecidableEq ι] [DecidableEq C]

/-- The queues, and what each client holds. -/
structure Pool (ι C R : Type*) where
  free : ι → List R
  held : C → Option R

/-- A client takes the head of a queue. -/
def Pool.take (p : Pool ι C R) (i : ι) (c : C) : Option (Pool ι C R) :=
  match p.free i with
  | [] => none
  | r :: rest => some ⟨Function.update p.free i rest, Function.update p.held c (some r)⟩

/-- A client gives back what it holds. -/
def Pool.give (home : R → ι) (p : Pool ι C R) (c : C) : Option (Pool ι C R) :=
  (p.held c).map fun r =>
    ⟨Function.update p.free (home r) (p.free (home r) ++ [r]), Function.update p.held c none⟩

/-- Every resource is in its queue, once, or held by one client. -/
structure Sound (home : R → ι) (owned : R → Prop) (p : Pool ι C R) : Prop where
  nodup : ∀ i, (p.free i).Nodup
  owned_of_free : ∀ {i r}, r ∈ p.free i → owned r ∧ home r = i
  owned_of_held : ∀ {c r}, p.held c = some r → owned r
  free_iff : ∀ {r}, owned r → (r ∈ p.free (home r) ↔ ∀ c, p.held c ≠ some r)
  held_inj : ∀ {c d r}, p.held c = some r → p.held d = some r → c = d

variable {home : R → ι} {owned : R → Prop} {p q : Pool ι C R} {i : ι} {c : C} {r : R}

omit [DecidableEq ι] [DecidableEq C] in
/-- A pool is sound when nobody holds anything and each queue has, once,
everything of its home. -/
theorem sound_of_unheld (hnodup : ∀ i, (p.free i).Nodup)
    (hfree : ∀ i r, r ∈ p.free i ↔ owned r ∧ home r = i) (hheld : ∀ c, p.held c = none) :
    Sound home owned p := by
  have hnone : ∀ c r, p.held c ≠ some r := by
    intro c r hc
    rw [hheld] at hc
    cases hc
  exact {
    nodup := hnodup
    owned_of_free := fun hr => (hfree _ _).mp hr
    owned_of_held := fun hc => absurd hc (hnone _ _)
    free_iff := fun hown => ⟨fun _ c => hnone c _, fun _ => (hfree _ _).mpr ⟨hown, rfl⟩⟩
    held_inj := fun hc => absurd hc (hnone _ _) }

/-! ## What a sound pool hands out -/

omit [DecidableEq ι] [DecidableEq C] in
/-- **Nobody holds what waits in a queue.** -/
theorem Sound.unheld (h : Sound home owned p) (hr : r ∈ p.free i) (d : C) : p.held d ≠ some r := by
  obtain ⟨hown, rfl⟩ := h.owned_of_free hr
  exact (h.free_iff hown).mp hr d

omit [DecidableEq ι] [DecidableEq C] in
/-- **A queue is empty just when everything of its home is held.** -/
theorem Sound.free_eq_nil_iff (h : Sound home owned p) :
    p.free i = [] ↔ ∀ r, owned r → home r = i → ∃ c, p.held c = some r := by
  constructor
  · rintro hnil r hown rfl
    by_contra hnone
    have hfree := (h.free_iff hown).mpr fun c hc => hnone ⟨c, hc⟩
    rw [hnil] at hfree
    exact List.not_mem_nil hfree
  · intro hall
    refine List.eq_nil_iff_forall_not_mem.mpr fun r hr => ?_
    obtain ⟨hown, hi⟩ := h.owned_of_free hr
    obtain ⟨c, hc⟩ := hall r hown hi
    exact h.unheld hr c hc

/-! ## The operations keep it -/

theorem take_of_free {rest : List R} (h : p.free i = r :: rest) :
    p.take i c = some ⟨Function.update p.free i rest, Function.update p.held c (some r)⟩ := by
  simp only [Pool.take, h]

theorem give_of_held (h : p.held c = some r) :
    p.give home c = some
      ⟨Function.update p.free (home r) (p.free (home r) ++ [r]),
        Function.update p.held c none⟩ := by
  simp only [Pool.give, h, Option.map_some]

/-- What a take does. -/
theorem take_eq_some (h : p.take i c = some q) :
    ∃ r rest, p.free i = r :: rest ∧ q.free = Function.update p.free i rest ∧
      q.held = Function.update p.held c (some r) := by
  unfold Pool.take at h
  split at h
  · cases h
  · rename_i r rest hfree
    obtain rfl := Option.some.inj h
    exact ⟨r, rest, hfree, rfl, rfl⟩

/-- What giving back does. -/
theorem give_eq_some (h : p.give home c = some q) :
    ∃ r, p.held c = some r ∧
      q.free = Function.update p.free (home r) (p.free (home r) ++ [r]) ∧
      q.held = Function.update p.held c none := by
  obtain ⟨r, hr, rfl⟩ := Option.map_eq_some_iff.mp h
  exact ⟨r, hr, rfl, rfl⟩

omit [DecidableEq ι] in
/-- Who holds what, once one client has taken `r`. -/
theorem held_update_some (hq : q.held = Function.update p.held c (some r)) {d : C} {x : R} :
    q.held d = some x ↔ (d = c ∧ x = r) ∨ (d ≠ c ∧ p.held d = some x) := by
  rw [hq]
  rcases eq_or_ne d c with rfl | hdc
  · simp [eq_comm]
  · simp [hdc]

omit [DecidableEq ι] in
/-- Who holds what, once one client has given back. -/
theorem held_update_none (hq : q.held = Function.update p.held c none) {d : C} {x : R} :
    q.held d = some x ↔ d ≠ c ∧ p.held d = some x := by
  rw [hq]
  rcases eq_or_ne d c with rfl | hdc
  · simp
  · simp [hdc]

/-- **Taking keeps a pool sound**, for a client that holds nothing. -/
theorem Sound.take (h : Sound home owned p) (hc : p.held c = none) (ht : p.take i c = some q) :
    Sound home owned q := by
  obtain ⟨r, rest, hfree, hqf, hqh⟩ := take_eq_some ht
  have hr : r ∈ p.free i := by rw [hfree]; exact List.mem_cons_self
  obtain ⟨hown, hhome⟩ := h.owned_of_free hr
  have hnodup := h.nodup i
  rw [hfree, List.nodup_cons] at hnodup
  -- what waits afterwards is what waited before, less the head that was taken
  have hfree' : ∀ j x, x ∈ q.free j ↔ x ∈ p.free j ∧ x ≠ r := by
    intro j x
    rw [hqf]
    rcases eq_or_ne j i with rfl | hj
    · rw [Function.update_self, hfree, List.mem_cons]
      constructor
      · exact fun hx => ⟨.inr hx, fun hxr => hnodup.1 (hxr ▸ hx)⟩
      · exact fun hx => hx.1.resolve_left hx.2
    · rw [Function.update_of_ne hj]
      exact ⟨fun hx => ⟨hx, fun hxr => hj (hhome ▸ hxr ▸ (h.owned_of_free hx).2.symm)⟩, And.left⟩
  constructor
  · intro j
    rw [hqf]
    rcases eq_or_ne j i with rfl | hj
    · rw [Function.update_self]
      exact hnodup.2
    · rw [Function.update_of_ne hj]
      exact h.nodup j
  · exact fun hx => h.owned_of_free ((hfree' _ _).mp hx).1
  · intro d x hd
    rcases (held_update_some hqh).mp hd with ⟨-, rfl⟩ | ⟨-, hd⟩
    · exact hown
    · exact h.owned_of_held hd
  · -- one resource leaves the free ones just as one client comes to hold it
    intro x hx
    rw [hfree', h.free_iff hx]
    constructor
    · rintro ⟨hnone, hne⟩ d hd
      rcases (held_update_some hqh).mp hd with ⟨-, rfl⟩ | ⟨-, hd⟩
      · exact hne rfl
      · exact hnone d hd
    · intro hnone
      refine ⟨fun d hd => ?_, fun hxr => hnone c ((held_update_some hqh).mpr (.inl ⟨rfl, hxr⟩))⟩
      rcases eq_or_ne d c with rfl | hdc
      · rw [hc] at hd
        cases hd
      · exact hnone d ((held_update_some hqh).mpr (.inr ⟨hdc, hd⟩))
  · -- two holders of one resource: the one that just took it is not among the old ones
    intro d e x hd he
    rcases (held_update_some hqh).mp hd with ⟨rfl, rfl⟩ | ⟨-, hd⟩
    · rcases (held_update_some hqh).mp he with ⟨rfl, -⟩ | ⟨-, he⟩
      · rfl
      · exact absurd he (h.unheld hr e)
    · rcases (held_update_some hqh).mp he with ⟨-, rfl⟩ | ⟨-, he⟩
      · exact absurd hd (h.unheld hr d)
      · exact h.held_inj hd he

/-- **Giving back keeps a pool sound.** -/
theorem Sound.give (h : Sound home owned p) (hg : p.give home c = some q) : Sound home owned q := by
  obtain ⟨r, hr, hqf, hqh⟩ := give_eq_some hg
  have hown := h.owned_of_held hr
  have hnotin : ∀ j, r ∉ p.free j := fun j hj => h.unheld hj c hr
  -- what waits afterwards is what waited before, and what was given back
  have hfree' : ∀ j x, x ∈ q.free j ↔ x ∈ p.free j ∨ (j = home r ∧ x = r) := by
    intro j x
    rw [hqf]
    rcases eq_or_ne j (home r) with rfl | hj
    · simp
    · simp [hj]
  constructor
  · intro j
    rw [hqf]
    rcases eq_or_ne j (home r) with rfl | hj
    · rw [Function.update_self, ← List.concat_eq_append]
      exact (h.nodup _).concat (hnotin _)
    · rw [Function.update_of_ne hj]
      exact h.nodup j
  · intro j x hx
    rcases (hfree' j x).mp hx with hx | ⟨rfl, rfl⟩
    · exact h.owned_of_free hx
    · exact ⟨hown, rfl⟩
  · exact fun hd => h.owned_of_held ((held_update_none hqh).mp hd).2
  · intro x hx
    rw [hfree', h.free_iff hx]
    constructor
    · rintro (hnone | ⟨-, rfl⟩) d hd
      · exact hnone d ((held_update_none hqh).mp hd).2
      · obtain ⟨hdc, hd⟩ := (held_update_none hqh).mp hd
        exact hdc (h.held_inj hd hr)
    · intro hnone
      by_cases hxr : x = r
      · exact .inr ⟨by rw [hxr], hxr⟩
      · refine .inl fun d hd => ?_
        rcases eq_or_ne d c with rfl | hdc
        · exact hxr (Option.some.inj (hd.symm.trans hr))
        · exact hnone d ((held_update_none hqh).mpr ⟨hdc, hd⟩)
  · exact fun hd he => h.held_inj ((held_update_none hqh).mp hd).2 ((held_update_none hqh).mp he).2

/-- A client that holds nothing takes, or one gives back. -/
inductive Moved (home : R → ι) (p : Pool ι C R) : Pool ι C R → Prop
  | take {i : ι} {c : C} {q : Pool ι C R} : p.held c = none → p.take i c = some q → Moved home p q
  | give {c : C} {q : Pool ι C R} : p.give home c = some q → Moved home p q

/-- **Every step of a pool keeps it sound.** -/
theorem Sound.moved (h : Sound home owned p) (hmoved : Moved home p q) : Sound home owned q := by
  cases hmoved with
  | take hc ht => exact h.take hc ht
  | give hg => exact h.give hg

/-! ## Two tables of one relation -/

section Inverse

variable {α β : Type*} [DecidableEq α] [DecidableEq β] {f : α → Option β} {g : β → Option α}
variable {a : α} {b : β}

/-- Each table reads the other backwards. -/
def Inverse (f : α → Option β) (g : β → Option α) : Prop := ∀ a b, g b = some a ↔ f a = some b

/-- Two that are free on both sides become a pair. -/
theorem Inverse.pair (h : Inverse f g) (ha : f a = none) (hb : g b = none) :
    Inverse (Function.update f a (some b)) (Function.update g b (some a)) := by
  intro x y
  by_cases hx : x = a
  · by_cases hy : y = b
    · simp [hx, hy]
    · have hnot : g y ≠ some a := fun hy => by
        rw [(h a y).mp hy] at ha
        cases ha
      simp [hx, hy, hnot, Ne.symm hy]
  · by_cases hy : y = b
    · have hnot : f x ≠ some b := fun hx => by
        rw [(h x b).mpr hx] at hb
        cases hb
      simp [hx, hy, hnot, Ne.symm hx]
    · simpa [hx, hy] using h x y

/-- A pair is dissolved. -/
theorem Inverse.unpair (h : Inverse f g) (hab : f a = some b) :
    Inverse (Function.update f a none) (Function.update g b none) := by
  intro x y
  by_cases hx : x = a
  · by_cases hy : y = b
    · simp [hx, hy]
    · have hnot : g y ≠ some a := fun hg =>
        hy (Option.some.inj (((h a y).mp hg).symm.trans hab))
      simp [hx, hy, hnot]
  · by_cases hy : y = b
    · have hnot : f x ≠ some b := fun hf =>
        hx (Option.some.inj (((h x b).mpr hf).symm.trans ((h a b).mpr hab)))
      simp [hx, hy, hnot]
    · simpa [hx, hy] using h x y

end Inverse

end Lease
