import Rinha.Server.Layout
import Rinha.Server.Model.PostBody
/-!
# What the parser makes of whitespace

Whitespace shifts what follows it, and the indices of `ParseJsonBody` do
not move: a body it accepts has as much of it as `Passes` says, and is
read as it is meant just where it is `Faithful`. A blank too few before
`valor` costs its first digit, and its sign.
-/

namespace Rinha

open Json

variable {body : StringView} {p : PostBody} {l : Layout} {b : UInt8}

/-! ## The pieces -/

theorem isDigit_of_isSpace (h : isSpace b = true) : isDigit b = false := by
  simp only [isSpace, Bool.or_eq_true, beq_iff_eq] at h
  rcases h with ((rfl | rfl) | rfl) | rfl <;> rfl

/-- Whitespace is none of the bytes that mean something. -/
theorem notMem_of_spaces {space : Bytes} (h : Spaces space) (hb : isSpace b = false) :
    b ∉ space := fun hmem => by
  rw [h b hmem] at hb
  cases hb

theorem tipo_not_space (h : b = 99 ∨ b = 100) : isSpace b = false := by
  rcases h with rfl | rfl <;> rfl

namespace PostBody

theorem mem_beforeValor (h : b ∈ p.beforeValor) :
    isSpace b = true ∨ b ∈ Text.bytes "\x7b\"valor\":" := by
  have hspace : ∀ i, b ∈ p.space i → isSpace b = true := fun i => p.space_ok i b
  have hkey : Text.bytes "\"valor\"" ⊆ Text.bytes "\x7b\"valor\":" := by decide
  simp only [beforeValor, List.mem_append, List.mem_cons] at h
  rcases h with h | rfl | ((h | h) | h) | rfl | h
  · exact .inl (hspace 0 h)
  · exact .inr (by decide)
  · exact .inl (hspace 1 h)
  · exact .inr (hkey h)
  · exact .inl (hspace 2 h)
  · exact .inr (by decide)
  · exact .inl (hspace 3 h)

theorem mem_beforeTipo (h : b ∈ p.beforeTipo) :
    isSpace b = true ∨ b ∈ Text.bytes "\"tipo\":" := by
  have hspace : ∀ i, b ∈ p.space i → isSpace b = true := fun i => p.space_ok i b
  have hkey : Text.bytes "\"tipo\"" ⊆ Text.bytes "\"tipo\":" := by decide
  simp only [beforeTipo, List.mem_append, List.mem_cons] at h
  rcases h with ((h | h) | h) | rfl | h
  · exact .inl (hspace 5 h)
  · exact .inr (hkey h)
  · exact .inl (hspace 6 h)
  · exact .inr (by decide)
  · exact .inl (hspace 7 h)

@[simp] theorem length_beforeValor : p.beforeValor.length = 9 + p.lead := by
  simp [beforeValor, lead, Text.bytes]
  omega

@[simp] theorem length_beforeTipo : p.beforeTipo.length = 7 + p.mid := by
  simp [beforeTipo, mid, Text.bytes]
  omega

@[simp] theorem length_beforeDescricao : p.beforeDescricao.length = 13 + p.tail := by
  simp [beforeDescricao, tail, Text.bytes]
  omega

theorem length_valor : 1 ≤ p.valor.text.length := by
  have hne := List.length_pos_iff.mpr p.valor.nonempty
  unfold Integer.text
  split
  · simp
  · exact hne

/-! ## The amount -/

/-- What stands before the first comma. -/
def number (p : PostBody) : Bytes := p.beforeValor ++ p.valor.text ++ p.space 4

theorem comma_notMem_number : 44 ∉ p.number := by
  intro hmem
  simp only [number, List.mem_append] at hmem
  rcases hmem with (h | h) | h
  · rcases mem_beforeValor h with h | h <;> exact absurd h (by decide)
  · exact absurd (Integer.isNumeric_of_mem_text 44 h) (by decide)
  · exact notMem_of_spaces (p.space_ok 4) (by decide) h

theorem number_drop : p.number.drop 10 =
    p.beforeValor.drop 10 ++ p.valor.text.drop (1 - p.lead) ++ p.space 4 := by
  have hvalor := @length_valor p
  rw [number, List.drop_append_of_le_length (by simp; omega), List.drop_append, length_beforeValor,
    show 10 - (9 + p.lead) = 1 - p.lead by omega]

theorem beforeValor_drop (h : p.lead ≤ 1) : p.beforeValor.drop 10 = [] := by
  refine List.drop_eq_nil_of_le ?_
  rw [length_beforeValor]
  omega

/-- The first comma of the body is the one of the layout. -/
theorem split_comma (h : p.encode = l.encode) : p.number = l.before ++ l.digits ∧
    p.beforeTipo ++ 34 :: (p.tipo.text ++ 34 :: (p.beforeDescricao ++ 34 :: (p.descricao.text ++
      34 :: (p.space 12 ++ 125 :: p.space 13)))) =
        l.key ++ l.tipo :: (l.gap ++ l.description ++ [34, 125]) := by
  obtain ⟨rest, hbefore, hbehind⟩ := Text.append_of_notMem comma_notMem_number h
  cases rest with
  | nil =>
      rw [List.append_nil] at hbefore
      exact ⟨hbefore.symm, (List.cons.inj hbehind).2⟩
  | cons c rest =>
      -- a comma after the first would be one of the digits
      obtain ⟨rfl, -⟩ := List.cons.inj hbehind
      have hlen : 10 ≤ p.number.length := by
        have hvalor := @length_valor p
        simp [number]
        omega
      have hmem : 44 ∈ (l.before ++ l.digits).drop l.before.length := by
        rw [hbefore, l.before_length, List.drop_append_of_le_length hlen]
        simp
      rw [List.drop_left] at hmem
      exact absurd (l.digits_ok 44 hmem) (by decide)

/-- **The digits the parser reads**: all of `valor` with one blank before
it, and all but its first byte with none. -/
theorem digits_of_layout (h : p.encode = l.encode) : p.space 4 = [] ∧
    (p.lead = 0 ∧ l.digits = p.valor.text.drop 1 ∨
      p.lead = 1 ∧ p.valor.negative = false ∧ l.digits = p.valor.digits) := by
  have hdigits : l.digits =
      p.beforeValor.drop 10 ++ p.valor.text.drop (1 - p.lead) ++ p.space 4 := by
    rw [← number_drop, (split_comma h).1, ← l.before_length, List.drop_left]
  have hspace : p.space 4 = [] := by
    refine List.eq_nil_iff_forall_not_mem.mpr fun c hc => ?_
    have hdigit := l.digits_ok c (by rw [hdigits]; simp [hc])
    rw [isDigit_of_isSpace (p.space_ok 4 c hc)] at hdigit
    cases hdigit
  rw [hspace, List.append_nil] at hdigits
  refine ⟨hspace, ?_⟩
  -- with more than one blank the first digit read would be a blank
  have hlead : p.lead ≤ 1 := by
    by_contra hlead
    have hne : (p.beforeValor.drop 10) ≠ [] := by
      rw [← List.length_pos_iff, List.length_drop, length_beforeValor]
      omega
    obtain ⟨c, rest, hcons⟩ := List.exists_cons_of_ne_nil hne
    have hdigit := l.digits_ok c (by simp [hdigits, hcons])
    have hmem : c ∈ p.beforeValor := by
      refine List.mem_of_mem_drop (i := 10) ?_
      rw [hcons]
      exact List.mem_cons_self
    rcases mem_beforeValor hmem with hc | hc
    · rw [isDigit_of_isSpace hc] at hdigit
      cases hdigit
    · have hnot : (Text.bytes "\x7b\"valor\":").all (fun c => !isDigit c) = true := by decide
      have hc := List.all_eq_true.mp hnot c hc
      rw [hdigit] at hc
      cases hc
  rw [beforeValor_drop hlead, List.nil_append] at hdigits
  rcases Nat.le_one_iff_eq_zero_or_eq_one.mp hlead with hlead | hlead
  · rw [hlead] at hdigits
    exact .inl ⟨hlead, hdigits⟩
  · rw [hlead, Nat.sub_self, List.drop_zero] at hdigits
    have hsign : p.valor.negative = false := by
      by_contra hsign
      rw [Bool.not_eq_false] at hsign
      rw [Integer.text, if_pos hsign] at hdigits
      exact absurd (l.digits_ok 45 (by simp [hdigits])) (by decide)
    rw [Integer.text, if_neg (by simp [hsign])] at hdigits
    exact .inr ⟨hlead, hsign, hdigits⟩

/-! ## The end -/

theorem append_last_inj {x y : Bytes} {b c : UInt8} (h : x ++ [b] = y ++ [c]) : x = y ∧ b = c := by
  obtain ⟨hxy, hbc⟩ := List.append_inj' h rfl
  exact ⟨hxy, (List.cons.inj hbc).1⟩

/-- Whitespace does not come last. -/
theorem spaces_of_last {x y space : Bytes} {c : UInt8} (hspace : Spaces space)
    (hc : isSpace c = false) (h : y ++ space = x ++ [c]) : space = [] := by
  rcases List.eq_nil_or_concat space with hnil | ⟨rest, b, rfl⟩
  · exact hnil
  · rw [List.concat_eq_append, ← List.append_assoc] at h
    obtain ⟨-, rfl⟩ := append_last_inj h
    have hb := hspace b (by simp)
    rw [hc] at hb
    cases hb

/-- A body that ends in `"}` has no whitespace there. -/
theorem close_of_layout {x z : Bytes}
    (h : z ++ 34 :: (p.space 12 ++ 125 :: p.space 13) = x ++ [34, 125]) :
    (p.space 12 = [] ∧ p.space 13 = []) ∧ z = x := by
  have hlast : p.space 13 = [] := by
    refine spaces_of_last (x := x ++ [34]) (y := z ++ 34 :: (p.space 12 ++ [125]))
      (p.space_ok 13) (c := 125) (by decide) ?_
    simpa using h
  rw [hlast] at h
  have hinner : z ++ 34 :: p.space 12 = x ++ [34] := by
    have heq : (z ++ 34 :: p.space 12) ++ [125] = (x ++ [34]) ++ [125] := by simpa using h
    exact (append_last_inj heq).1
  have hfirst : p.space 12 = [] :=
    spaces_of_last (x := x) (y := z ++ [34]) (p.space_ok 12) (c := 34) (by decide)
      (by simpa using hinner)
  rw [hfirst] at hinner
  exact ⟨⟨hfirst, hlast⟩, (append_last_inj hinner).1⟩

/-- A text without a quote behind one that ends where another text does
stands behind the last quote of that. -/
theorem split_last_quote {x z description content : Bytes} (hno : 34 ∉ description)
    (h : z ++ 34 :: content = x ++ description) :
    ∃ passed, content = passed ++ description ∧ x = z ++ 34 :: passed := by
  have heq : (z ++ [34]) ++ content = x ++ description := by simpa using h
  rcases List.append_eq_append_iff.mp heq with ⟨passed, rfl, hcontent⟩ | ⟨rest, hrest, rfl⟩
  · exact ⟨passed, hcontent, by simp⟩
  · rcases List.eq_nil_or_concat rest with rfl | ⟨rest, c, rfl⟩
    · exact ⟨[], rfl, by simpa using hrest.symm⟩
    · rw [List.concat_eq_append, ← List.append_assoc] at hrest
      obtain ⟨-, rfl⟩ := append_last_inj hrest
      exact absurd (by simp) hno

/-! ## The type -/

theorem getElem?_behind {rest : Bytes} (h : p.mid ≤ 2) :
    (p.beforeTipo ++ 34 :: rest)[10]? = rest[2 - p.mid]? := by
  have hindex : 10 - (p.beforeTipo ++ [34]).length = 2 - p.mid := by
    simp
    omega
  rw [List.append_cons, List.getElem?_append_right (by simp; omega), hindex]

/-- **The letter of the type** is one of `tipo`. -/
theorem tipo_of_layout {key gap passed : Bytes} {c : UInt8} (hkey : key.length = 10)
    (hc : c = 99 ∨ c = 100)
    (h : key ++ c :: gap =
      p.beforeTipo ++ 34 :: (p.tipo.text ++ 34 :: (p.beforeDescricao ++ 34 :: passed))) :
    p.mid ≤ 2 ∧ p.tipo.text[2 - p.mid]? = some c := by
  have hget : (p.beforeTipo ++
      34 :: (p.tipo.text ++ 34 :: (p.beforeDescricao ++ 34 :: passed)))[10]? = some c := by
    rw [← h, List.getElem?_append_right (by omega), hkey]
    rfl
  have hspace := tipo_not_space hc
  -- further off, the byte at the index is punctuation or whitespace
  have hmid : p.mid ≤ 2 := by
    by_contra hmid
    rw [List.append_cons, List.getElem?_append_left (by simp; omega)] at hget
    have hmem := List.mem_of_getElem? hget
    rw [List.mem_append, List.mem_singleton] at hmem
    rcases hmem with hmem | rfl
    · rcases mem_beforeTipo hmem with hb | hb
      · rw [hspace] at hb
        cases hb
      · rcases hc with rfl | rfl <;> exact absurd hb (by decide)
    · rcases hc with hc | hc <;> cases hc
  refine ⟨hmid, ?_⟩
  rw [getElem?_behind hmid] at hget
  rcases Nat.lt_or_ge (2 - p.mid) p.tipo.text.length with hlt | hge
  · rwa [List.getElem?_append_left hlt] at hget
  · -- what follows `tipo` has punctuation and whitespace in its first three bytes
    exfalso
    have hprefix : 34 :: (p.beforeDescricao ++ 34 :: passed) =
        34 :: (p.space 8 ++ 44 :: (p.space 9 ++ [34])) ++ (Text.bytes "descricao\"" ++
          (p.space 10 ++ 58 :: p.space 11) ++ 34 :: passed) := by
      simp [beforeDescricao, Text.bytes]
    rw [List.getElem?_append_right hge, hprefix, List.getElem?_append_left (by simp; omega)] at hget
    have hmem := List.mem_of_getElem? hget
    simp only [List.mem_cons, List.mem_append, List.not_mem_nil, or_false] at hmem
    rcases hmem with rfl | hmem | rfl | hmem | rfl
    · rcases hc with hc | hc <;> cases hc
    · exact notMem_of_spaces (p.space_ok 8) hspace hmem
    · rcases hc with hc | hc <;> cases hc
    · exact notMem_of_spaces (p.space_ok 9) hspace hmem
    · rcases hc with hc | hc <;> cases hc

/-! ## What is accepted -/

/-- What the layout of a body has of it. -/
structure Read (p : PostBody) (l : Layout) : Prop where
  passes : p.Passes
  digits : p.lead = 0 ∧ l.digits = p.valor.text.drop 1 ∨
    p.lead = 1 ∧ p.valor.negative = false ∧ l.digits = p.valor.digits
  tipo : p.tipo.text[2 - p.mid]? = some l.tipo
  description : l.description = p.descricao.text.drop p.skip

/-- **A body with a layout** passes, and the layout reads it. -/
theorem read_of_layout (h : p.encode = l.encode) : p.Read l := by
  obtain ⟨hcomma, hdigits⟩ := digits_of_layout h
  obtain ⟨-, hbehind⟩ := split_comma h
  obtain ⟨hclose, hopen⟩ := close_of_layout (p := p)
    (x := l.key ++ l.tipo :: (l.gap ++ l.description))
    (z := p.beforeTipo ++ 34 :: (p.tipo.text ++ 34 :: (p.beforeDescricao ++ 34 ::
      p.descricao.text))) (by simpa using hbehind)
  obtain ⟨passed, hdescricao, hgap⟩ := split_last_quote (x := l.key ++ l.tipo :: l.gap)
    (z := p.beforeTipo ++ 34 :: (p.tipo.text ++ 34 :: p.beforeDescricao)) l.no_quote
    (by simpa using hopen)
  obtain ⟨hmid, htipo⟩ := tipo_of_layout l.key_length l.tipo_ok (by simpa using hgap)
  have hlen := congrArg List.length hgap
  simp only [List.length_append, List.length_cons, l.key_length, l.gap_length, length_beforeTipo,
    length_beforeDescricao] at hlen
  have hpassed : passed.length = p.skip := by
    unfold skip
    omega
  have hdrop : p.descricao.text.drop p.skip = l.description := by
    rw [hdescricao, ← hpassed, List.drop_left]
  have hdesc := l.description_length
  have htotal : p.descricao.text.length = p.skip + l.description.length := by
    rw [hdescricao, List.length_append, hpassed]
  exact {
    passes := {
      comma := hcomma
      close := hclose
      lead := hdigits.imp And.left fun h => ⟨h.1, h.2.1⟩
      mid := hmid
      tipo := by
        rw [htipo, Option.some_inj, Option.some_inj]
        exact l.tipo_ok
      room := by omega
      no_quote := hdrop ▸ l.no_quote
      description := by omega }
    digits := hdigits
    tipo := htipo
    description := hdrop.symm }

/-- **What passes has a layout.** -/
theorem exists_layout (h : p.Passes) : ∃ l : Layout, p.encode = l.encode := by
  obtain ⟨c, htipo, hc⟩ : ∃ c, p.tipo.text[2 - p.mid]? = some c ∧ (c = 99 ∨ c = 100) := by
    rcases h.tipo with htipo | htipo
    · exact ⟨99, htipo, .inl rfl⟩
    · exact ⟨100, htipo, .inr rfl⟩
  obtain ⟨hskip, hfits⟩ := h.description
  have hroom := h.room
  have hmid := h.mid
  have hvalor := @length_valor p
  have hskipped : (p.descricao.text.take p.skip).length =
      5 - (p.mid + p.tipo.text.length + p.tail) := List.length_take_of_le (Nat.le_of_lt hskip)
  have hlead : p.lead ≤ 1 := by
    rcases h.lead with hlead | ⟨hlead, -⟩ <;> omega
  have hbefore : (p.number.take 10).length = 10 := by
    refine List.length_take_of_le ?_
    simp [number]
    omega
  have hdigits : ∀ b ∈ p.number.drop 10, isDigit b = true := by
    rw [number_drop, beforeValor_drop hlead, h.comma, List.nil_append, List.append_nil,
      Integer.text]
    rcases h.lead with hlead | ⟨hlead, hsign⟩
    · -- the byte that is lost is the sign or a digit
      rw [hlead]
      split
      · exact p.valor.digits_ok
      · exact fun b hb => p.valor.digits_ok b (List.mem_of_mem_drop hb)
    · rw [hlead, Nat.sub_self, List.drop_zero, if_neg (by simp [hsign])]
      exact p.valor.digits_ok
  -- what stands between the first comma and the description
  obtain ⟨key, tipo, gap, rest, hbehind, hkey, hgap⟩ := @exists_split
    (p.beforeTipo ++ 34 :: (p.tipo.text ++ 34 :: (p.beforeDescricao ++
      34 :: p.descricao.text.take p.skip)))
    (by simp only [List.length_append, List.length_cons, length_beforeTipo,
          length_beforeDescricao, hskipped]; omega)
  have hlen := congrArg List.length hbehind
  simp only [List.length_append, List.length_cons, length_beforeTipo, length_beforeDescricao,
    hskipped, hkey, hgap] at hlen
  have hrest : rest = [] := List.eq_nil_of_length_eq_zero (by omega)
  subst hrest
  rw [List.append_nil] at hbehind
  have hsame : tipo = c := by
    have hlt : 2 - p.mid < p.tipo.text.length := (List.getElem?_eq_some_iff.mp htipo).1
    have hget := congrArg (fun s => s[10]?) hbehind
    simp only [getElem?_behind hmid, List.getElem?_append_left hlt, htipo,
      List.getElem?_append_right (le_of_eq hkey), hkey] at hget
    exact (Option.some.inj hget).symm
  refine ⟨⟨p.number.take 10, p.number.drop 10, key, tipo, gap, p.descricao.text.drop p.skip,
    hbefore, hdigits, hkey, hsame ▸ hc, hgap, h.no_quote, ?_⟩, ?_⟩
  · rw [List.length_drop]
    omega
  · have htext : p.encode = p.number ++ 44 :: (p.beforeTipo ++ 34 :: (p.tipo.text ++
        34 :: (p.beforeDescricao ++ 34 :: p.descricao.text.take p.skip)) ++
          p.descricao.text.drop p.skip ++ [34, 125]) := by
      simp [encode, number, h.close]
    rw [htext, hbehind, Layout.encode, List.take_append_drop]
    simp

/-- **Acceptance**, for a body whose size is one. -/
theorem accepted_iff_passes (h : body.text = p.encode) (hsize : body.size ≤ npos) :
    Accepted body ↔ p.Passes := by
  rw [accepted_iff_layout hsize, h]
  exact ⟨fun ⟨_, hl⟩ => (read_of_layout hl).passes, exists_layout⟩

/-! ## What is read -/

/-- Between a number and what 32 bits make of a smaller one. -/
theorem bmod_eq_iff {n : ℕ} {v : ℤ} (h : (n : ℤ) ≤ v) :
    (n : ℤ).bmod (2 ^ 32) = v ↔ (n : ℤ) = v ∧ v < 2 ^ 31 := by
  rw [Int.bmod_def]
  omega

theorem bmod_neg_eq_iff {n : ℕ} {v : ℤ} (h : (n : ℤ) ≤ v) :
    (-(n : ℤ)).bmod (2 ^ 32) = -v ↔ (n : ℤ) = v ∧ v ≤ 2 ^ 31 := by
  rw [Int.bmod_def]
  omega

/-- **The digits that are read** make at most the number, and make it with
one blank before it, or where it is zero. -/
theorem Read.value_digits (h : p.Read l) (hnonneg : 0 ≤ p.valor.toInt) :
    (Decimal.value l.digits : ℤ) ≤ p.valor.toInt ∧
      ((Decimal.value l.digits : ℤ) = p.valor.toInt ↔ p.lead = 1 ∨ p.valor.toInt = 0) := by
  rcases h.digits with ⟨hlead, hdigits⟩ | ⟨hlead, hsign, hdigits⟩
  · rw [Integer.text] at hdigits
    rw [Integer.toInt] at hnonneg ⊢
    cases hsign : p.valor.negative with
    | true =>
        rw [hsign, if_pos rfl] at hdigits hnonneg
        rw [if_pos rfl, hdigits, List.drop_one, List.tail_cons]
        omega
    | false =>
        obtain ⟨d, ds, hcons⟩ := List.exists_cons_of_ne_nil p.valor.nonempty
        rw [hsign, if_neg Bool.false_ne_true, hcons, List.drop_one, List.tail_cons] at hdigits
        rw [if_neg Bool.false_ne_true, hcons, hdigits, Decimal.value_cons]
        refine ⟨by omega, ?_⟩
        constructor
        · intro hsame
          -- only a zero can be lost, and it is all of the number
          have hplace : (d.toNat - 48) * 10 ^ ds.length = 0 := by omega
          have hzero : d.toNat - 48 = 0 :=
            (Nat.mul_eq_zero.mp hplace).resolve_right (Nat.ne_of_gt (Nat.pow_pos (by decide)))
          have hdigit := Decimal.le_of_isDigit (p.valor.digits_ok d (by simp [hcons]))
          have hd : d = 48 := UInt8.toNat_inj.mp (by
            rw [show (48 : UInt8).toNat = 48 from rfl]
            omega)
          have hall := p.valor.no_leading_zero (by simp [hcons, hd])
          obtain ⟨-, rfl⟩ := List.cons.inj (hcons.symm.trans hall)
          right
          rw [hzero]
          rfl
        · rintro (hone | hzero)
          · omega
          · omega
  · have hvalue : p.valor.toInt = Decimal.value l.digits := by
      rw [Integer.toInt, if_neg (by simp [hsign]), hdigits]
    rw [hvalue]
    exact ⟨le_refl _, iff_of_true rfl (.inl hlead)⟩

/-- A `tipo` of one letter is read where it stands. -/
theorem Read.tipo_eq {c : UInt8} (h : p.Read l) (hone : p.tipo.text = [c]) :
    l.tipo = c ∧ p.mid = 2 := by
  have hget := h.tipo
  rw [hone] at hget
  have hlt : 2 - p.mid < 1 := (List.getElem?_eq_some_iff.mp hget).1
  have hmid : p.mid = 2 := Nat.le_antisymm h.passes.mid (by omega)
  rw [hmid] at hget
  exact ⟨(Option.some.inj hget).symm, hmid⟩

/-- An escape is not read as a letter. -/
theorem Read.not_escape (h : p.Read l) (rest : Bytes) :
    p.tipo.text ≠ Text.bytes "\\u0" ++ rest := by
  intro hescape
  have hget := h.tipo
  have hletter : ∀ k ≤ 2, ∀ c, (Text.bytes "\\u0" ++ rest)[k]? = some c → c ≠ 99 ∧ c ≠ 100 := by
    intro k hk c hc
    rw [List.getElem?_append_left (by simp [Text.bytes]; omega)] at hc
    have hall : (Text.bytes "\\u0").all (fun c => decide (c ≠ 99 ∧ c ≠ 100)) = true := by decide
    exact of_decide_eq_true (List.all_eq_true.mp hall c (List.mem_of_getElem? hc))
  rw [hescape] at hget
  have hne := hletter _ (Nat.sub_le ..) _ hget
  rcases l.tipo_ok with hc | hc
  · exact hne.1 hc
  · exact hne.2 hc

theorem Read.credit_iff (h : p.Read l) : p.Credit ↔ p.tipo.text = Text.bytes "c" :=
  or_iff_left (h.not_escape (Text.bytes "063"))

theorem Read.debit_iff (h : p.Read l) : p.Debit ↔ p.tipo.text = Text.bytes "d" :=
  or_iff_left (h.not_escape (Text.bytes "064"))

theorem Read.value_credit (h : p.Read l) (hone : p.tipo.text = Text.bytes "c") :
    l.amount.toInt = (Decimal.value l.digits : ℤ).bmod (2 ^ 32) := by
  have htipo : l.tipo = 99 := (h.tipo_eq hone).1
  rw [Layout.amount, htipo, if_neg (by decide), Int32.toInt_ofNat']
  rfl

theorem Read.value_debit (h : p.Read l) (hone : p.tipo.text = Text.bytes "d") :
    l.amount.toInt = (-(Decimal.value l.digits : ℤ)).bmod (2 ^ 32) := by
  have htipo : l.tipo = 100 := (h.tipo_eq hone).1
  rw [Layout.amount, htipo, if_pos rfl, toInt_mul_neg_one]

/-- The description is whole where nothing of it is passed over. -/
theorem Read.description_iff (h : p.Read l) : l.description = p.descricao.text ↔ p.skip = 0 := by
  obtain ⟨hskip, -⟩ := h.passes.description
  rw [h.description]
  constructor
  · intro hall
    have hlen := congrArg List.length hall
    rw [List.length_drop] at hlen
    omega
  · intro hzero
    rw [hzero, List.drop_zero]

/-- **What is read is meant** just where the body is faithful. -/
theorem Read.agrees_iff (h : p.Read l) (hl : body.text = l.encode) (t : Transaction) :
    p.Agrees (readTransaction body t) ↔ p.Faithful := by
  have hvalue : (readTransaction body t).value = l.amount := l.amount_eq hl
  have hdescription : Text.cstr (readTransaction body t).description.toList = l.description := by
    have hnul : 0 ∉ l.description := by
      rw [h.description]
      exact fun hmem => p.descricao.ok.control_notMem (by decide) (List.mem_of_mem_drop hmem)
    exact (l.cstr_description hl _).trans (Text.cstr_of_notMem hnul)
  -- with one letter in `tipo` what is passed over is a matter of the spacing
  have htail : ∀ {c}, p.tipo.text = [c] → (p.skip = 0 ↔ p.tail = 2) := fun hone => by
    have hmid := (h.tipo_eq hone).2
    have hroom := h.passes.room
    rw [skip, hmid, hone, List.length_singleton] at *
    omega
  constructor
  · intro hagrees
    have hskip := h.description_iff.mp (hdescription.symm.trans hagrees.description)
    have hread := h.value_digits hagrees.nonneg
    have hmeant := hagrees.value
    rw [hvalue, h.credit_iff, h.debit_iff] at hmeant
    rcases hmeant with ⟨hone, heq⟩ | ⟨hone, heq⟩
    · rw [h.value_credit hone, bmod_eq_iff hread.1, hread.2] at heq
      exact ⟨heq.1, (htail hone).mp hskip, .inl ⟨hone, heq.2⟩⟩
    · rw [h.value_debit hone, bmod_neg_eq_iff hread.1, hread.2] at heq
      exact ⟨heq.1, (htail hone).mp hskip, .inr ⟨hone, heq.2⟩⟩
  · intro hfaithful
    have hnonneg : 0 ≤ p.valor.toInt := by
      rcases hfaithful.lead with hlead | hzero
      · have hsign : p.valor.negative = false := by
          rcases h.passes.lead with hnone | hone
          · omega
          · exact hone.2
        rw [Integer.toInt, if_neg (by simp [hsign])]
        exact Int.natCast_nonneg _
      · exact le_of_eq hzero.symm
    have hread := h.value_digits hnonneg
    have hsame := hread.2.mpr hfaithful.lead
    refine ⟨hnonneg, ?_, ?_⟩
    · rw [hvalue, h.credit_iff, h.debit_iff]
      refine hfaithful.value.imp ?_ ?_
      · rintro ⟨hone, hfits⟩
        exact ⟨hone, by rw [h.value_credit hone, bmod_eq_iff hread.1]; exact ⟨hsame, hfits⟩⟩
      · rintro ⟨hone, hfits⟩
        exact ⟨hone, by rw [h.value_debit hone, bmod_neg_eq_iff hread.1]; exact ⟨hsame, hfits⟩⟩
    · have hskip : p.skip = 0 := by
        rcases hfaithful.value with ⟨hone, -⟩ | ⟨hone, -⟩
        · exact (htail hone).mpr hfaithful.tail
        · exact (htail hone).mpr hfaithful.tail
      exact hdescription.trans (h.description_iff.mpr hskip)

/-- **An accepted body is read as it is meant** if and only if it is
faithful, should it pass. -/
theorem parseJsonBody_agrees_iff (p : PostBody) (body : StringView) (t : Transaction)
    (h : body.text = p.encode) (hsize : body.size ≤ npos) :
    ((parseJsonBody body t).1 = true → p.Agrees (parseJsonBody body t).2) ↔
      (p.Passes → p.Faithful) := by
  rw [parseJsonBody_fst, accepted_iff_passes h hsize]
  refine forall_congr' fun hpasses => ?_
  obtain ⟨l, hl⟩ := exists_layout hpasses
  rw [parseJsonBody_of_accepted (l.accepted (h.trans hl) hsize)]
  exact (read_of_layout hl).agrees_iff (h.trans hl) t

/-- A credit of `valor`, described as `a`, with `blank` before `valor` and a
blank behind each colon and comma from there on. -/
def credit (valor : ℤ) (blank : Bytes) (h : Spaces blank) : PostBody where
  valor := .ofInt valor
  tipo := ⟨Text.bytes "c", content_of_plain (by decide)⟩
  descricao := ⟨Text.bytes "a", content_of_plain (by decide)⟩
  space i := if i = 3 then blank else if i ∈ [5, 7, 9, 11] then [32] else []
  space_ok i := by
    split
    · exact h
    · split
      · exact fun b hb => by
          rw [List.mem_singleton.mp hb]
          rfl
      · exact spaces_nil

/-- The usual spacing: twelve is read as twelve. -/
theorem parseJsonBody_agrees_twelve :
    let p := credit 12 [32] (by decide)
    let parsed := parseJsonBody (.ofBytes p.encode) .zero
    parsed.1 = true ∧ parsed.2.value = 12 ∧
      ((parsed.1 = true → p.Agrees parsed.2) ↔ (p.Passes → p.Faithful)) := by
  refine ⟨by decide +kernel, by decide +kernel, ?_⟩
  exact parseJsonBody_agrees_iff _ _ _ (StringView.text_ofBytes _) (by decide +kernel)

/-- A credit without a blank before `valor` is accepted, and read as one of
`value`, which is not what it says. -/
def Misread (valor value : ℤ) : Prop :=
  let p := credit valor [] spaces_nil
  let parsed := parseJsonBody (.ofBytes p.encode) .zero
  parsed.1 = true ∧ parsed.2.value.toInt = value ∧ ¬p.Agrees parsed.2

theorem misread_of_value {valor value : ℤ} (hne : value ≠ valor)
    (h : let parsed := parseJsonBody (.ofBytes (credit valor [] spaces_nil).encode) .zero
      parsed.1 = true ∧ parsed.2.value.toInt = value) : Misread valor value := by
  obtain ⟨haccepted, hvalue⟩ := h
  refine ⟨haccepted, hvalue, fun hagrees => ?_⟩
  rcases hagrees.value with ⟨-, hcredit⟩ | ⟨hdebit, -⟩
  · rw [hvalue, show (credit valor [] spaces_nil).valor.toInt = valor from
      Integer.toInt_ofInt valor] at hcredit
    exact hne hcredit
  · have hnot : ¬(Text.bytes "c" = Text.bytes "d" ∨ Text.bytes "c" = Text.bytes "\\u0064") := by
      decide
    exact hnot hdebit

/-- **Without a blank before it `valor` loses its first byte**: twelve is
read as two, five less than nothing as five, and five as nothing. -/
theorem not_agrees_unspaced : Misread 12 2 ∧ Misread (-5) 5 ∧ Misread 5 0 := by
  refine ⟨misread_of_value (by decide) ?_, misread_of_value (by decide) ?_,
    misread_of_value (by decide) ?_⟩ <;> decide +kernel

end PostBody

end Rinha
