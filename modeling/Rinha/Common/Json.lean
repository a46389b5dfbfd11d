import Mathlib.Logic.Function.Basic
import Rinha.Common.Decimal
/-!
# JSON texts

The spelling of a sequence of tokens: punctuation, strings and integers,
with whitespace anywhere between them. A token ends where it ends
(`Content.append_quote_inj`, `spells_integer`), so a text is taken apart
from the front, a token at a time.
-/

namespace Json

/-! ## Tokens -/

/-- The whitespace between tokens. -/
def isSpace (b : UInt8) : Bool := b == 32 || b == 9 || b == 10 || b == 13

/-- What stands for itself in a string: neither a control character, nor a
quote, nor a backslash. -/
def isPlain (b : UInt8) : Bool := 32 ≤ b && b != 34 && b != 92

def isHex (b : UInt8) : Bool :=
  Decimal.isDigit b || 65 ≤ b && b ≤ 70 || 97 ≤ b && b ≤ 102

/-- What may follow a backslash, `u` apart. -/
def escapes : Bytes := Text.bytes "\"\\/bfnrt"

/-- What may stand between the quotes of a string. -/
inductive Content : Bytes → Prop
  | nil : Content []
  | plain {b : UInt8} {rest : Bytes} : isPlain b = true → Content rest → Content (b :: rest)
  | escape {b : UInt8} {rest : Bytes} :
      b ∈ escapes → Content rest → Content (92 :: b :: rest)
  | unicode {hex rest : Bytes} : hex.length = 4 → (∀ b ∈ hex, isHex b = true) →
      Content rest → Content (92 :: 117 :: (hex ++ rest))

/-- A string, as it is spelled between its quotes. -/
structure Str where
  text : Bytes
  ok : Content text

/-- An integer, as it is spelled. -/
structure Integer where
  negative : Bool
  digits : Bytes
  digits_ok : ∀ b ∈ digits, Decimal.isDigit b = true
  nonempty : digits ≠ []
  no_leading_zero : digits.head? = some 48 → digits = [48]

namespace Integer

def text (i : Integer) : Bytes := if i.negative then 45 :: i.digits else i.digits

/-- The number it denotes. -/
def toInt (i : Integer) : ℤ :=
  if i.negative then -(Decimal.value i.digits : ℤ) else Decimal.value i.digits

/-- The usual spelling of a number. -/
def ofInt (x : ℤ) : Integer where
  negative := decide (x < 0)
  digits := Decimal.ofNat x.natAbs
  digits_ok := Decimal.isDigit_of_mem_ofNat
  nonempty := Decimal.ofNat_ne_nil _
  no_leading_zero := Decimal.ofNat_of_head

@[simp] theorem text_ofInt (x : ℤ) : (ofInt x).text = Decimal.ofInt x := by
  simp [text, ofInt, Decimal.ofInt]

@[simp] theorem toInt_ofInt (x : ℤ) : (ofInt x).toInt = x := by
  simp only [toInt, ofInt, Decimal.value_ofNat, decide_eq_true_eq]
  split <;> omega

end Integer

inductive Token
  | punct (b : UInt8)
  | string (s : Str)
  | integer (i : Integer)

def Token.text : Token → Bytes
  | .punct b => [b]
  | .string s => 34 :: (s.text ++ [34])
  | .integer i => i.text

/-- All of it is whitespace. -/
def Spaces (space : Bytes) : Prop := ∀ b ∈ space, isSpace b = true

instance (space : Bytes) : Decidable (Spaces space) :=
  decidable_of_iff (space.all isSpace = true) List.all_eq_true

/-- The text spells the tokens. -/
inductive Spells : List Token → Bytes → Prop
  | nil {space : Bytes} : Spaces space → Spells [] space
  | cons {space : Bytes} {token : Token} {tokens : List Token} {text : Bytes} :
      Spaces space → Spells tokens text → Spells (token :: tokens) (space ++ (token.text ++ text))

/-- The spelling with `space i` before token `i`, from the `i`-th on. -/
def spell (space : ℕ → Bytes) : ℕ → List Token → Bytes
  | i, [] => space i
  | i, token :: tokens => space i ++ (token.text ++ spell space (i + 1) tokens)

variable {tokens : List Token} {token : Token} {text rest rest' content content' : Bytes}
variable {b p : UInt8} {s : Str} {i : Integer}

theorem spaces_nil : Spaces [] := nofun

theorem spells_nil : Spells [] [] := .nil spaces_nil

theorem spells_spell {space : ℕ → Bytes} (h : ∀ i, Spaces (space i)) (i : ℕ) :
    Spells tokens (spell space i tokens) := by
  induction tokens generalizing i with
  | nil => exact .nil (h i)
  | cons token tokens ih => exact .cons (h i) (ih (i + 1))

theorem spell_congr {space space' : ℕ → Bytes} {i : ℕ} (h : ∀ j, i ≤ j → space j = space' j) :
    spell space i tokens = spell space' i tokens := by
  induction tokens generalizing i with
  | nil => exact h i (le_refl i)
  | cons token tokens ih =>
      rw [spell, spell, h i (le_refl i), ih fun j hj => h j (by omega)]

/-- **Every text that spells the tokens** does so with some whitespace. -/
theorem exists_spell (h : Spells tokens text) (i : ℕ) :
    ∃ space : ℕ → Bytes, (∀ i, Spaces (space i)) ∧ text = spell space i tokens := by
  induction h generalizing i with
  | @nil space hspace => exact ⟨fun _ => space, fun _ => hspace, rfl⟩
  | @cons space token tokens text hspace _ ih =>
      obtain ⟨behind, hbehind, rfl⟩ := ih (i + 1)
      refine ⟨Function.update behind i space, fun j => ?_, ?_⟩
      · rcases eq_or_ne j i with rfl | hne
        · rw [Function.update_self]
          exact hspace
        · rw [Function.update_of_ne hne]
          exact hbehind j
      · rw [spell, Function.update_self]
        congr 2
        exact spell_congr fun j hj => (Function.update_of_ne (by omega) ..).symm

/-! ## Strings -/

theorem content_of_plain (h : text.all isPlain = true) : Content text := by
  induction text with
  | nil => exact .nil
  | cons b text ih =>
      rw [List.all_cons, Bool.and_eq_true] at h
      exact .plain h.1 (ih h.2)

/-- A string has no control characters. -/
theorem Content.control_notMem (h : Content text) (hb : b < 32) : b ∉ text := by
  have hlow : ∀ {c : UInt8}, 32 ≤ c → b ≠ c := fun hc hbc =>
    absurd (hbc ▸ hb) (UInt8.not_lt.mpr hc)
  induction h with
  | nil => exact List.not_mem_nil
  | @plain c _ hc _ ih =>
      have h32 : 32 ≤ c := by
        simp only [isPlain, Bool.and_eq_true, decide_eq_true_eq] at hc
        exact hc.1.1
      exact fun hmem => (List.mem_cons.mp hmem).elim (hlow h32) ih
  | @escape c _ hc _ ih =>
      have hlow' : b ∉ escapes := fun hmem => by
        have h32 : escapes.all (fun c => decide (32 ≤ c)) = true := by decide
        exact hlow (of_decide_eq_true (List.all_eq_true.mp h32 b hmem)) rfl
      intro hmem
      simp only [List.mem_cons] at hmem
      rcases hmem with hb | rfl | hmem
      · exact hlow (by decide) hb
      · exact hlow' hc
      · exact ih hmem
  | @unicode hex _ _ hhex _ ih =>
      have h32 : ∀ c ∈ hex, 32 ≤ c := fun c hc => by
        by_contra hlt
        have hxc := hhex c hc
        simp only [isHex, Decimal.isDigit, Bool.or_eq_true, Bool.and_eq_true, decide_eq_true_eq,
          UInt8.le_iff_toNat_le] at hxc hlt
        simp at hxc hlt
        omega
      intro hmem
      simp only [List.mem_cons, List.mem_append] at hmem
      rcases hmem with hc | hc | hmem | hmem
      · exact hlow (by decide) hc
      · exact hlow (by decide) hc
      · exact hlow (h32 b hmem) rfl
      · exact ih hmem

/-- A name without anything to escape. -/
def key (name : Bytes) (h : name.all isPlain = true) : Token :=
  .string ⟨name, content_of_plain h⟩

theorem ne_quote_of_isPlain (h : isPlain b = true) : b ≠ 34 := by
  rintro rfl
  cases h

theorem ne_backslash_of_isPlain (h : isPlain b = true) : b ≠ 92 := by
  rintro rfl
  cases h

theorem quote_notMem_of_isHex {hex : Bytes} (h : ∀ b ∈ hex, isHex b = true) : 34 ∉ hex :=
  fun hmem => absurd (h 34 hmem) (by decide)

/-- **A quoted text and a string** that begin alike: the text has no quote,
so the string ends with it, or goes on behind a quote that it escapes. -/
theorem Content.split_quote (h : Content content) (hnot : 34 ∉ text)
    (heq : content ++ 34 :: rest = text ++ 34 :: rest') :
    content = text ∧ rest = rest' ∨
      ∃ more, Content more ∧ content = text ++ 34 :: more ∧ rest' = more ++ 34 :: rest := by
  induction h generalizing text with
  | nil =>
      cases text with
      | nil => exact .inl ⟨rfl, (List.cons.inj heq).2⟩
      | cons b text => exact absurd (List.cons.inj heq).1 fun hb => hnot (by simp [hb])
  | @plain b content hb _ ih =>
      have hne : (34 : UInt8) ∉ [b] := by simpa using (ne_quote_of_isPlain hb).symm
      obtain ⟨text', rfl, htail⟩ := Text.append_of_notMem (a := [b]) hne heq
      refine (ih (fun hmem => hnot (by simp [hmem])) htail).imp ?_ ?_
      · exact And.imp_left (congrArg (b :: ·))
      · rintro ⟨more, hmore, rfl, hrest⟩
        exact ⟨more, hmore, rfl, hrest⟩
  | @escape b content hb hcontent ih =>
      have hne : (34 : UInt8) ∉ [92] := by decide
      obtain ⟨text', rfl, htail⟩ := Text.append_of_notMem (a := [92]) hne heq
      cases text' with
      | nil =>
          -- the quote that ends the text is the one escaped
          obtain ⟨rfl, hrest⟩ := List.cons.inj htail
          exact .inr ⟨content, hcontent, rfl, hrest.symm⟩
      | cons b' text' =>
          obtain ⟨rfl, htail'⟩ := List.cons.inj htail
          refine (ih (fun hmem => hnot (by simp [hmem])) htail').imp ?_ ?_
          · exact And.imp_left (congrArg (92 :: b :: ·))
          · rintro ⟨more, hmore, rfl, hrest⟩
            exact ⟨more, hmore, rfl, hrest⟩
  | @unicode hex content _ hhex _ ih =>
      have hne : (34 : UInt8) ∉ 92 :: 117 :: hex := by
        simpa using quote_notMem_of_isHex hhex
      obtain ⟨text', rfl, htail⟩ := Text.append_of_notMem hne (by simpa using heq)
      refine (ih (fun hmem => hnot (by simp [hmem])) htail).imp ?_ ?_
      · rintro ⟨rfl, hrest⟩
        exact ⟨by simp, hrest⟩
      · rintro ⟨more, hmore, rfl, hrest⟩
        exact ⟨more, hmore, by simp, hrest⟩

/-- A string does not go on behind a quote that it has not escaped. -/
theorem Content.not_append_quote (h : Content content) : ¬Content (content ++ 34 :: rest) := by
  induction h with
  | nil =>
      intro hquote
      rw [List.nil_append] at hquote
      cases hquote with
      | plain hplain _ => exact ne_quote_of_isPlain hplain rfl
  | @plain b content hb _ ih =>
      intro hquote
      rw [List.cons_append] at hquote
      generalize content ++ 34 :: rest = behind at hquote ih
      cases hquote with
      | plain _ hrest => exact ih hrest
      | escape _ _ => exact ne_backslash_of_isPlain hb rfl
      | unicode _ _ _ => exact ne_backslash_of_isPlain hb rfl
  | @escape b content hb _ ih =>
      intro hquote
      rw [List.cons_append, List.cons_append] at hquote
      generalize content ++ 34 :: rest = behind at hquote ih
      cases hquote with
      | plain hplain _ => exact ne_backslash_of_isPlain hplain rfl
      | escape _ hrest => exact ih hrest
      | unicode _ _ _ => exact absurd hb (by decide)
  | @unicode hex content hlen hhex _ ih =>
      intro hquote
      rw [List.cons_append, List.cons_append, List.append_assoc] at hquote
      generalize htext : hex ++ (content ++ 34 :: rest) = behind at hquote
      cases hquote with
      | plain hplain _ => exact ne_backslash_of_isPlain hplain rfl
      | escape hu _ => exact absurd hu (by decide)
      | @unicode hex' _ hlen' _ hrest =>
          obtain ⟨-, hsame⟩ := List.append_inj htext (hlen.trans hlen'.symm)
          exact ih (hsame ▸ hrest)

/-! ## Taking a text apart -/

theorem spells_cons_iff : Spells (token :: tokens) text ↔
    ∃ space rest, Spaces space ∧ Spells tokens rest ∧ text = space ++ (token.text ++ rest) := by
  constructor
  · intro h
    cases h with
    | cons hspace hrest => exact ⟨_, _, hspace, hrest, rfl⟩
  · rintro ⟨space, rest, hspace, hrest, rfl⟩
    exact .cons hspace hrest

/-- What does not begin with whitespace begins with a token. -/
theorem spells_cons_of_head (hb : isSpace b = false) : Spells (token :: tokens) (b :: text) ↔
    ∃ rest, b :: text = token.text ++ rest ∧ Spells tokens rest := by
  rw [spells_cons_iff]
  constructor
  · rintro ⟨space, rest, hspace, hrest, htext⟩
    cases space with
    | nil => exact ⟨rest, htext, hrest⟩
    | cons c space =>
        have hc := hspace c (by simp)
        rw [← (List.cons.inj htext).1, hb] at hc
        cases hc
  · rintro ⟨rest, htext, hrest⟩
    exact ⟨[], rest, spaces_nil, hrest, htext⟩

theorem spells_punct (hb : isSpace b = false) :
    Spells (.punct p :: tokens) (b :: text) ↔ b = p ∧ Spells tokens text := by
  rw [spells_cons_of_head hb]
  constructor
  · rintro ⟨rest, htext, hrest⟩
    obtain ⟨hp, rfl⟩ := List.cons.inj htext
    exact ⟨hp, hrest⟩
  · rintro ⟨rfl, hrest⟩
    exact ⟨text, rfl, hrest⟩

theorem spells_punct_self (hp : isSpace p = false) :
    Spells (.punct p :: tokens) (p :: text) ↔ Spells tokens text := by
  rw [spells_punct hp, and_iff_right rfl]

/-- **A string in quotes.** -/
theorem spells_string (h : Content content) (hnot : 34 ∉ content) :
    Spells (.string s :: tokens) (34 :: (content ++ 34 :: text)) ↔
      s.text = content ∧ Spells tokens text := by
  rw [spells_cons_of_head (by decide)]
  constructor
  · rintro ⟨rest, htext, hrest⟩
    have hsplit : s.text ++ 34 :: rest = content ++ 34 :: text := by
      simpa [Token.text] using (List.cons.inj htext).2.symm
    rcases s.ok.split_quote hnot hsplit with ⟨hsame, rfl⟩ | ⟨more, -, hmore, -⟩
    · exact ⟨hsame, hrest⟩
    · exact absurd (hmore ▸ s.ok) h.not_append_quote
  · rintro ⟨hsame, hrest⟩
    exact ⟨text, by simp [Token.text, hsame], hrest⟩

/-- A string of plain bytes. -/
theorem spells_plain (h : content.all isPlain = true) :
    Spells (.string s :: tokens) (34 :: (content ++ 34 :: text)) ↔
      s.text = content ∧ Spells tokens text :=
  spells_string (content_of_plain h) fun hmem =>
    ne_quote_of_isPlain (List.all_eq_true.mp h 34 hmem) rfl

theorem spells_key {name : Bytes} (h : name.all isPlain = true) :
    Spells (key name h :: tokens) (34 :: (name ++ 34 :: text)) ↔ Spells tokens text := by
  rw [key, spells_plain h, and_iff_right rfl]

/-- **A quoted text, a comma and another quote.** Were the first quote behind
the text escaped, the string would end at the other one. -/
theorem spells_string_comma {c : UInt8} (hnot : 34 ∉ content) (hc : isSpace c = false)
    (hne : c ≠ 44) :
    Spells (.string s :: .punct 44 :: tokens) (34 :: (content ++ 34 :: 44 :: 34 :: c :: text)) ↔
      s.text = content ∧ Spells (.punct 44 :: tokens) (44 :: 34 :: c :: text) := by
  rw [spells_cons_of_head (by decide)]
  constructor
  · rintro ⟨rest, htext, hrest⟩
    have hsplit : s.text ++ 34 :: rest = content ++ 34 :: 44 :: 34 :: c :: text := by
      simpa [Token.text] using (List.cons.inj htext).2.symm
    rcases s.ok.split_quote hnot hsplit with ⟨hsame, rfl⟩ | ⟨more, hmore, -, hbehind⟩
    · exact ⟨hsame, hrest⟩
    · exfalso
      have hcomma : Content [44] := .plain (by decide) .nil
      match more with
      | [] => cases (List.cons.inj hbehind).1
      | [d] =>
          have hrest' := (List.cons.inj (List.cons.inj hbehind).2).2
          rw [← hrest', spells_punct hc] at hrest
          exact hne hrest.1
      | d :: e :: more =>
          obtain ⟨rfl, hbehind'⟩ := List.cons.inj hbehind
          obtain ⟨rfl, -⟩ := List.cons.inj hbehind'
          exact hcomma.not_append_quote hmore
  · rintro ⟨hsame, hrest⟩
    exact ⟨44 :: 34 :: c :: text, by simp [Token.text, hsame], hrest⟩

/-- What an integer is spelled with. -/
def isNumeric (b : UInt8) : Bool := Decimal.isDigit b || b == 45

theorem Integer.isNumeric_of_mem_text : ∀ b ∈ i.text, isNumeric b = true := by
  intro b hb
  have hdigit : ∀ b ∈ i.digits, isNumeric b = true := fun b hb => by
    simp [isNumeric, i.digits_ok b hb]
  unfold Integer.text at hb
  split at hb
  · rcases List.mem_cons.mp hb with rfl | hmem
    · decide
    · exact hdigit b hmem
  · exact hdigit b hb

theorem isSpace_of_isNumeric (h : isNumeric b = true) : isSpace b = false := by
  by_contra hspace
  rw [Bool.not_eq_false] at hspace
  simp only [isSpace, Bool.or_eq_true, beq_iff_eq] at hspace
  rcases hspace with ((rfl | rfl) | rfl) | rfl <;> cases h

/-- **An integer and the punctuation behind it.** -/
theorem spells_integer {numeral : Bytes} (hnumeral : ∀ b ∈ numeral, isNumeric b = true)
    (hne : numeral ≠ []) (hb : isNumeric b = false) (hp : isNumeric p = false) :
    Spells (.integer i :: .punct p :: tokens) (numeral ++ b :: text) ↔
      i.text = numeral ∧ Spells (.punct p :: tokens) (b :: text) := by
  obtain ⟨c, numeral', rfl⟩ := List.exists_cons_of_ne_nil hne
  rw [List.cons_append,
    spells_cons_of_head (isSpace_of_isNumeric (hnumeral c (by simp)))]
  constructor
  · rintro ⟨rest, htext, hrest⟩
    -- what follows the integer begins with whitespace or with `p`
    obtain ⟨y, behind, rfl, hy⟩ : ∃ y behind, rest = y :: behind ∧ isNumeric y = false := by
      obtain ⟨space, behind, hspace, -, rfl⟩ := spells_cons_iff.mp hrest
      cases space with
      | nil => exact ⟨p, behind, rfl, hp⟩
      | cons y space =>
          refine ⟨y, _, rfl, ?_⟩
          by_contra hy
          rw [Bool.not_eq_false] at hy
          have hspaced := hspace y (by simp)
          rw [isSpace_of_isNumeric hy] at hspaced
          cases hspaced
    have hfalse : ∀ {x : UInt8}, isNumeric x = false → ¬isNumeric x = true := by simp
    obtain ⟨hsame, htail⟩ := Text.append_span_inj hnumeral i.isNumeric_of_mem_text (hfalse hb)
      (hfalse hy) htext
    exact ⟨hsame.symm, htail ▸ hrest⟩
  · rintro ⟨hsame, hrest⟩
    exact ⟨b :: text, by simp [Token.text, hsame], hrest⟩

/-- A numeral is spelled with digits and a minus sign. -/
theorem isNumeric_of_mem_ofInt (x : ℤ) : ∀ b ∈ Decimal.ofInt x, isNumeric b = true := by
  rw [← Integer.text_ofInt]
  exact Integer.isNumeric_of_mem_text

theorem ofInt_ne_nil (x : ℤ) : Decimal.ofInt x ≠ [] := by
  unfold Decimal.ofInt
  split
  · exact List.cons_ne_nil _ _
  · exact Decimal.ofNat_ne_nil _

/-- **The number of an integer** can be read off its spelling. -/
theorem Integer.toInt_of_text {x : ℤ} (h : i.text = Decimal.ofInt x) : i.toInt = x := by
  have hminus : ∀ {digits : Bytes}, (∀ b ∈ digits, Decimal.isDigit b = true) →
      ∀ rest, digits ≠ 45 :: rest := fun hdigits rest heq =>
    absurd (hdigits 45 (by simp [heq])) (by decide)
  unfold text at h
  unfold toInt
  unfold Decimal.ofInt at h
  split at h <;> rename_i hneg
  · rw [if_pos hneg]
    split at h
    · rw [(List.cons.inj h).2, Decimal.value_ofNat]
      omega
    · exact absurd h.symm (hminus Decimal.isDigit_of_mem_ofNat _)
  · rw [if_neg hneg]
    split at h
    · exact absurd h (hminus i.digits_ok _)
    · rw [h, Decimal.value_ofNat]
      omega

/-! ## Whitespace -/

/-- **Whitespace before a token** makes no difference, of a token that does
not begin with it. -/
theorem spells_spaces {space head : Bytes} {c : UInt8} (hspace : Spaces space)
    (htoken : token.text = c :: head) (hc : isSpace c = false) :
    Spells (token :: tokens) (space ++ text) ↔ Spells (token :: tokens) text := by
  constructor
  · intro h
    obtain ⟨space', rest, hspace', hrest, htext⟩ := spells_cons_iff.mp h
    rcases List.append_eq_append_iff.mp htext with ⟨d, rfl, rfl⟩ | ⟨d, rfl, hd⟩
    · exact .cons (fun b hb => hspace' b (List.mem_append_right _ hb)) hrest
    · cases d with
      | nil =>
          rw [List.nil_append] at hd
          exact hd ▸ .cons spaces_nil hrest
      | cons e d =>
          rw [htoken, List.cons_append] at hd
          have he := hspace e (by simp)
          rw [← (List.cons.inj hd).1, hc] at he
          cases he
  · intro h
    obtain ⟨space', rest, hspace', hrest, rfl⟩ := spells_cons_iff.mp h
    rw [← List.append_assoc]
    exact .cons (fun b hb => (List.mem_append.mp hb).elim (hspace b) (hspace' b)) hrest

theorem spells_integer_spaces {space : Bytes} (hspace : Spaces space) :
    Spells (.integer i :: tokens) (space ++ text) ↔ Spells (.integer i :: tokens) text := by
  have hne : i.text ≠ [] := by
    unfold Integer.text
    split
    · exact List.cons_ne_nil _ _
    · exact i.nonempty
  obtain ⟨c, head, htext⟩ := List.exists_cons_of_ne_nil hne
  exact spells_spaces hspace htext
    (isSpace_of_isNumeric (i.isNumeric_of_mem_text c (by simp [htext])))

end Json
