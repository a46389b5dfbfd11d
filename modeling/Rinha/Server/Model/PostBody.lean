import Rinha.Common.Json
import Rinha.Store.Model.Structs
/-!
# A transaction as JSON

What a client sends: an object of an integer `valor`, a string `tipo` and
a string `descricao`, in this order and with any whitespace. `Agrees` is
what the transaction means that such a body stands for.
-/

namespace Rinha

open Json

theorem all_isPlain_valor : (Text.bytes "valor").all isPlain = true := by decide

theorem all_isPlain_tipoKey : (Text.bytes "tipo").all isPlain = true := by decide

theorem all_isPlain_descricao : (Text.bytes "descricao").all isPlain = true := by decide

/-- The members of the object. -/
def postTokens (valor : Integer) (tipo descricao : Str) : List Token :=
  [.punct 123, key (Text.bytes "valor") all_isPlain_valor, .punct 58, .integer valor, .punct 44,
    key (Text.bytes "tipo") all_isPlain_tipoKey, .punct 58, .string tipo, .punct 44,
    key (Text.bytes "descricao") all_isPlain_descricao, .punct 58, .string descricao,
    .punct 125]

/-- A body: `space i` stands before its token `i`, and `space 13` behind the
last. -/
structure PostBody where
  valor : Integer
  tipo : Str
  descricao : Str
  space : ℕ → Bytes
  space_ok : ∀ i, Spaces (space i)

namespace PostBody

variable (p : PostBody)

/-- What stands before `valor`. -/
def beforeValor : Bytes :=
  p.space 0 ++ 123 :: (p.space 1 ++ Text.bytes "\"valor\"" ++ p.space 2 ++ 58 :: p.space 3)

/-- What stands between the first comma and the quote of `tipo`. -/
def beforeTipo : Bytes := p.space 5 ++ Text.bytes "\"tipo\"" ++ p.space 6 ++ 58 :: p.space 7

/-- What stands between the quote behind `tipo` and that of `descricao`. -/
def beforeDescricao : Bytes :=
  p.space 8 ++ 44 :: (p.space 9 ++ Text.bytes "\"descricao\"" ++ p.space 10 ++ 58 :: p.space 11)

def encode : Bytes :=
  p.beforeValor ++ p.valor.text ++ p.space 4 ++ 44 :: (p.beforeTipo ++ 34 :: (p.tipo.text ++
    34 :: (p.beforeDescricao ++ 34 :: (p.descricao.text ++
      34 :: (p.space 12 ++ 125 :: p.space 13)))))

theorem encode_eq :
    p.encode = spell p.space 0 (postTokens p.valor p.tipo p.descricao) := by
  simp [encode, beforeValor, beforeTipo, beforeDescricao, postTokens, spell, Token.text, key,
    Text.bytes]

/-- **The bodies are the spellings** of the three members. -/
theorem spells_iff {valor : Integer} {tipo descricao : Str} {text : Bytes} :
    Spells (postTokens valor tipo descricao) text ↔
      ∃ p : PostBody, p.valor = valor ∧ p.tipo = tipo ∧ p.descricao = descricao ∧
        p.encode = text := by
  constructor
  · intro h
    obtain ⟨space, hspace, rfl⟩ := exists_spell h 0
    exact ⟨⟨valor, tipo, descricao, space, hspace⟩, rfl, rfl, rfl, encode_eq _⟩
  · rintro ⟨p, rfl, rfl, rfl, rfl⟩
    rw [encode_eq]
    exact spells_spell p.space_ok 0

/-- `tipo` is the letter `c`, itself or escaped. -/
def Credit : Prop := p.tipo.text = Text.bytes "c" ∨ p.tipo.text = Text.bytes "\\u0063"

/-- `tipo` is the letter `d`. -/
def Debit : Prop := p.tipo.text = Text.bytes "d" ∨ p.tipo.text = Text.bytes "\\u0064"

/-- The transaction is the one the body stands for. -/
structure Agrees (transaction : Transaction) : Prop where
  nonneg : 0 ≤ p.valor.toInt
  value : p.Credit ∧ transaction.value.toInt = p.valor.toInt ∨
    p.Debit ∧ transaction.value.toInt = -p.valor.toInt
  description : Text.cstr transaction.description.toList = p.descricao.text

/-! ## What the parser has room for -/

/-- The whitespace before `valor`, between the first comma and `tipo`, and
between `tipo` and `descricao`. -/
def lead : ℕ :=
  (p.space 0).length + (p.space 1).length + (p.space 2).length + (p.space 3).length
def mid : ℕ := (p.space 5).length + (p.space 6).length + (p.space 7).length
def tail : ℕ :=
  (p.space 8).length + (p.space 9).length + (p.space 10).length + (p.space 11).length

/-- How much of the description the parser passes over. -/
def skip : ℕ := 5 - (p.mid + p.tipo.text.length + p.tail)

/-- No whitespace stands before the first comma and around the end, and so
little elsewhere that the fixed indices meet digits, a `c` or a `d` of
`tipo`, and the description. -/
structure Passes : Prop where
  comma : p.space 4 = []
  close : p.space 12 = [] ∧ p.space 13 = []
  lead : p.lead = 0 ∨ p.lead = 1 ∧ p.valor.negative = false
  mid : p.mid ≤ 2
  tipo : p.tipo.text[2 - p.mid]? = some 99 ∨ p.tipo.text[2 - p.mid]? = some 100
  room : p.mid + p.tipo.text.length + p.tail ≤ 5
  no_quote : 34 ∉ p.descricao.text.drop p.skip
  description : p.skip < p.descricao.text.length ∧ p.descricao.text.length ≤ p.skip + 10

/-- One blank before `valor` (which may be missing before a zero), and two
before `descricao`; `tipo` is its letter, and the amount fits. -/
structure Faithful : Prop where
  lead : p.lead = 1 ∨ p.valor.toInt = 0
  tail : p.tail = 2
  value : p.tipo.text = Text.bytes "c" ∧ p.valor.toInt < 2 ^ 31 ∨
    p.tipo.text = Text.bytes "d" ∧ p.valor.toInt ≤ 2 ^ 31

end PostBody

end Rinha
