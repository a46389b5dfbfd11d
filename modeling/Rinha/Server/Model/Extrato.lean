import Rinha.Server.Model.PostBody
/-!
# A statement as JSON

What a statement is meant to be: an object of the balance and of the last
transactions, with these members in this order, and valid JSON.
-/

namespace Rinha

open Json

/-- A transaction of a statement. -/
structure Entry where
  valor : Integer
  tipo : Str
  descricao : Str
  realizadaEm : Str

def Entry.tokens (e : Entry) : List Token :=
  [.punct 123, key (Text.bytes "valor") all_isPlain_valor, .punct 58, .integer e.valor, .punct 44,
    key (Text.bytes "tipo") all_isPlain_tipoKey, .punct 58, .string e.tipo, .punct 44,
    key (Text.bytes "descricao") all_isPlain_descricao, .punct 58, .string e.descricao, .punct 44,
    key (Text.bytes "realizada_em") (by decide), .punct 58, .string e.realizadaEm, .punct 125]

/-- The entries, with commas between them. -/
def entryTokens : List Entry → List Token
  | [] => []
  | e :: es => e.tokens ++ ((if es.isEmpty then [] else [.punct 44]) ++ entryTokens es)

/-- A statement. -/
structure Extrato where
  total : Integer
  dataExtrato : Str
  limite : Integer
  ultimasTransacoes : List Entry

def Extrato.tokens (e : Extrato) : List Token :=
  [.punct 123, key (Text.bytes "saldo") (by decide), .punct 58, .punct 123,
    key (Text.bytes "total") (by decide), .punct 58, .integer e.total, .punct 44,
    key (Text.bytes "data_extrato") (by decide), .punct 58, .string e.dataExtrato, .punct 44,
    key (Text.bytes "limite") (by decide), .punct 58, .integer e.limite, .punct 125, .punct 44,
    key (Text.bytes "ultimas_transacoes") (by decide), .punct 58, .punct 91] ++
    entryTokens e.ultimasTransacoes ++ [.punct 93, .punct 125]

/-- The text is a statement, in JSON. -/
def IsExtrato (text : Bytes) : Prop := ∃ e : Extrato, Spells e.tokens text

end Rinha
