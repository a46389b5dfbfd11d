import Rinha.Common.Decimal
import Rinha.Store.Model.MariaDatabase
/-!
# `to_json.cc`

The statement of a customer. A `char` array is read as a C string, up to
its NUL.
-/

namespace Rinha

def kTotal : Bytes := Text.bytes "\x7b\"saldo\":\x7b\"total\":"
def kData : Bytes := Text.bytes ",\"data_extrato\":\""
def kLimite : Bytes := Text.bytes "\",\"limite\":"
def kUltimas : Bytes := Text.bytes "\x7d,\"ultimas_transacoes\":["
def kTransacaoValor : Bytes := Text.bytes "\x7b\"valor\":"
def kTransacaoTipo : Bytes := Text.bytes ",\"tipo\":\""
def kTransacaoDescricao : Bytes := Text.bytes "\",\"descricao\":\""
def kTransacaoRealizada : Bytes := Text.bytes "\",\"realizada_em\":\""
def kTransacaoEnd : Bytes := Text.bytes "\"\x7d"
def kEnd : Bytes := Text.bytes "]\x7d"

/-- The comma between two entries. -/
def comma : Bytes := Text.bytes ","

/-- `to_json(const Transaction &)`. -/
def transactionToJson (transaction : Transaction) : Bytes :=
  kTransacaoValor ++
    Decimal.ofInt (if transaction.value > 0 then transaction.value else -transaction.value).toInt ++
    kTransacaoTipo ++ (if transaction.value > 0 then Text.bytes "c" else Text.bytes "d") ++
    kTransacaoDescricao ++ Text.cstr transaction.description.toList ++
    kTransacaoRealizada ++ Text.cstr transaction.timestamp.toList ++ kTransacaoEnd

/-- `transactions[i]`. A read outside the array is undefined and gives the
zero record here. -/
def slot (transactions : Vector Transaction 10) (i : ℕ) : Transaction :=
  transactions[i]?.getD Transaction.zero

/-- `for (int i = next_transaction_index - 1; i >= 0; i--)`, on `i + 1`. -/
def toJsonDown (transactions : Vector Transaction 10) : ℕ → Bytes
  | 0 => []
  | i + 1 =>
      transactionToJson (slot transactions i) ++ (if i ≠ 0 then comma else []) ++
        toJsonDown transactions i

/-- `for (int j = 0; j < 10; j++)`, on the `10 - j` passes left. -/
def toJsonRing (transactions : Vector Transaction 10) : ℕ → ℤ → Bytes
  | 0, _ => []
  | left + 1, i =>
      transactionToJson (slot transactions i.toNat) ++ (if left ≠ 0 then comma else []) ++
        toJsonRing transactions left ((i - 1 + 10).tmod 10)

/-- `to_json` of the ring: downward from the last slot while it fills, and
all the way round once it has. -/
def transactionsToJson (transactions : Vector Transaction 10) (transactionCount : ℤ)
    (nextTransactionIndex : ℤ) : Bytes :=
  if transactionCount < 10 then toJsonDown transactions nextTransactionIndex.toNat
  else toJsonRing transactions 10 ((nextTransactionIndex - 1 + 10).tmod 10)

/-- `CustomerToJson`. -/
def customerToJson (customer : Customer) (dataExtrato : Bytes) : Bytes :=
  kTotal ++ Decimal.ofInt customer.balance.toInt ++ kData ++ dataExtrato ++ kLimite ++
    Decimal.ofInt customer.limit.toInt ++ kUltimas ++
    transactionsToJson customer.transactions customer.transactionCount.toInt
      customer.nextTransactionIndex.toInt ++ kEnd

end Rinha
