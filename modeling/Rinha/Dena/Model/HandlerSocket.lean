import Rinha.Dena.Model.Hstcpcli
import Rinha.Store.Model.HandlerSocket
/-!
# `handler_socket.cc`, byte by byte

The two calls over the client of buffers. A `Customer` goes to the store as
the bytes it has in memory, padding included, and comes back as whatever
lies behind the address of a row's data field: nothing is parsed, and the
size of the field is not looked at.
-/

namespace Rinha
namespace Dena

/-! ## The requests -/

/-- `id_buf`. -/
def idBuf (id : Fin 5) : Bytes := [UInt8.ofNat (id + 48)]

/-- `std::to_string`. -/
def toString (x : Int32) : Bytes := Decimal.ofInt x.toInt

/-- What `ReadCustomerHs` asks for. -/
def findCustomer (pstId : ℕ) (id : Fin 5) : Hstcpcli.ExecGeneric where
  pstId := pstId
  op := [61]
  kvs := [some (idBuf id)]
  limit := 0
  skip := 0
  modOp := []
  mvs := []

/-- What `WriteCustomerHs` asks for. -/
def updateCustomer (pstId : ℕ) (id : Fin 5) (data : Bytes) (version : Int32) :
    Hstcpcli.ExecGeneric where
  pstId := pstId
  op := [61]
  kvs := [some (idBuf id), some (toString version)]
  limit := 0
  skip := 0
  modOp := [85]
  mvs := [some (idBuf id), some data, some (toString (version + 1))]

/-! ## The calls -/

/-- The `thread_local` clients with their ids, and the store. -/
structure Clients (σ : Type) where
  readPtr : Hstcpcli
  readPtrId : ℕ
  writePtr : Hstcpcli
  writePtrId : ℕ
  peer : σ

/-- A call, which an exception of `std::stoi` may end. -/
abbrev Bytewise (σ : Type) := StateT (Clients σ) (Except Halt)

/-- The loop over a row's fields in `ReadCustomerHs`, from field `i` on. -/
def readFields (mem : ℕ → UInt8) : ℕ → List (Option (ℕ × ℕ)) → Customer × Int32 →
    Option (Customer × Int32)
  | _, [], out => some out
  | i, none :: row, out => readFields mem (i + 1) row out
  | i, some (start, size) :: row, (customer, version) =>
      let customer := if i = 1 then Customer.ofMemory mem start else customer
      if i = 2 then
        (stoi (Memory.slice mem start size)).bind fun version =>
          readFields mem (i + 1) row (customer, version)
      else readFields mem (i + 1) row (customer, version)

/-- The loop over the rows, at most so many times. -/
def readRows : ℕ → Hstcpcli → Customer × Int32 → Option ((Customer × Int32) × Hstcpcli)
  | 0, c, out => some (out, c)
  | left + 1, c, out =>
      match c.getNextRow with
      | (none, c) => some (out, c)
      | (some row, c) => (readFields c.readbuf.buffer 0 row out).bind (readRows left c)

/-- `ReadCustomerHs`. -/
def readCustomerHs {σ : Type} (net : Network σ) (id : Fin 5) (customer : Customer)
    (version : Int32) : Bytewise σ (Bool × Customer × Int32) := fun clients =>
  let c := clients.readPtr.requestBufExecGeneric (findCustomer clients.readPtrId id)
  let ((sent, c), peer) := Hstcpcli.requestSend net c clients.peer
  let clients := { clients with readPtr := c, peer := peer }
  if sent ≠ 0 then .ok ((false, customer, version), clients) else
  if c.errorCode ≠ 0 then .ok ((false, customer, version), clients) else
  let (_, _, c) := c.responseRecv 0
  let clients := { clients with readPtr := c }
  if c.errorCode ≠ 0 then .ok ((false, customer, version), clients) else
  match readRows c.responseEndOffset c (customer, version) with
  | none => .error .terminated
  | some ((customer, version), c) =>
      .ok ((true, customer, version), { clients with readPtr := c.responseBufRemove })

/-- The loop over a row's fields in `WriteCustomerHs`. -/
def modifiedFields (mem : ℕ → UInt8) : List (Option (ℕ × ℕ)) → Bool → Option Bool
  | [], modified => some modified
  | none :: row, modified => modifiedFields mem row modified
  | some (start, size) :: row, modified =>
      (stoi (Memory.slice mem start size)).bind fun modifiedRows =>
        modifiedFields mem row (modified || decide (modifiedRows > 0))

/-- The loop over the rows, at most so many times. -/
def modifiedRows : ℕ → Hstcpcli → Bool → Option (Bool × Hstcpcli)
  | 0, c, modified => some (modified, c)
  | left + 1, c, modified =>
      match c.getNextRow with
      | (none, c) => some (modified, c)
      | (some row, c) => (modifiedFields c.readbuf.buffer row modified).bind (modifiedRows left c)

/-- `WriteCustomerHs` of a `Customer` with some padding. Two of its failure
exits `return 1`. -/
def writeCustomerHs {σ : Type} (net : Network σ) (padding : ℕ → UInt8) (id : Fin 5)
    (customer : Customer) (version : Int32) : Bytewise σ Bool := fun clients =>
  let c := clients.writePtr.requestBufExecGeneric
    (updateCustomer clients.writePtrId id (customer.image padding) version)
  let ((sent, c), peer) := Hstcpcli.requestSend net c clients.peer
  let clients := { clients with writePtr := c, peer := peer }
  if sent ≠ 0 then .ok (false, clients) else
  if c.errorCode ≠ 0 then .ok (true, clients) else
  let (e, _, c) := c.responseRecv 0
  let clients := { clients with writePtr := c }
  if c.errorCode ≠ 0 then .ok (true, clients) else
  match modifiedRows c.responseEndOffset c false with
  | none => .error .terminated
  | some (modified, c) =>
      .ok (modified, { clients with writePtr := if e ≥ 0 then c.responseBufRemove else c })

/-- The two calls, byte by byte. -/
def byteSocket {σ : Type} (net : Network σ) (padding : ℕ → UInt8) :
    HandlerSocket (Bytewise σ) where
  readCustomerHs := readCustomerHs net
  writeCustomerHs := writeCustomerHs net padding

/-! ## Start-up -/

/-- What `socket_connect` comes to for a new client, and what its memory holds. -/
structure Connection where
  fdOpen : Bool
  failure : Option Bytes
  memory : ℕ → UInt8

/-- `hstcpcli_i::create`. -/
def Connection.create (connection : Connection) : Hstcpcli :=
  .create connection.fdOpen connection.failure connection.memory

/-- The arguments of `request_buf_open_index`. -/
def openUsers (pstId : ℕ) (idx : String) : Hstcpcli.OpenIndex where
  pstId := pstId
  dbn := Text.bytes "mydb"
  tbl := Text.bytes "Users"
  idx := Text.bytes idx
  retflds := Text.bytes "id,data,version"

/-- Half of `InitializeHs`: a client asks for its index. Of what comes back
only a positive code ends the start-up. -/
def openIndex {σ : Type} (net : Network σ) (c : Hstcpcli) (r : Hstcpcli.OpenIndex) (peer : σ) :
    Bool × Hstcpcli × σ :=
  let ((sent, c), peer) := Hstcpcli.requestSend net (c.requestBufOpenIndex r) peer
  if sent ≠ 0 then (false, c, peer) else
  let (_, _, c) := c.responseRecv 0
  if c.errorCode ≥ 0 then
    if c.errorCode ≠ 0 then (false, c, peer) else (true, c.responseBufRemove, peer)
  else (true, c, peer)

/-- `InitializeHs`, with the numbers `id_count` gives out. -/
def initializeHs {σ : Type} (net : Network σ) (read write : Connection) (readId writeId : ℕ)
    (clients : Clients σ) : Bool × Clients σ :=
  let (success, c, peer) :=
    openIndex net read.create (openUsers readId "handlers_index") clients.peer
  let clients := { clients with readPtr := c, readPtrId := readId, peer := peer }
  if !success then (false, clients) else
  let (success, c, peer) := openIndex net write.create (openUsers writeId "writers_index") peer
  (success, { clients with writePtr := c, writePtrId := writeId, peer := peer })

end Dena
end Rinha
