import Rinha.Common.Decimal
import Rinha.Common.RingLog
import Rinha.Store.Commits
import Rinha.Store.Ledger
import Rinha.Server.Model.ToJson
import Rinha.Server.Statement
import Rinha.Common.Http
import Rinha.Server.Model.RequestProcessor
import Rinha.Server.Verdict
import Rinha.Server.Effect
import Rinha.Server.Framing
import Rinha.Server.Model.IoThreadPool
import Rinha.Server.Noninterference
import Rinha.Server.Parse
import Rinha.Server.ReadLoop
import Rinha.Store.Model.HandlerSocket
import Rinha.Store.Acknowledge
import Rinha.Common.Lease
import Rinha.Router.Model.Router
import Rinha.Router.Model.Pool
import Rinha.Router.Ring
import Rinha.Router.Orderly
import Rinha.Router.Exhaustion
import Rinha.Router.Model.Network
import Rinha.Router.HandleMessage
import Rinha.Router.Isolation
import Rinha.Router.Conservation
import Rinha.Router.Model.Traffic
import Rinha.Router.Abort
import Rinha.Server.View
import Rinha.Server.Reuse
import Rinha.Server.Path
import Rinha.Store.Synchrony
import Rinha.Store.Model.StartUp
import Rinha.Store.StartUp
import Rinha.Common.Json
import Rinha.Server.Layout
import Rinha.Server.Model.PostBody
import Rinha.Server.PostBody
import Rinha.Server.WriteRead
import Rinha.Server.Model.Extrato
import Rinha.Server.Extrato
import Rinha.Server.Language
import Rinha.Server.Rendering
import Rinha.Server.Model.Reads
import Rinha.Server.Bounds
import Rinha.Server.TransactionResponse
import Rinha.Server.Send
import Rinha.Router.Forward
import Rinha.Server.Drain
import Rinha.Store.Numbering
import Rinha.Store.Retries
import Rinha.Store.Progress
import Rinha.Store.Reading
import Rinha.Server.TransactionRing
import Rinha.Common.RingCounter
import Rinha.Router.Slots
import Rinha.Common.Memory
import Rinha.Common.Delimited
import Rinha.Dena.Model.StringBuffer
import Rinha.Dena.Model.Escape
import Rinha.Dena.Model.Hstcpcli
import Rinha.Dena.StringBuffer
import Rinha.Dena.Escape
import Rinha.Dena.Request
import Rinha.Dena.Response
import Rinha.Dena.Pipeline
import Rinha.Dena.Simulation
import Rinha.Dena.Model.HandlerSocket
import Rinha.Store.Image
import Rinha.Store.Model.Image
import Rinha.Common.Implements
import Rinha.Dena.Opening
import Rinha.Dena.Table
import Rinha.Dena.Initialize
import Rinha.Common.Linearizable
import Rinha.Common.TicketRing
import Rinha.Router.Interleaving
import Rinha.Store.Linearized
import Rinha.Router.Relay
import Rinha.Common.Bank
import Rinha.Server.Bank
import Rinha.Server.Accounts
import Rinha.Common.Threads
import Rinha.Server.Model.ThreadPool
import Rinha.Server.ThreadPool
