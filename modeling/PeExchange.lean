import PeExchange.Lib.Transition
import PeExchange.Lib.CArith
import PeExchange.Lib.PriorityFill
import PeExchange.Lib.Scanf
import PeExchange.Lib.Cell
import PeExchange.Common
import PeExchange.Messages
import PeExchange.Orderbook
import PeExchange.Matching
import PeExchange.Commands
import PeExchange.System
import PeExchange.Theory.Trades
import PeExchange.Theory.Outcome
import PeExchange.Theory.Books
import PeExchange.Theory.Priority
import PeExchange.Theory.Rejection
import PeExchange.Theory.Uncrossed
import PeExchange.Theory.Wrapping
import PeExchange.Lib.Fields
import PeExchange.Lib.Framing
import PeExchange.Lib.Ladder
import PeExchange.Reader
import PeExchange.Theory.Accounting
import PeExchange.Theory.Delivery
import PeExchange.Theory.Depth
import PeExchange.Theory.Fills
import PeExchange.Theory.Grammar
import PeExchange.Theory.Settlement
import PeExchange.Lib.RingBuffer
import PeExchange.Lib.Locality
import PeExchange.Signals
import PeExchange.Theory.Queues
import PeExchange.Trader
import PeExchange.Theory.RoundTrip
import PeExchange.Theory.AutoTrader
import PeExchange.MainLoop
import PeExchange.Theory.Record
import PeExchange.Theory.Departures
import PeExchange.Theory.Endings
import PeExchange.Theory.Severed
import PeExchange.Theory.Iterations
import PeExchange.World
import PeExchange.Theory.Leaving
import PeExchange.Theory.Commuting
import PeExchange.Theory.Ranges
import PeExchange.Theory.Identity
import PeExchange.Theory.Amending
import PeExchange.Session
import PeExchange.Theory.Agreement
import PeExchange.Lib.Lines
import PeExchange.ProductFile
import PeExchange.Theory.ProductNames
import PeExchange.Theory.Buffers
import PeExchange.Lib.Heap
import PeExchange.Lib.DoublyLinked
import PeExchange.HeapModel
import PeExchange.Theory.Orderbooks
import PeExchange.Theory.HeapRefinement
import PeExchange.Theory.Ownership
import PeExchange.Lib.SortedQueue
import PeExchange.Theory.Market
import PeExchange.Theory.MarketRefinement
import PeExchange.Lib.LadderFill
import PeExchange.Theory.Foretelling
import PeExchange.Lib.SinglyLinked
import PeExchange.LevelHeap
import PeExchange.Theory.Levels
import PeExchange.Theory.Freeing
import PeExchange.Lib.Layout
import PeExchange.Printing
import PeExchange.Theory.Reports
import PeExchange.Theory.Wire
import PeExchange.Theory.Client
import PeExchange.Lib.Rendezvous
import PeExchange.Startup
import PeExchange.Theory.Startup
import PeExchange.Lib.Accumulator
import PeExchange.Theory.Ledger
import PeExchange.Theory.Exactness
import PeExchange.Theory.Symmetry
import PeExchange.Theory.Serial
import PeExchange.Theory.CatchUp
