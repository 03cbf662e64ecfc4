import CrossbeamChannel.Lib.Transition
import CrossbeamChannel.Lib.Threads
import CrossbeamChannel.Lib.Alone
import CrossbeamChannel.Lib.Lives
import CrossbeamChannel.Lib.Tickets
import CrossbeamChannel.Lib.Counters
import CrossbeamChannel.Lib.Fifo
import CrossbeamChannel.Lib.Swaps
import CrossbeamChannel.Lib.VecDeque
import CrossbeamChannel.Lib.Handover
import CrossbeamChannel.Lib.Cover
import CrossbeamChannel.Flavors.Array
import CrossbeamChannel.Flavors.ArrayStamp
import CrossbeamChannel.Flavors.ArrayInv
import CrossbeamChannel.Flavors.ArrayStep
import CrossbeamChannel.Flavors.ArrayFifo
import CrossbeamChannel.Flavors.ArrayWrap
import CrossbeamChannel.Flavors.ArraySequential
import CrossbeamChannel.Flavors.List
import CrossbeamChannel.Flavors.ListInv
import CrossbeamChannel.Flavors.ListStep
import CrossbeamChannel.Flavors.ListFifo
import CrossbeamChannel.Flavors.ListReclaim
import CrossbeamChannel.Flavors.Reservation
import CrossbeamChannel.Flavors.ListDrop
import CrossbeamChannel.Flavors.Observers
import CrossbeamChannel.Flavors.Unwind
import CrossbeamChannel.Waker
import CrossbeamChannel.SyncWaker
import CrossbeamChannel.Flavors.Buffer
import CrossbeamChannel.World.Call
import CrossbeamChannel.World.Frame
import CrossbeamChannel.World.Step
import CrossbeamChannel.World.Registry
import CrossbeamChannel.World.Stakes
import CrossbeamChannel.World.Books
import CrossbeamChannel.World.Moves
import CrossbeamChannel.World.Handles
import CrossbeamChannel.World.Typed
import CrossbeamChannel.World.Phases
import CrossbeamChannel.World.Effects
import CrossbeamChannel.World.Meeting
import CrossbeamChannel.World.Disconnect
import CrossbeamChannel.World.Attempts
import CrossbeamChannel.SelectMacro
import CrossbeamChannel.World.Timers
import CrossbeamChannel.World.Delivery
import CrossbeamChannel.World.Deadlines
import CrossbeamChannel.World.TimedSelect
import CrossbeamChannel.World.Sections
import CrossbeamChannel.World.SectionCalls
import CrossbeamChannel.World.SectionBooks
import CrossbeamChannel.World.Scopes
import CrossbeamChannel.World.Packets
import CrossbeamChannel.World.Contexts
import CrossbeamChannel.World.Accesses
import CrossbeamChannel.World.Knowledge
import CrossbeamChannel.World.Deals
import CrossbeamChannel.World.Rendezvous
import CrossbeamChannel.World.Pairing
import CrossbeamChannel.World.Engagements
import CrossbeamChannel.World.History
import CrossbeamChannel.World.Endless
import CrossbeamChannel.World.Tokens
import CrossbeamChannel.World.Assertions
import CrossbeamChannel.World.Records
import CrossbeamChannel.World.Exchange
import CrossbeamChannel.World.OneToOne
import CrossbeamChannel.World.InOrder
import CrossbeamChannel.World.Sleepers
import CrossbeamChannel.World.Wakeups
import CrossbeamChannel.World.Severance
import CrossbeamChannel.World.Decisions
import CrossbeamChannel.World.Finality
import CrossbeamChannel.World.Refusals
import CrossbeamChannel.World.Machines
import CrossbeamChannel.World.Departures
import CrossbeamChannel.World.Overdue
import CrossbeamChannel.World.Selections
import CrossbeamChannel.Shuffle
