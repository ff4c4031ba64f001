import Wwatp.Cxx.Numbers
import Wwatp.Cxx.Blocks
import Wwatp.Cxx.Outcome
import Wwatp.Transport.SharedSpan
import Wwatp.Tree.Node
import Wwatp.Memory.MemoryTree
import Wwatp.Memory.Transactions
import Wwatp.Memory.LabelRule
import Wwatp.Cxx.OrderedMap
import Wwatp.Memory.Listeners
import Wwatp.Memory.ListenerDelivery
import Wwatp.Memory.SimpleBackend
import Wwatp.Memory.TransactionalBackend
import Wwatp.Memory.Overlay
import Wwatp.Memory.OverlayRuns
import Wwatp.Transport.AppendData
import Wwatp.Transport.Framing
import Wwatp.Cxx.NumberedLog
import Wwatp.Journal.Protocol
import Wwatp.Journal.Safety
import Wwatp.Journal.Runs
import Wwatp.Tree.Text
import Wwatp.Message.Encode
import Wwatp.Message.HTTP3TreeMessage
import Wwatp.Message.WireLegal
import Wwatp.Cxx.InputStream
import Wwatp.Cxx.ReaderLocality
import Wwatp.Tree.Parse
import Wwatp.Tree.ParseLocality
import Wwatp.Message.Decode
import Wwatp.Cxx.StreamText
import Wwatp.Tree.TextRoundTrip
import Wwatp.Message.Codec
import Wwatp.Message.LongString
import Wwatp.Message.MaybeTreeNodeCodec
import Wwatp.Message.TransactionCodec
import Wwatp.Cxx.Effects
import Wwatp.Memory.Atomicity
import Wwatp.Memory.TreeChanges
import Wwatp.Memory.ListenerCalls
import Wwatp.Memory.Registrations
import Wwatp.Cxx.Locks
import Wwatp.Memory.Threadsafe
import Wwatp.Memory.SelfDeadlock
import Wwatp.Memory.NotificationStack
import Wwatp.Memory.LayerCommit
import Wwatp.Structure.MountRouting
import Wwatp.Tree.Labels
import Wwatp.Structure.Composite
import Wwatp.Structure.CompositeTransactions
import Wwatp.Structure.Redirected
import Wwatp.Structure.SubtreeView
import Wwatp.Cxx.Transitions
import Wwatp.Client.Blocking
import Wwatp.Client.WakeUp
import Wwatp.Client.OwnAnswer
import Wwatp.Message.ServerMessage
import Wwatp.Server.Route
import Wwatp.Server.Batching
import Wwatp.Server.StreamReuse
import Wwatp.Server.JournalInvariant
import Wwatp.Server.JournalOnce
import Wwatp.Server.OutcomeReport
import Wwatp.Client.Resync
import Wwatp.Message.Announced
import Wwatp.Message.Locality
import Wwatp.Cxx.KeyedQueues
import Wwatp.Transport.StreamTables
import Wwatp.Transport.OutgoingQueues
import Wwatp.Transport.StreamIdentifiers
import Wwatp.Message.ClientMessage
import Wwatp.Client.RequestPairing
import Wwatp.Client.LocalTransactions
import Wwatp.Cxx.FileSystem
import Wwatp.Cxx.PathNames
import Wwatp.Cxx.Directories
import Wwatp.File.Names
import Wwatp.File.NameParts
import Wwatp.File.NodeFiles
import Wwatp.File.FileBackend
import Wwatp.File.Confinement
import Wwatp.File.Escape
import Wwatp.Cxx.Fuel
import Wwatp.Mediator.Network
import Wwatp.Mediator.NoEcho
import Wwatp.Mediator.EqualTrees
import Wwatp.Mediator.Cloning
import Wwatp.File.Watches
import Wwatp.File.WatchTables
import Wwatp.File.Notifications
import Wwatp.Mediator.YAMLMediator
import Wwatp.Tree.Properties
import Wwatp.Tree.PropertyInsertion
import Wwatp.JavaScript.Properties
import Wwatp.JavaScript.Legible
import Wwatp.JavaScript.BuiltNodes
import Wwatp.JavaScript.CrossLanguage
import Wwatp.Cxx.TopologicalSort
import Wwatp.Server.BackendOrder
import Wwatp.JavaScript.Chunks
import Wwatp.Cxx.Yaml
import Wwatp.Tree.YamlNodes
import Wwatp.Cxx.Preconditions
import Wwatp.Mediator.Callbacks
import Wwatp.Mediator.YAMLCallbacks
import Wwatp.Mediator.ErrorPaths
import Wwatp.Mediator.DocumentNodes
import Wwatp.Mediator.TreeFromYAML
import Wwatp.Mediator.Synchronization
import Wwatp.JavaScript.Versions
import Wwatp.JavaScript.Numbers
import Wwatp.JavaScript.Journal
import Wwatp.Transport.Facade
import Wwatp.JavaScript.LocalBackend
import Wwatp.Cxx.Frames
import Wwatp.JavaScript.Strings
import Wwatp.JavaScript.NodeText
import Wwatp.JavaScript.Codecs
import Wwatp.JavaScript.Framing
import Wwatp.JavaScript.Responses
import Wwatp.JavaScript.ResponseHandler
import Wwatp.JavaScript.Outcomes
import Wwatp.JavaScript.RequestIds
import Wwatp.JavaScript.Reassembly
import Wwatp.JavaScript.Updater
import Wwatp.JavaScript.Waiters
import Wwatp.Cxx.Flooding
import Wwatp.Mediator.Propagation
import Wwatp.Message.Completion
import Wwatp.Cxx.RingOrder
import Wwatp.Mediator.VersionRing
import Wwatp.Memory.ParentDeletion
import Wwatp.Memory.LabelOverlap
import Wwatp.Memory.QueryOverlay
import Wwatp.Tree.Restriction
import Wwatp.Cxx.ReadBack
import Wwatp.Tree.LegibleText
import Wwatp.Cxx.Cutting
import Wwatp.Tree.SharedChunks
import Wwatp.Tree.PropertyStore
import Wwatp.Tree.HeldProperties
import Wwatp.Cxx.NamedEntries
import Wwatp.Tree.StoreRuns
import Wwatp.Tree.InsertionPosition
import Wwatp.Tree.SpanText
import Wwatp.Tree.ObtainedSpans
import Wwatp.Cxx.Loops
import Wwatp.Memory.Deletion
import Wwatp.Cxx.Avoidance
import Wwatp.Memory.Increments
import Wwatp.File.Increments
import Wwatp.Cxx.SortedInsertion
import Wwatp.Server.MutablePage
import Wwatp.Tree.TransactionLabels
import Wwatp.Cxx.Filling
import Wwatp.JavaScript.PropertyChanges
import Wwatp.Cxx.Throwing
import Wwatp.JavaScript.PropertyMethods
import Wwatp.JavaScript.StoredProperties
import Wwatp.JavaScript.PropertyRuns
import Wwatp.Cxx.Doubles
import Wwatp.JavaScript.ChunkSizes
import Wwatp.File.DirectoryChains
import Wwatp.Tree.SpanIterator
import Wwatp.Tree.Equality
import Wwatp.Tree.ConstIterator
import Wwatp.Tree.IteratorSpans
import Wwatp.Cxx.MemoryWrites
import Wwatp.Tree.ChunkedWrites
import Wwatp.Tree.ChunkedCopies
import Wwatp.Tree.ArrayCopies
import Wwatp.Message.Delivery
import Wwatp.Message.Awaited
import Wwatp.Server.RemoteCalls
import Wwatp.Server.Arrivals
import Wwatp.Journal.Replication
import Wwatp.Server.StaticAssets
import Wwatp.Server.StaticStreams
import Wwatp.Client.StaticNode
import Wwatp.Cxx.DepthFirst
import Wwatp.Server.CycleReport
