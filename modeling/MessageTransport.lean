import MessageTransport.Clock.EventCount
import MessageTransport.Clock.Invariance
import MessageTransport.Clock.Outliers
import MessageTransport.Clock.Soundness
import MessageTransport.Common.Publisher
import MessageTransport.Common.Subscriber
import MessageTransport.Common.Timer
import MessageTransport.Lib.Bytes
import MessageTransport.Lib.Monitor
import MessageTransport.Lib.ObjectStore
import MessageTransport.Lib.Run
import MessageTransport.Serialization.Accesses
import MessageTransport.Serialization.Accounting
import MessageTransport.Serialization.BulkCopy
import MessageTransport.Serialization.Decoding
import MessageTransport.Serialization.Overrun
import MessageTransport.Serialization.RoundTrip
import MessageTransport.Serialization.Tape
import MessageTransport.Serialization.Truncation
import MessageTransport.Serialization.Wire
import MessageTransport.Sharedmem.Contracts
import MessageTransport.Sharedmem.Delivery
import MessageTransport.Sharedmem.Freshness
import MessageTransport.Sharedmem.Indexing
import MessageTransport.Sharedmem.Isolation
import MessageTransport.Sharedmem.NameTable
import MessageTransport.Sharedmem.Overlay
import MessageTransport.Sharedmem.Publisher
import MessageTransport.Sharedmem.Receiving
import MessageTransport.Sharedmem.ReleasePool
import MessageTransport.Sharedmem.Reservation
import MessageTransport.Sharedmem.Segments
import MessageTransport.Sharedmem.StaleHandles
import MessageTransport.Sharedmem.Subscriber
import MessageTransport.Sync.Alone
import MessageTransport.Sync.Deadlock
import MessageTransport.Sync.Exclusion
import MessageTransport.Sync.Growth
import MessageTransport.Sync.History
import MessageTransport.Sync.Killed
import MessageTransport.Sync.Order
import MessageTransport.Sync.Owners
import MessageTransport.Sync.Stores
import MessageTransport.Sync.Tables
import MessageTransport.Sync.Views
