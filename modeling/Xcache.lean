import Xcache.Filter.Counting
import Xcache.Store.LinearProbing
import Xcache.Store.KV
import Xcache.Client.Get
import Xcache.CCEH.Segment
import Xcache.CCEH.Table
import Xcache.CCEH.Invariant
import Xcache.CCEH.Termination
import Xcache.CCEH.Crowding
import Xcache.CCEH.Doubling
import Xcache.CCEH.StoreLaw
import Xcache.CCEH.Machine
import Xcache.Lib.SuspendLock
import Xcache.CCEH.Steps
import Xcache.CCEH.LockAccounting
import Xcache.Lib.SplitDirectory
import Xcache.CCEH.DirectoryLock
import Xcache.CCEH.Facts
import Xcache.CCEH.Consistency
import Xcache.Filter.Client
import Xcache.Filter.History
import Xcache.Store.CuckooProbing
import Xcache.Store.CuckooValues
import Xcache.Lib.Range
import Xcache.Remote.Layout
import Xcache.Remote.Pages
import Xcache.Lib.Runs
import Xcache.Remote.Connect
import Xcache.Remote.Push
import Xcache.Lib.Memory
import Xcache.Remote.Queues
import Xcache.Remote.Batches
import Xcache.Remote.ReadQueues
import Xcache.Store.Maps
import Xcache.Remote.Gets
import Xcache.Remote.Origins
import Xcache.Remote.Cleancache
import Xcache.Store.CuckooFilter
import Xcache.Lib.Dyadic
import Xcache.Extent.Store
import Xcache.Extent.Default
import Xcache.Extent.Hybrid
import Xcache.Lib.CyclicOrder
import Xcache.Lib.LinkedRing
import Xcache.HotRing.Table
import Xcache.HotRing.Rings
import Xcache.HotRing.Lookup
import Xcache.HotRing.Rehash
import Xcache.Lib.Displace
import Xcache.Store.Cells
import Xcache.Store.CuckooHash
import Xcache.Lib.LevelTree
import Xcache.Store.PathHashing
import Xcache.Lib.LowBits
import Xcache.Store.ExtendibleHash
import Xcache.Store.ExtendibleLaw
import Xcache.Caches.Policies
import Xcache.Caches.FixedSized
import Xcache.Caches.Evictions
import Xcache.Client.Dram
import Xcache.Client.PutErrors
import Xcache.Store.LinearOrder
import Xcache.Lib.TwoChoice
import Xcache.Store.LevelHashing
import Xcache.Lib.TicketRing
import Xcache.Queue.Circular
import Xcache.CCEH.Split
import Xcache.CCEH.Recovery
import Xcache.Filter.Serialize
import Xcache.Filter.Underflow
import Xcache.HotRing.Delete
import Xcache.HotRing.Shift
import Xcache.CCEH.Indexing
import Xcache.Extent.Tiling
import Xcache.Lib.Lanes
import Xcache.Remote.Entries
import Xcache.Remote.Fresh
import Xcache.Remote.Books
import Xcache.Remote.Notice
import Xcache.Remote.Returns
import Xcache.Remote.Swap
import Xcache.CCEH.Slots
import Xcache.CCEH.Kept
import Xcache.CCEH.Visible
import Xcache.Lib.RegionLocks
import Xcache.Store.LinearLocks
import Xcache.Store.LevelInsert
import Xcache.CCEH.Scan
