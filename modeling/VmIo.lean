import VmIo.Lib.Transition
import VmIo.Lib.Table
import VmIo.Lib.Bytes
import VmIo.Lib.Fs
import VmIo.Lib.Lww
import VmIo.Lib.Paging
import VmIo.Lib.Serde
import VmIo.Lib.Sorted
import VmIo.Lib.Tree
import VmIo.Lib.Semaphore
import VmIo.Lib.UrlPath
import VmIo.Db.Blob
import VmIo.Db.Sql
import VmIo.Db.Store
import VmIo.Db.Files
import VmIo.Db.Steps
import VmIo.Db.Invariants
import VmIo.Db.Vectors
import VmIo.Db.Removal
import VmIo.Db.WriteOnce
import VmIo.Db.CrashSafety
import VmIo.Db.Cleanup
import VmIo.Db.CleanupPass
import VmIo.Db.RoundTrip
import VmIo.Db.NewerWins
import VmIo.Db.Paging
import VmIo.Db.Tampering
import VmIo.Db.NoLeak
import VmIo.Db.Prune
import VmIo.Db.Reading
import VmIo.Db.History
import VmIo.Db.Listing
import VmIo.Db.Identity
import VmIo.Db.Shards
import VmIo.Db.Recovery
import VmIo.Db.Pool
import VmIo.Types.Api
import VmIo.Back.Server
import VmIo.Back.Node
import VmIo.Back.Merge
import VmIo.Back.Concurrent
import VmIo.Back.Order
import VmIo.Back.Counter
import VmIo.Back.Overflow
import VmIo.Back.Restart
import VmIo.Chan.Server
import VmIo.Chan.Connections
import VmIo.Chan.Routing
import VmIo.Chan.Bind
import VmIo.Chan.Client
import VmIo.Chan.Cfg
import VmIo.Back.Auth
import VmIo.Back.Handlers
import VmIo.Back.Service
import VmIo.Back.History
import VmIo.Back.Contention
import VmIo.Back.Guarantees
import VmIo.Back.Alone
import VmIo.Back.Config
import VmIo.Cli.Client
import VmIo.Cli.EndToEnd
