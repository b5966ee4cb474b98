import ProjectDb.Text
import ProjectDb.Prog
import ProjectDb.Mvcc
import ProjectDb.Status
import ProjectDb.Path
import ProjectDb.Schema
import ProjectDb.Wire
import ProjectDb.Sql
import ProjectDb.Handler
import ProjectDb.Idem
import ProjectDb.Register
import ProjectDb.Declaration
import ProjectDb.Grants
import ProjectDb.Sync
import ProjectDb.Touch
import ProjectDb.Resolve
import ProjectDb.Eval
import ProjectDb.Resolution
import ProjectDb.Integrity
import ProjectDb.Validation
import ProjectDb.Lookup
import ProjectDb.Planning
import ProjectDb.Growth
import ProjectDb.Upsert
import ProjectDb.Regrant
import ProjectDb.Converge
import ProjectDb.Calls
import ProjectDb.Convergence
import ProjectDb.Totality
import ProjectDb.Acceptance
import ProjectDb.Reapply
import ProjectDb.Coherence
import ProjectDb.Protobuf
import ProjectDb.Encoding
import ProjectDb.Reference
import ProjectDb.Reach
import ProjectDb.Stability
import ProjectDb.Isolation
import ProjectDb.Flush
import ProjectDb.Counter
import ProjectDb.Storable
import ProjectDb.Ledger
import ProjectDb.Read
import ProjectDb.Reading
import ProjectDb.Agreement
import ProjectDb.Listing
import ProjectDb.Paging
import ProjectDb.Simulation
import ProjectDb.Confinement
import ProjectDb.Organisation
import ProjectDb.Commutation
import ProjectDb.Outcome
import ProjectDb.Interference
import ProjectDb.Interleaving
import ProjectDb.Concurrent
import ProjectDb.Snapshot
import ProjectDb.Transaction
import ProjectDb.Serial
import ProjectDb.Calm
import ProjectDb.Unmatched
import ProjectDb.Bulk
import ProjectDb.Restart
import ProjectDb.Ddl
import ProjectDb.Migrations
import ProjectDb.Pooled
import ProjectDb.Phases
import ProjectDb.Cancellation
import ProjectDb.Borrowing
import ProjectDb.Unseen
import ProjectDb.Discipline
import ProjectDb.Writers
import ProjectDb.Disjoint
import ProjectDb.Turns
import ProjectDb.Holding
import ProjectDb.Orderly
import ProjectDb.Serialization
import ProjectDb.Replays
import ProjectDb.History
import ProjectDb.Retries
import ProjectDb.Locks
import ProjectDb.Queue
import ProjectDb.Seen
import ProjectDb.Flushing
import ProjectDb.Flushes
import ProjectDb.LockOrder
import ProjectDb.Overtaking
import ProjectDb.Deliveries
import ProjectDb.OncePerKey
