import ConfigDb.Effect.Prog
import ConfigDb.Effect.Store
import ConfigDb.Effect.Txn
import ConfigDb.Effect.Crash
import ConfigDb.Effect.Interleave
import ConfigDb.Effect.Runs
import ConfigDb.Effect.Mutex
import ConfigDb.Effect.Serial
import ConfigDb.Effect.Shards
import ConfigDb.Effect.Spin
import ConfigDb.Stream.Layout
import ConfigDb.Stream.Table
import ConfigDb.Tree.Forest
import ConfigDb.Storage.Basic
import ConfigDb.Storage.Decimal
import ConfigDb.Storage.Path
import ConfigDb.Storage.Components
import ConfigDb.Storage.Database
import ConfigDb.Storage.Machine
import ConfigDb.Storage.Commit
import ConfigDb.Storage.View
import ConfigDb.Storage.Items
import ConfigDb.Storage.WellFormed
import ConfigDb.Storage.Calls
import ConfigDb.Storage.Nodes
import ConfigDb.Storage.Listing
import ConfigDb.Storage.Pruning
import ConfigDb.Storage.Insertion
import ConfigDb.Storage.Frame
import ConfigDb.Storage.Unrelated
import ConfigDb.Storage.Ttl
import ConfigDb.Service.Configuration
import ConfigDb.Cipher.Cbc
import ConfigDb.Cipher.Encrypter
import ConfigDb.Storage.Expiry
import ConfigDb.Storage.Schedule
import ConfigDb.Storage.Markers
import ConfigDb.Storage.Refinement
import ConfigDb.Storage.Clients
import ConfigDb.Storage.Restart
import ConfigDb.Storage.Locks
import ConfigDb.Storage.Coherence
import ConfigDb.Storage.Cleaning
import ConfigDb.Storage.Concurrency
import ConfigDb.Storage.Isolation
import ConfigDb.Storage.Fill
import ConfigDb.Storage.Replica
import ConfigDb.Storage.Values
import ConfigDb.Storage.Ownership
import ConfigDb.Storage.Errors
import ConfigDb.Storage.Overwrite
import ConfigDb.Storage.Rename
import ConfigDb.Storage.CipherFailure
import ConfigDb.Service.Listener
import ConfigDb.Service.Connection
import ConfigDb.Service.Replication
import ConfigDb.Service.Notification
import ConfigDb.Service.Mesh
import ConfigDb.Service.Http
import ConfigDb.Service.Process
import ConfigDb.Signal.Morton
import ConfigDb.Signal.Observer
import ConfigDb.Signal.Emission
import ConfigDb.Pool.Accounting
import ConfigDb.Pool.Limit
import ConfigDb.Pool.Idle
import ConfigDb.Api.Connection
import ConfigDb.Api.Encoders
import ConfigDb.Api.Operations
import ConfigDb.Api.RoundTrip
import ConfigDb.Api.Session
import ConfigDb.Api.Import
import ConfigDb.Api.Shell
import ConfigDb.Api.Cli
