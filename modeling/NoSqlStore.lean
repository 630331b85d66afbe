import NoSqlStore.Common.Runs
import NoSqlStore.Common.OrderedMap
import NoSqlStore.Model.Domain
import NoSqlStore.Model.Manager
import NoSqlStore.Manager.Table
import NoSqlStore.Manager.Effects
import NoSqlStore.Manager.Epoch
import NoSqlStore.Manager.Mapping
import NoSqlStore.Model.Client
import NoSqlStore.Manager.Custody
import NoSqlStore.Model.Worker
import NoSqlStore.Worker.Recipients
import NoSqlStore.Election.Cluster
import NoSqlStore.Election.Moves
import NoSqlStore.Election.Agreement
import NoSqlStore.Model.RuntimeStore
import NoSqlStore.Model.Sync
import NoSqlStore.Common.Coverage
import NoSqlStore.Sync.Store
import NoSqlStore.Model.System
import NoSqlStore.Sync.Tick
import NoSqlStore.Sync.Recipient
import NoSqlStore.Sync.Sound
import NoSqlStore.Sync.World
import NoSqlStore.Sync.Idle
import NoSqlStore.Sync.Confirmation
import NoSqlStore.Sync.Orderly
import NoSqlStore.Sync.Completion
import NoSqlStore.Sync.Deletion
import NoSqlStore.Store.LastWrite
import NoSqlStore.Store.Expiry
import NoSqlStore.Sync.Applied
import NoSqlStore.Sync.Visits
import NoSqlStore.Model.Grpc
import NoSqlStore.Worker.Managers
import NoSqlStore.Manager.Followers
import NoSqlStore.Manager.Clients
import NoSqlStore.Model.Sessions
import NoSqlStore.Sessions.Stale
import NoSqlStore.Election.Voter
import NoSqlStore.Sync.Leftover
import NoSqlStore.Sync.Announcements
import NoSqlStore.Sync.Completions
import NoSqlStore.Common.Numbered
import NoSqlStore.Migration.Table
import NoSqlStore.Migration.Acknowledgements
import NoSqlStore.Common.Relay
import NoSqlStore.Migration.Versions
import NoSqlStore.Manager.Placement
import NoSqlStore.Manager.Adoption
import NoSqlStore.Manager.Failover
import NoSqlStore.Election.Heartbeats
import NoSqlStore.Sync.Answers
import NoSqlStore.Sync.Retry
import NoSqlStore.Sync.Memory
import NoSqlStore.Model.Wire
import NoSqlStore.Wire.Fidelity
import NoSqlStore.Requests.ReadYourWrites
import NoSqlStore.Store.Sweep
import NoSqlStore.Requests.Fallback
import NoSqlStore.Manager.Expects
import NoSqlStore.Sync.Journal
import NoSqlStore.Common.Replies
import NoSqlStore.Store.Flat
import NoSqlStore.Manager.Provenance
import NoSqlStore.Election.Tables
import NoSqlStore.Election.Elected
import NoSqlStore.Common.Stamped
import NoSqlStore.Model.Writers
import NoSqlStore.Store.Stable
import NoSqlStore.Model.Streams
import NoSqlStore.Worker.Outputs
import NoSqlStore.Wire.Routing
import NoSqlStore.Common.Pages
import NoSqlStore.Sync.Turns
import NoSqlStore.Sync.Progress
import NoSqlStore.Store.Snapshot
import NoSqlStore.Model.GrpcClient
import NoSqlStore.Wire.Inner
import NoSqlStore.Election.Undisturbed
import NoSqlStore.Requests.Attempts
import NoSqlStore.Requests.Deliveries
import NoSqlStore.Requests.Ids
