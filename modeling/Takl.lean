import Takl.Lib.KeyedTable
import Takl.Lib.LastWriteWins
import Takl.Lib.Runs
import Takl.Lib.XorDigest
import Takl.Lib.Streak
import Takl.Lib.HostPort
import Takl.Lib.InPlace
import Takl.Lib.Channel
import Takl.Lib.Except
import Takl.Lib.Pool
import Takl.Lib.Replicas
import Takl.Lib.SortSlice
import Takl.Lib.Base64
import Takl.Lib.ServeMux
import Takl.Model.HLC
import Takl.Model.Domain
import Takl.Model.Labels
import Takl.Store.Row
import Takl.Store.Store
import Takl.Store.Merge
import Takl.Store.Checksum
import Takl.Store.Incremental
import Takl.Transport.Pull
import Takl.Transport.Events
import Takl.Transport.Client
import Takl.Node.Node
import Takl.Node.Sync
import Takl.Node.Local
import Takl.Node.Effect
import Takl.Node.Draining
import Takl.Node.Labels
import Takl.Node.Restart
import Takl.Node.Replicable
import Takl.Node.Ownership
import Takl.Node.Round
import Takl.Node.Saturation
import Takl.Node.Response
import Takl.Node.Process
import Takl.Api.Handlers
import Takl.Api.Labels
import Takl.Api.Scoring
import Takl.Api.Placement
import Takl.Api.EventQuery
import Takl.Api.Provenance
import Takl.Api.Aggregates
import Takl.Api.Pages
import Takl.Api.Server
import Takl.Cluster.Model
import Takl.Cluster.Stamps
import Takl.Cluster.Convergence
import Takl.Cluster.AntiEntropy
import Takl.Cluster.Versions
import Takl.Cluster.Tombstones
import Takl.Cluster.EventLog
import Takl.Cluster.Recovery
import Takl.Cluster.Replicas
import Takl.Cluster.Agents
import Takl.Cluster.Provenance
import Takl.Cluster.Answers
import Takl.Cluster.Placement
import Takl.Interleaving.Writer
import Takl.Interleaving.Overwrites
import Takl.Interleaving.Deliveries
import Takl.Interleaving.RoundAll
import Takl.Interleaving.Schedules
import Takl.Interleaving.Crash
import Takl.Interleaving.Feed
import Takl.Interleaving.Labels
import Takl.Interleaving.Departures
import Takl.Interleaving.Requests
import Takl.Daemon.Text
import Takl.Membership.Peers
import Takl.Membership.SecretKey
import Takl.Membership.NewCluster
import Takl.Daemon.Startup
import Takl.Daemon.Advertise
