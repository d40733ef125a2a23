import Jkb.Log
import Jkb.Mq
import Jkb.Mq.Retain
import Jkb.Exec
import Jkb.Exec.Once
import Jkb.Core.SyncState
import Jkb.Fsm
import Jkb.Sync.Lifecycle
import Jkb.Sync.Journal
import Jkb.Graph
import Jkb.Sync.Doc
import Jkb.Sync.ThreeWay
import Jkb.Sync.ThreeWay.Importable
import Jkb.Core.Dsl
import Jkb.Sync.Tasks.Line
import Jkb.Sync.Tasks.Reread
import Jkb.Sync.Tasks.Parse
import Jkb.Sync.Tasks.Render
import Jkb.Sync.Tasks.Rows
import Jkb.Sync.Tasks.Settles
import Jkb.Sync.Tasks.Blocks
import Jkb.Sync.Tasks.Written
import Jkb.Sync.Tasks.RoundTrip
import Jkb.Sync.Tasks.Tight
import Jkb.Sync.Tasks.Profile
import Jkb.Sync.Tasks.FixedPoint
import Jkb.Fsm.Check
import Jkb.Fsm.Order
import Jkb.Core.AgentId
import Jkb.Core.Lifecycle
import Jkb.Core.Claim
import Jkb.Core.Transition
import Jkb.Core.ClaudeSession
import Jkb.Core.Changelog
import Jkb.Core.Undo
import Jkb.Core.Undo.Target
import Jkb.Notify.Lifecycle
import Jkb.Notify.Session
import Jkb.Twin
import Jkb.Mq.Send
import Jkb.Exec.Hints
import Jkb.Exec.Fate
import Jkb.Sync.Tasks.Accepts
import Jkb.Sync.Tasks.Gate
import Jkb.Sync.Tasks.Outline
import Jkb.Rbac
import Jkb.Core.Roles
import Jkb.Core.Ns
import Jkb.Core.Phase
import Jkb.Core.Query
import Jkb.Core.Query.Ready
import Jkb.Core.Query.Parse
import Jkb.Search
import Jkb.Core.Edge
import Jkb.Core.Containment
import Jkb.Core.Subtask
import Jkb.Core.Edge
import Jkb.Core.Reviews
import Jkb.Api.ReviewGate
import Jkb.Core.Workflow
import Jkb.Core.Workflow.Store
import Jkb.Core.Item
import Jkb.Index.Vector
import Jkb.Index.Fresh
import Jkb.Core.Ns.Path
import Jkb.Core.Ns.Tree
import Jkb.Core.Ns.Agree
import Jkb.Sync.Tasks.Layout
import Jkb.Sync.Tasks.Nesting
import Jkb.Mq.Caps
import Jkb.Mq.Idle
import Jkb.Pages
import Jkb.Exec.Paging
import Jkb.Exec.Report
import Jkb.Sync.Watch
import Jkb.Sync.Watch.Once
import Jkb.Sync.Watch.Supervise
import Jkb.Core.Nstype
import Jkb.Core.Nstype.Lifecycle
import Jkb.Core.Substrate
import Jkb.Settle
import Jkb.Core.Investigation
import Jkb.Core.Investigation.RollUp
import Jkb.Core.Investigation.Nested
import Jkb.Rbac.Runtime
import Jkb.Core.Transition.Reclaim
import Jkb.Core.Landing
import Jkb.Core.Plan
import Jkb.Bfs
import Jkb.Core.Edge.Walk
import Jkb.Core.Dsl.Escaped
import Jkb.Core.QuickAdd
import Jkb.Search.Overfetch
import Jkb.Sync.Needs
import Jkb.Sync.Reconcile
import Jkb.Sync.Reconcile.Containers
import Jkb.Core.Timeline
import Jkb.Core.Timeline.Paging
import Jkb.Core.Design.Export
import Jkb.Core.Mirror
import Jkb.Ingest.Chunk
import Jkb.Core.Design.Split
import Jkb.Core.Investigation.Buckets
import Jkb.Core.Nstype.Conjecture
import Jkb.Core.Query.Conjoin
import Jkb.Core.Design.Tree
import Jkb.Core.Design.Writers
import Jkb.Core.Design.Nested
import Jkb.Core.Design.Staged
import Jkb.Api.Kb
import Jkb.FirstFree
import Jkb.Sync.Tasks.Taken
import Jkb.Api.Kb.Reached
import Jkb.Locks
import Jkb.Api.Tickets
import Jkb.Api.Attested
import Jkb.Daemon.Idempotency
import Jkb.Daemon.Keyed
import Jkb.Daemon.Client
import Jkb.Glob
import Jkb.Core.Binding
import Jkb.Core.Item.Sound
import Jkb.Core.Lease
import Jkb.Ingest.Capture
import Jkb.Ingest.Recovery
import Jkb.Ingest.IndexPass
import Jkb.Api.Removals
