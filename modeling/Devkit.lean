import Devkit.Command.GlobBound
import Devkit.Command.SimpleArgv
import Devkit.Command.Unwrap
import Devkit.Command.UnwrapEnds
import Devkit.Common.Path
import Devkit.Common.Segments
import Devkit.Common.Store
import Devkit.Common.StoreSafety
import Devkit.Config.Accepted
import Devkit.Config.Agreement
import Devkit.Config.Checks
import Devkit.Config.LayerRecords
import Devkit.Config.Layers
import Devkit.Config.Leaves
import Devkit.Config.Origins
import Devkit.Config.Parse
import Devkit.Config.Provenance
import Devkit.Config.Resolved
import Devkit.Config.RoundTrip
import Devkit.Config.Spelling
import Devkit.Config.Template
import Devkit.Config.TemplateRead
import Devkit.Config.TodoScopes
import Devkit.Config.Variable
import Devkit.Daemon.Machine
import Devkit.Daemon.NoRespawn
import Devkit.Daemon.OneProcess
import Devkit.Daemon.RestartBudget
import Devkit.Daemon.Stopped
import Devkit.Daemon.Supervisor
import Devkit.Daemon.TableRows
import Devkit.Daemon.Tracking
import Devkit.Docs.Cache
import Devkit.Docs.Names
import Devkit.Docs.Planned
import Devkit.Docs.Reconcile
import Devkit.Docs.Recovery
import Devkit.Docs.Refs
import Devkit.Docs.Restarts
import Devkit.Docs.Undisturbed
import Devkit.Git.AllOrNothing
import Devkit.Git.Commit
import Devkit.Git.Hooks
import Devkit.Guard.Args
import Devkit.Guard.Caller
import Devkit.Guard.Commands
import Devkit.Guard.Decide
import Devkit.Guard.MapOrder
import Devkit.Guard.TaskArgs
import Devkit.Hook.Allowed
import Devkit.Hook.Enforced
import Devkit.Hook.Evaluated
import Devkit.Hook.Gate
import Devkit.Hook.Writes
import Devkit.Library.Acyclic
import Devkit.Library.Alignment
import Devkit.Library.BestPaths
import Devkit.Library.Budget
import Devkit.Library.Doubles
import Devkit.Library.EditScript
import Devkit.Library.EndedLines
import Devkit.Library.Handover
import Devkit.Library.HashEntries
import Devkit.Library.Loops
import Devkit.Library.OrderedMap
import Devkit.Library.OrderedTable
import Devkit.Library.Outcomes
import Devkit.Library.PathSearch
import Devkit.Library.RecursiveQuery
import Devkit.Library.Runs
import Devkit.Library.Search
import Devkit.Library.Selections
import Devkit.Library.SeparatedPrefix
import Devkit.Library.Stretches
import Devkit.Library.Toml
import Devkit.Library.Unvisited
import Devkit.Library.Utf8
import Devkit.Library.Walks
import Devkit.Library.Wildcard
import Devkit.Library.Words
import Devkit.Locks.Batches
import Devkit.Locks.Canonical
import Devkit.Locks.Exclusion
import Devkit.Locks.Grants
import Devkit.Locks.Keys
import Devkit.Locks.Model
import Devkit.Locks.Protection
import Devkit.Locks.Resolver
import Devkit.Locks.Rows
import Devkit.Locks.Store
import Devkit.Log.Prune
import Devkit.Log.Redact
import Devkit.Log.Retention
import Devkit.Log.Secrets
import Devkit.Ports.Allocation
import Devkit.Ports.Clients
import Devkit.Ports.Ownership
import Devkit.Ports.Plan
import Devkit.Ports.PlanDiff
import Devkit.Ports.PlanText
import Devkit.Ports.Registry
import Devkit.Ports.Rows
import Devkit.Ports.Tail
import Devkit.PullRequest.Align
import Devkit.PullRequest.Pieces
import Devkit.PullRequest.Splice
import Devkit.Ticket.Checks
import Devkit.Ticket.Finished
import Devkit.Ticket.GlobMatch
import Devkit.Ticket.IgnoredChecks
import Devkit.Ticket.Lookups
import Devkit.Ticket.Status
import Devkit.Ticket.Verdict
import Devkit.Todos.Activity
import Devkit.Todos.ActivityClaims
import Devkit.Todos.ActivityProgress
import Devkit.Todos.BlockCycle
import Devkit.Todos.Builtin
import Devkit.Todos.ClaimRespect
import Devkit.Todos.CriticalPath
import Devkit.Todos.DiffSettles
import Devkit.Todos.Graph
import Devkit.Todos.GraphCorrect
import Devkit.Todos.GraphEdges
import Devkit.Todos.GraphPlan
import Devkit.Todos.GraphSchedule
import Devkit.Todos.GraphTopo
import Devkit.Todos.Holder
import Devkit.Todos.HookQueue
import Devkit.Todos.HookQueueRuns
import Devkit.Todos.Item
import Devkit.Todos.Kept
import Devkit.Todos.LandedAdds
import Devkit.Todos.LandedEdits
import Devkit.Todos.Landing
import Devkit.Todos.LastPlace
import Devkit.Todos.Layout
import Devkit.Todos.LayoutSessions
import Devkit.Todos.LinkCycles
import Devkit.Todos.ListCalls
import Devkit.Todos.ListDiff
import Devkit.Todos.ListOrder
import Devkit.Todos.ListReplace
import Devkit.Todos.ListRuns
import Devkit.Todos.ListWrites
import Devkit.Todos.Needed
import Devkit.Todos.PlanLevels
import Devkit.Todos.PlannedEdits
import Devkit.Todos.Postgres
import Devkit.Todos.PostgresPrune
import Devkit.Todos.PostgresRules
import Devkit.Todos.Promote
import Devkit.Todos.Prune
import Devkit.Todos.Pruned
import Devkit.Todos.Push
import Devkit.Todos.PushSurvives
import Devkit.Todos.RankOrder
import Devkit.Todos.ReplicaSync
import Devkit.Todos.ReplicaSyncRuns
import Devkit.Todos.Rewire
import Devkit.Todos.Segment
import Devkit.Todos.SettledTicket
import Devkit.Todos.StatusTrip
import Devkit.Todos.StoreCalls
import Devkit.Todos.SyncAlone
import Devkit.Todos.SyncRespect
import Devkit.Todos.SyncTracking
import Devkit.Todos.TaskWrites
import Devkit.Todos.Taskchampion
import Devkit.Todos.Ticket
import Devkit.Todos.TicketConvergence
import Devkit.Todos.TicketElsewhere
import Devkit.Todos.TicketPass
import Devkit.Todos.TicketPlan
import Devkit.Todos.TicketSync
import Devkit.Todos.TicketTodos
import Devkit.Todos.TopoOrder
import Devkit.Todos.Transition
import Devkit.Todos.Tree
import Devkit.Todos.TwinAdds
import Devkit.Todos.TwinBlockers
import Devkit.Todos.TwinEdits
import Devkit.Todos.TwinNames
import Devkit.Todos.TwinPlaces
import Devkit.Todos.TwinRemovals
import Devkit.Todos.TwinRuns
import Devkit.Todos.TwinStores
import Devkit.Todos.Uuid
import Devkit.Weakened.Lexemes
import Devkit.Weakened.Mask
import Devkit.Weakened.Masked
import Devkit.Weakened.Misread
import Devkit.Weakened.Readers
import Devkit.Weakened.Scan
import Devkit.Weakened.ScanLexeme
import Devkit.Weakened.Shape
