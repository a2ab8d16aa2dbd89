import PortGraph.Main
import PortGraph.Service.Script
import PortGraph.Text.Unprintable
import PortGraph.Proofs.Graph.Reach
import PortGraph.Proofs.Graph.Search
import PortGraph.Proofs.Graph.WellFormed
import PortGraph.Proofs.Tables
import PortGraph.Proofs.Plan.Bodies
import PortGraph.Proofs.Plan.Scopes
import PortGraph.Proofs.Plan.Accepted
import PortGraph.Proofs.Plan.Forest
import PortGraph.Proofs.Plan.Members
import PortGraph.Proofs.Plan.Routes
import PortGraph.Proofs.Plan.Ranks
import PortGraph.Proofs.Plan.Exclusives
import PortGraph.Proofs.Plan.Gates
import PortGraph.Proofs.Scope.Reacts
import PortGraph.Proofs.Scope.Views
import PortGraph.Proofs.Scope.Evolution
import PortGraph.Proofs.Scope.Budget
import PortGraph.Proofs.Scope.Causes
import PortGraph.Proofs.Plan.Connections
import PortGraph.Proofs.Scope.Sourced
import PortGraph.Proofs.Plan.Feeds
import PortGraph.Proofs.Scope.Counted
import PortGraph.Proofs.Scope.Owed
import PortGraph.Proofs.Scope.Accounted
import PortGraph.Proofs.Scope.Coherent
import PortGraph.Proofs.Scope.Stages
import PortGraph.Proofs.Plan.Reached
import PortGraph.Proofs.Scope.Seeded
import PortGraph.Proofs.Scope.Sighted
import PortGraph.Proofs.Scope.Closing
import PortGraph.Proofs.Execution.Moves
import PortGraph.Proofs.Execution.Values
import PortGraph.Proofs.Execution.Rooted
import PortGraph.Proofs.Execution.Grounded
import PortGraph.Proofs.Execution.Dataflow
import PortGraph.Proofs.Plan.Rings
import PortGraph.Proofs.Scope.States
import PortGraph.Proofs.Scope.Stuck
import PortGraph.Proofs.Execution.Orderly
import PortGraph.Proofs.Execution.Faults
import PortGraph.Proofs.Scope.Recorded
import PortGraph.Proofs.Execution.Logged
import PortGraph.Proofs.Execution.Unreached
import PortGraph.Proofs.Execution.Branches
import PortGraph.Proofs.Scope.Blamed
import PortGraph.Proofs.Scope.Contained
import PortGraph.Proofs.Execution.Invariants
import PortGraph.Proofs.Execution.Failures
import PortGraph.Proofs.Plan.Serving
import PortGraph.Proofs.Execution.Pruning
import PortGraph.Proofs.Scope.Contested
import PortGraph.Proofs.Scope.Agreement
import PortGraph.Proofs.Scope.Matching
import PortGraph.Proofs.Execution.Completed
import PortGraph.Proofs.Execution.Faithful
import PortGraph.Proofs.Execution.Determinism
import PortGraph.Proofs.Plan.Laminar
import PortGraph.Proofs.Graph.Topological
import PortGraph.Proofs.Graph.Cycles
import PortGraph.Proofs.Node.Settings
import PortGraph.Proofs.Graph.Definitions
import PortGraph.Proofs.Graph.Reordered
import PortGraph.Proofs.Execution.LoopEnds
import PortGraph.Proofs.Execution.Loops
import PortGraph.Proofs.Execution.Verdicts
import PortGraph.Proofs.Plan.Delivered
import PortGraph.Proofs.Plan.Isolated
import PortGraph.Proofs.Graph.Stored
import PortGraph.Proofs.Plan.Fixpoint
import PortGraph.Proofs.Plan.Reordered
import PortGraph.Proofs.Scope.Course
import PortGraph.Proofs.Execution.Captures
import PortGraph.Proofs.Execution.Calls
import PortGraph.Proofs.Work.Typed
import PortGraph.Proofs.Scope.Typed
import PortGraph.Proofs.Execution.Typed
import PortGraph.Proofs.Execution.Clock
import PortGraph.Proofs.Execution.Permits
import PortGraph.Proofs.Execution.Grants
import PortGraph.Proofs.Execution.Retries
import PortGraph.Proofs.Execution.Heedful
import PortGraph.Proofs.Execution.Returns
import PortGraph.Proofs.Port.Conversion
import PortGraph.Proofs.Port.Compatible
import PortGraph.Proofs.Number.Literal
import PortGraph.Proofs.Port.ThroughText
import PortGraph.Proofs.Json.Addresses
import PortGraph.Proofs.Work.Templates
import PortGraph.Proofs.Work.Arithmetic
import PortGraph.Proofs.Json.Canonical
import PortGraph.Proofs.Ident.Texts
import PortGraph.Proofs.Ident.Spellings
import PortGraph.Proofs.Node.Normalized
import PortGraph.Proofs.Work.Assured
import PortGraph.Proofs.Work.Merging
