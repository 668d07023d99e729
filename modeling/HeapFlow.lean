import HeapFlow.CallGraph.Basic
import HeapFlow.CallGraph.Cha
import HeapFlow.CallGraph.Resolve
import HeapFlow.Constants.Evaluate
import HeapFlow.Constants.Fact
import HeapFlow.Constants.HeapStore
import HeapFlow.Constants.Inter
import HeapFlow.Constants.Intra
import HeapFlow.Constants.Value
import HeapFlow.Context.Basic
import HeapFlow.Context.Interned
import HeapFlow.Context.Policy
import HeapFlow.Data.Adjacency
import HeapFlow.Data.Index
import HeapFlow.Data.IndexMap
import HeapFlow.Data.OrderedSet
import HeapFlow.Data.Queue
import HeapFlow.Data.Reach
import HeapFlow.Data.Run
import HeapFlow.Data.Search
import HeapFlow.Data.Table
import HeapFlow.Data.Worklist
import HeapFlow.Dataflow.Solve
import HeapFlow.DeadCode
import HeapFlow.Event
import HeapFlow.Heap
import HeapFlow.Hierarchy
import HeapFlow.Icfg
import HeapFlow.Ir.Builder
import HeapFlow.Ir.Cfg
import HeapFlow.Ir.Document
import HeapFlow.Ir.Draft
import HeapFlow.Ir.LoadError
import HeapFlow.Ir.Method
import HeapFlow.Ir.Program
import HeapFlow.Ir.Stmt
import HeapFlow.Ir.Ty
import HeapFlow.Json.Number
import HeapFlow.Json.Printer
import HeapFlow.Json.Reader
import HeapFlow.Json.Value
import HeapFlow.Liveness
import HeapFlow.Main
import HeapFlow.Options
import HeapFlow.PointsTo.Basic
import HeapFlow.PointsTo.Solve
import HeapFlow.PointsTo.State
import HeapFlow.Proofs.CallGraph.Cha
import HeapFlow.Proofs.CallGraph.Edges
import HeapFlow.Proofs.CallGraph.PointsToRefinesCha
import HeapFlow.Proofs.CallGraph.Tied
import HeapFlow.Proofs.Constants.Arithmetic
import HeapFlow.Proofs.Constants.Divergence
import HeapFlow.Proofs.Constants.Effects
import HeapFlow.Proofs.Constants.Flow
import HeapFlow.Proofs.Constants.HeapWrites
import HeapFlow.Proofs.Constants.Intra
import HeapFlow.Proofs.Constants.JointSolution
import HeapFlow.Proofs.Constants.LeastSolution
import HeapFlow.Proofs.Constants.Monotone
import HeapFlow.Proofs.Constants.Observed
import HeapFlow.Proofs.Constants.Order
import HeapFlow.Proofs.Constants.Refinement
import HeapFlow.Proofs.Constants.Retraction
import HeapFlow.Proofs.Constants.Schedules
import HeapFlow.Proofs.Constants.Semilattice
import HeapFlow.Proofs.Constants.Termination
import HeapFlow.Proofs.Context.Interning
import HeapFlow.Proofs.Context.PolicyNames
import HeapFlow.Proofs.Dataflow.Equations
import HeapFlow.Proofs.Dataflow.Termination
import HeapFlow.Proofs.DeadCode
import HeapFlow.Proofs.Execution.Admits
import HeapFlow.Proofs.Execution.ConstantsSound
import HeapFlow.Proofs.Execution.Definitions
import HeapFlow.Proofs.Execution.Described
import HeapFlow.Proofs.Execution.Dropped
import HeapFlow.Proofs.Execution.IntFlow
import HeapFlow.Proofs.Execution.Machine
import HeapFlow.Proofs.Execution.Pairs
import HeapFlow.Proofs.Execution.PointsToSound
import HeapFlow.Proofs.Execution.Runs
import HeapFlow.Proofs.Execution.Walk
import HeapFlow.Proofs.Hierarchy
import HeapFlow.Proofs.Icfg.Edges
import HeapFlow.Proofs.Icfg.Exact
import HeapFlow.Proofs.Icfg.Isolated
import HeapFlow.Proofs.Icfg.PointsToGraph
import HeapFlow.Proofs.Ir.Bodies
import HeapFlow.Proofs.Ir.Declarations
import HeapFlow.Proofs.Ir.Entries
import HeapFlow.Proofs.Ir.Graph
import HeapFlow.Proofs.Ir.Jumps
import HeapFlow.Proofs.Ir.Labels
import HeapFlow.Proofs.Ir.Loaded
import HeapFlow.Proofs.Ir.Names
import HeapFlow.Proofs.Ir.Patches
import HeapFlow.Proofs.Ir.Recorded
import HeapFlow.Proofs.Ir.Redeclared
import HeapFlow.Proofs.Ir.Regular
import HeapFlow.Proofs.Ir.Scoped
import HeapFlow.Proofs.Ir.Skeleton
import HeapFlow.Proofs.Ir.Statements
import HeapFlow.Proofs.Ir.Supertypes
import HeapFlow.Proofs.Ir.TypeNames
import HeapFlow.Proofs.Liveness
import HeapFlow.Proofs.PointsTo.Bounds
import HeapFlow.Proofs.PointsTo.Derivable
import HeapFlow.Proofs.PointsTo.EntryObjects
import HeapFlow.Proofs.PointsTo.Exploration
import HeapFlow.Proofs.PointsTo.Failures
import HeapFlow.Proofs.PointsTo.Fulfilled
import HeapFlow.Proofs.PointsTo.LeastSolution
import HeapFlow.Proofs.PointsTo.Operations
import HeapFlow.Proofs.PointsTo.Projection
import HeapFlow.Proofs.PointsTo.Refinement
import HeapFlow.Proofs.PointsTo.Rules
import HeapFlow.Proofs.PointsTo.Scope
import HeapFlow.Proofs.PointsTo.StaticCalls
import HeapFlow.Proofs.PointsTo.Steps
import HeapFlow.Proofs.PointsTo.Termination
import HeapFlow.Proofs.PointsTo.Views
import HeapFlow.Proofs.Reach
import HeapFlow.Proofs.Search
import HeapFlow.Proofs.Session
import HeapFlow.Proofs.Text
import HeapFlow.Session
import HeapFlow.Text
import HeapFlow.Tool
