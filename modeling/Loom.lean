import Loom.Proof.Holds
import Loom.Checking.Conformance
import Loom.Codegen.Liveness
import Loom.Checking.NestedMatch
import Loom.Runtime.SharedAccess
import Loom.Runtime.SharedHeap
import Loom.Runtime.Workers
import Loom.Evaluation.Integers
import Loom.Collections.Views
import Loom.Runtime.Reactor
import Loom.Runtime.ReactorHandles
import Loom.Runtime.ReactorOnce
import Loom.Runtime.UnwindingRuns
import Loom.Deployment.Basis
import Loom.Runtime.Tasks
import Loom.Runtime.TaskRuns
import Loom.Streams.Lines
import Loom.Streams.Length32
import Loom.Json.Encoder
import Loom.Json.IncrementalComplete
import Loom.Json.StreamLines
import Loom.Deployment.MigrationRuns
import Loom.Collections.MapRuns
import Loom.Hashing.Digests
import Loom.Runtime.Disposal
import Loom.Project.Lock
import Loom.Checking.IncrementalRoundTrip
import Loom.Runtime.CollectorGraph
import Loom.Http.Streaming
import Loom.Http.RoundTrip
import Loom.Source.Positions
import Loom.Source.Edits
import Loom.Checking.TypeIndex
import Loom.Checking.Unification
import Loom.Checking.LayoutCycles
import Loom.Source.ExpressionTexts
import Loom.Library.Definite
import Loom.Lowering.Graphs
import Loom.Lowering.Reads
import Loom.Lowering.ReadPaths
import Loom.Lowering.Flows
import Loom.Lowering.Spills
import Loom.Lowering.Suspensions
import Loom.Library.Occurrences
import Loom.Text.Search
import Loom.Text.Splitting
import Loom.Text.Integers
import Loom.Library.Partitions
import Loom.Project.Packages
import Loom.Project.Components
import Loom.Project.ComponentRoots
import Loom.Project.Separation
import Loom.Library.Distances
import Loom.Proof.DifferenceQueries
import Loom.Proof.DifferenceExact
import Loom.Checking.TypeRelations
import Loom.Checking.RelationMeanings
import Loom.Storage.Rows
import Loom.Storage.Records
import Loom.Tasks.Joins
import Loom.Tasks.JoinRuns
import Loom.Tasks.JoinOutcomes
import Loom.Cache.FrontendRoundTrip
import Loom.Project.RegraphExact
import Loom.Proof.NumberSteps
import Loom.Proof.TermBounds
import Loom.Proof.ExclusiveOr
import Loom.Checking.IncrementalFaults
