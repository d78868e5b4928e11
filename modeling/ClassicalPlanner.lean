import ClassicalPlanner.CommandLine.Run
import ClassicalPlanner.Main
import ClassicalPlanner.Model.Text
import ClassicalPlanner.Search.Graph
import ClassicalPlanner.Proofs.Plan.Completeness
import ClassicalPlanner.Proofs.Plan.Pruning
import ClassicalPlanner.Proofs.Plan.Report
import ClassicalPlanner.Proofs.Search.Path
import ClassicalPlanner.Proofs.Search.Optimality
import ClassicalPlanner.Proofs.Search.Calls
import ClassicalPlanner.Proofs.Search.Exhaustion
import ClassicalPlanner.Proofs.Session.History
import ClassicalPlanner.Proofs.Plan.Repetition
import ClassicalPlanner.Proofs.Session.Bounds
import ClassicalPlanner.Proofs.Formula.Spelling
import ClassicalPlanner.Proofs.Session.Serve
import ClassicalPlanner.Proofs.Session.Reading
import ClassicalPlanner.Proofs.Session.Closure
import ClassicalPlanner.Proofs.Session.Client
import ClassicalPlanner.Proofs.Session.FirstOrder
import ClassicalPlanner.Proofs.Pddl.RoundTrip
import ClassicalPlanner.Proofs.Session.RoundTrip
import ClassicalPlanner.Proofs.Plan.Failure
import ClassicalPlanner.Proofs.Search.Renaming
import ClassicalPlanner.Proofs.Search.Budget
import ClassicalPlanner.Proofs.Pddl.Declaration
import ClassicalPlanner.Proofs.Task.Groups
import ClassicalPlanner.Proofs.Session.Grants
import ClassicalPlanner.Proofs.Session.Order
import ClassicalPlanner.Proofs.Session.Retention
import ClassicalPlanner.Proofs.Session.Bindings
import ClassicalPlanner.Proofs.Session.Occurrence
import ClassicalPlanner.Proofs.Task.Instance
import ClassicalPlanner.Proofs.Task.Lookup
import ClassicalPlanner.Proofs.Session.Layout
import ClassicalPlanner.Proofs.Session.Recursion
import ClassicalPlanner.Proofs.Search.Halting
import ClassicalPlanner.Proofs.Pddl.Agreement
import ClassicalPlanner.Proofs.Plan.Digest
import ClassicalPlanner.Proofs.Plan.GoalCount
import ClassicalPlanner.Proofs.Task.Numbering
import ClassicalPlanner.Proofs.Plan.Merge
import ClassicalPlanner.Proofs.Formula.Interning
