import Freight.Scalar.Exact
import Freight.Table.Lemmas
import Freight.Partition.History
import Freight.Basis.Graph
import Freight.Plan.Chart
import Freight.Plan.Rival
import Freight.Model.Assignment
import Freight.Model.Pairing
import Freight.Model.Message
import Freight.Request
import Freight.Proofs.Forest
import Freight.Proofs.Partition
import Freight.Proofs.Classes
import Freight.Proofs.Table
import Freight.Proofs.Basis
import Freight.Proofs.Repair
import Freight.Proofs.Search
import Freight.Proofs.Scalar
import Freight.Proofs.Potentials
import Freight.Proofs.Loop
import Freight.Proofs.Circuit
import Freight.Proofs.Pivot
import Freight.Proofs.Run
import Freight.Proofs.Check
import Freight.Proofs.Course
import Freight.Proofs.Resume
import Freight.Proofs.Remaining
import Freight.Proofs.Start
import Freight.Proofs.Balance
import Freight.Proofs.Solve
import Freight.Proofs.Report
import Freight.Proofs.Sum
import Freight.Proofs.Certificate
import Freight.Proofs.Circulation
import Freight.Proofs.Conservation
import Freight.Proofs.Optimum
import Freight.Proofs.Unbalanced
import Freight.Proofs.AddedLine
import Freight.Proofs.Shortfall
import Freight.Proofs.Exchange
import Freight.Proofs.Descent
import Freight.Proofs.OptimalityTest
import Freight.Proofs.Continuation
import Freight.Proofs.Feasibility
import Freight.Proofs.Acceptance
import Freight.Proofs.Overdraft
import Freight.Proofs.Iteration
import Freight.Proofs.ReducedCosts
import Freight.Proofs.LinearProgram
import Freight.Proofs.Routes
import Freight.Proofs.Provenance
import Freight.Proofs.Pairing
import Freight.Proofs.Assignment
import Freight.Proofs.Cycle
import Freight.Proofs.BasisGraph
import Freight.Proofs.SpanningTree
import Freight.Proofs.Completion
import Freight.Proofs.CellSet
import Freight.Proofs.Pricing
import Freight.Proofs.Corner
import Freight.Proofs.Shipments
import Freight.Proofs.Maximality
import Freight.Proofs.Choice
import Freight.Proofs.SinglePass
import Freight.Proofs.Overlap
import Freight.Proofs.Penalty
