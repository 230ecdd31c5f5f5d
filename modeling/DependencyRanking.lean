import DependencyRanking.Analysis
import DependencyRanking.Centrality.PageRank
import DependencyRanking.Centrality.Percentile
import DependencyRanking.Centrality.Ranking
import DependencyRanking.Coupling
import DependencyRanking.Decimal.Basic
import DependencyRanking.Decimal.Places
import DependencyRanking.Decimal.Scientific
import DependencyRanking.Decimal.Shortest
import DependencyRanking.Distinct
import DependencyRanking.Document.Basic
import DependencyRanking.Document.Figure
import DependencyRanking.Document.Quotation
import DependencyRanking.Document.Reader
import DependencyRanking.Document.Tree
import DependencyRanking.Entity.Cluster
import DependencyRanking.Entity.Naming
import DependencyRanking.Entity.RelationGraph
import DependencyRanking.Error
import DependencyRanking.Graph.Basic
import DependencyRanking.Graph.Component
import DependencyRanking.Graph.Condensation
import DependencyRanking.Graph.Level
import DependencyRanking.Graph.ModuleId
import DependencyRanking.Graph.Query
import DependencyRanking.Graph.Search
import DependencyRanking.Hotspot
import DependencyRanking.Log
import DependencyRanking.Number.Basic
import DependencyRanking.Number.Double
import DependencyRanking.Number.Exact
import DependencyRanking.Number.Nearest
import DependencyRanking.Number.Rounding
import DependencyRanking.Number.Scalar
import DependencyRanking.Plan
import DependencyRanking.Plan.NodeClass
import DependencyRanking.Plan.Order
import DependencyRanking.Priority
import DependencyRanking.Proofs.Analysis.Agreement
import DependencyRanking.Proofs.Analysis.SameEdges
import DependencyRanking.Proofs.Analysis.Success
import DependencyRanking.Proofs.Centrality.Accuracy
import DependencyRanking.Proofs.Centrality.Convergence
import DependencyRanking.Proofs.Centrality.Dependents
import DependencyRanking.Proofs.Centrality.Mass
import DependencyRanking.Proofs.Centrality.Percentile
import DependencyRanking.Proofs.Centrality.Ranking
import DependencyRanking.Proofs.Centrality.Renamed
import DependencyRanking.Proofs.Centrality.Stopping
import DependencyRanking.Proofs.Centrality.Strict
import DependencyRanking.Proofs.Coupling
import DependencyRanking.Proofs.Document.Keys
import DependencyRanking.Proofs.Entity.Domains
import DependencyRanking.Proofs.Entity.Rearranged
import DependencyRanking.Proofs.Entity.References
import DependencyRanking.Proofs.Entity.SharedHead
import DependencyRanking.Proofs.Graph.Contraction
import DependencyRanking.Proofs.Graph.Crossing
import DependencyRanking.Proofs.Graph.Cycle
import DependencyRanking.Proofs.Graph.Depth
import DependencyRanking.Proofs.Graph.Exhaustion
import DependencyRanking.Proofs.Graph.Rebuilt
import DependencyRanking.Proofs.Graph.Rejection
import DependencyRanking.Proofs.Graph.Renamed
import DependencyRanking.Proofs.Graph.Representation
import DependencyRanking.Proofs.Graph.SameEdges
import DependencyRanking.Proofs.Hotspot
import DependencyRanking.Proofs.Hotspot.Share
import DependencyRanking.Proofs.Number.Value
import DependencyRanking.Proofs.Plan.CoreQuantile
import DependencyRanking.Proofs.Plan.Cycles
import DependencyRanking.Proofs.Plan.Earliest
import DependencyRanking.Proofs.Plan.Execution
import DependencyRanking.Proofs.Plan.Leaves
import DependencyRanking.Proofs.Plan.NodeClass
import DependencyRanking.Proofs.Plan.Order
import DependencyRanking.Proofs.Plan.Peeling
import DependencyRanking.Proofs.Plan.Risk
import DependencyRanking.Proofs.Plan.Safe
import DependencyRanking.Proofs.Plan.SameEdges
import DependencyRanking.Proofs.Plan.Scan
import DependencyRanking.Proofs.Priority.Order
import DependencyRanking.Proofs.Priority.Paths
import DependencyRanking.Proofs.Search.Closing
import DependencyRanking.Proofs.Search.Steps
import DependencyRanking.Proofs.Settings.Containment
import DependencyRanking.Proofs.Settings.Precedence
import DependencyRanking.Proofs.Settings.Rejection
import DependencyRanking.Risk
import DependencyRanking.Settings.Config
import DependencyRanking.Settings.Load
import DependencyRanking.Settings.Variable
import DependencyRanking.Statistics
import DependencyRanking.Table
import DependencyRanking.Tally
import DependencyRanking.Text.Blank
import DependencyRanking.Text.Capital
import DependencyRanking.Text.Digit
import DependencyRanking.Text.Numeral
import DependencyRanking.Text.Printable
import DependencyRanking.Text.Quoted
import DependencyRanking.Value
