import DependencyRanking.Hotspot
import DependencyRanking.Plan

/-!
# The full analysis of a graph

Coupling, components and centrality are found independently of each other; the plan and the
hotspots follow from them. Every stage is timed, and a graph without modules has an empty analysis.
-/
namespace DependencyRanking

structure RankingStats where
  nodeCount : Nat := 0
  edgeCount : Nat := 0
  cycleCount : Nat := 0
  iterations : Nat := 0
  converged : Bool := true

structure RankingAnalysis where
  hotspots : List (Hotspot Float) := []
  coupling : Table ModuleId (CouplingMetrics Float) := ∅
  centrality : Centrality := {}
  plan : Plan := {}
  stats : RankingStats := {}

namespace RankingAnalysis

def firstOf {α : Type} (count : Int) (as : List α) : List α :=
  if 0 ≤ count then as.take count.toNat else as.take (as.length - count.natAbs)

def topHotspots (a : RankingAnalysis) (count : Int) : List (Hotspot Float) :=
  firstOf count a.hotspots

def limitHotspots {ν : Type} (limit : Option Number) (hotspots : List (Hotspot ν)) :
    Except RankingError (List (Hotspot ν)) :=
  match limit with
  | none => .ok hotspots
  | some n =>
    match n.toInt? with
    | some count => .ok (firstOf count hotspots)
    | none => .error .wrongType

def loggerPath : String := "modrank.ranking.engine"

structure Measures where
  coupling : Table ModuleId (CouplingMetrics Float)
  components : List Component
  centrality : Centrality

def measure (g : ModuleGraph) (config : RankingConfig) : Traced Measures := do
  let components ← Traced.ofExcept g.components
  let centrality ← Centrality.rank g config ∅
  pure ⟨couplingTable g, components, centrality⟩

def conclude (g : ModuleGraph) (config : RankingConfig) (m : Measures) :
    Traced RankingAnalysis := do
  let plan ← Traced.timed loggerPath "Safe order" (Plan.trace g m.components m.coupling config)
  let hotspots ← Traced.ofExcept
    (Hotspot.classify m.coupling m.centrality.scores config.percentiles)
  let hotspots ← Traced.ofExcept (limitHotspots config.hotspotLimit hotspots)
  let stats : RankingStats :=
    { nodeCount := g.nodeCount
      edgeCount := g.edgeCount
      cycleCount := (cyclesOf m.components).length
      iterations := m.centrality.iterations
      converged := m.centrality.converged }
  Traced.record .debug loggerPath
    ("Ranked " ++ toString stats.nodeCount ++ " modules (" ++ toString stats.edgeCount ++ " edges, "
      ++ toString stats.cycleCount ++ " cycles)")
  pure { hotspots, coupling := m.coupling, centrality := m.centrality, plan, stats }

def ofGraph (g : ModuleGraph) (config : RankingConfig) : Traced RankingAnalysis :=
  if g.nodeCount = 0 then do
    Traced.record .debug loggerPath "Empty dependency graph; nothing to rank"
    pure {}
  else
    Traced.timed loggerPath "Ranking" do
      let measures ← Traced.timed loggerPath "Graph metrics" (measure g config)
      conclude g config measures

/-- Whether the stages of an analysis are begun. Side by side they wait for workers: one more is
hired while there are fewer than the pool may have, never so in a pool of undefined size. -/
def areStagesBegun (config : RankingConfig) : Bool :=
  !config.parallel.isTrue || config.workers.all fun size => decide (Number.int 0 < size)

def start (g : ModuleGraph) (config : RankingConfig) : Option (Traced RankingAnalysis) :=
  if g.nodeCount = 0 ∨ areStagesBegun config = true then some (ofGraph g config) else none

def readGraph (read : Except RankingError ModuleGraph) : Traced ModuleGraph := do
  let g ← Traced.ofExcept read
  Traced.record .debug "modrank.graph.builder"
    ("Built dependency graph: " ++ toString g.nodeCount ++ " nodes, " ++ toString g.edgeCount
      ++ " edges")
  pure g

end RankingAnalysis

end DependencyRanking
