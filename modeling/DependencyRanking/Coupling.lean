import DependencyRanking.Graph.Basic
import DependencyRanking.Number.Scalar

/-!
# Coupling of modules

The afferent coupling of a module counts what depends on it, the efferent coupling what it depends
on. Instability is the efferent share of both. The risk score weighs instability and the afferent
coupling, relative to the greatest one in the graph, half and half.
-/
namespace DependencyRanking

structure CouplingMetrics (ν : Type) where
  module : ModuleId
  afferent : Int
  efferent : Int
  instability : ν
  riskScore : ν

def CouplingMetrics.given (m : CouplingMetrics Float) : CouplingMetrics Number :=
  ⟨m.module, m.afferent, m.efferent, .float m.instability, .float m.riskScore⟩

def CouplingMetrics.isolated {ν : Type} [OfScientific ν] (m : ModuleId) : CouplingMetrics ν :=
  ⟨m, 0, 0, 0.0, 0.0⟩

section Measures

variable {α : Type} [Scalar α]

def instability (afferent efferent : Int) : α :=
  if afferent + efferent = 0 then 0 else Scalar.ratio efferent (afferent + efferent)

def maxInDegree (g : ModuleGraph) : Nat := (g.nodes.map g.inDegree).foldl max 0

def relativeAfferent (nodeCount top dependents : Nat) : α :=
  if 1 < nodeCount ∧ 0 < top then Scalar.ratio dependents top else 0

def couplingOf (g : ModuleGraph) (top : Nat) (m : ModuleId) : CouplingMetrics α :=
  let share : α := instability (g.inDegree m) (g.outDegree m)
  { module := m
    afferent := g.inDegree m
    efferent := g.outDegree m
    instability := share
    riskScore := share * 0.5 + relativeAfferent g.nodeCount top (g.inDegree m) * 0.5 }

def couplingTable (g : ModuleGraph) : Table ModuleId (CouplingMetrics α) :=
  let top := maxInDegree g
  Table.ofKeys g.nodes g.nodup_nodes (couplingOf g top)

end Measures

/-- The instability of counts of any size and sign; the quotient may exceed all doubles. -/
def instability? (afferent efferent : Int) : Except RankingError Float :=
  let share : Float := instability afferent efferent
  if share.isFinite then .ok share else .error .numberTooLarge

variable {ν : Type} [Measured ν]

def riskier (a b : CouplingMetrics ν) : Bool :=
  let x := Measured.number a.riskScore
  let y := Measured.number b.riskScore
  if x == y then decide (a.module < b.module) else decide (y < x)

def rankByRisk (metrics : List (CouplingMetrics ν)) : List (CouplingMetrics ν) :=
  metrics.mergeSort fun a b => !riskier b a

end DependencyRanking
