import DependencyRanking.Centrality.Ranking
import DependencyRanking.Coupling

/-!
# Hotspots

A hotspot joins the centrality of a module with its coupling: the percentile gives the risk level,
and the reason names what makes the module risky. Hotspots are arranged by descending score.
-/
namespace DependencyRanking

structure Hotspot (ν : Type) where
  module : ModuleId
  pageRank : ν
  percentile : Number
  risk : RiskLevel
  reason : String
  dependents : Int
  dependencies : Int
  coupling : CouplingMetrics ν

namespace Hotspot

variable {ν : Type} [Measured ν]

def isWidelyUsed (afferent maxAfferent : Int) : Except RankingError Bool :=
  if 0 < maxAfferent then
    let share : Float := Scalar.ratio afferent maxAfferent
    if share.isFinite then .ok (decide (0.5 ≤ share)) else .error .numberTooLarge
  else .ok false

def centralityPart (percentile : Number) : List String :=
  if Number.int 90 ≤ percentile then ["top-decile centrality"]
  else if Number.int 75 ≤ percentile then ["top-quartile centrality"]
  else []

def stabilityPart (m : CouplingMetrics ν) : List String :=
  let instability := Measured.number m.instability
  if 0 < m.afferent ∧ instability < Number.float 0.3 then ["stable core module"]
  else if 0 < m.efferent ∧ Number.float 0.7 ≤ instability then
    ["unstable, depends on " ++ toString m.efferent
      ++ (if m.efferent = 1 then " module" else " modules")]
  else []

def reasonFor (percentile : Number) (m : CouplingMetrics ν) (maxAfferent : Int) :
    Except RankingError String := do
  let widelyUsed ← isWidelyUsed m.afferent maxAfferent
  let parts := centralityPart percentile
    ++ (if widelyUsed then ["high afferent coupling"] else []) ++ stabilityPart m
  pure <|
    if parts.isEmpty then
      if Number.int 50 ≤ percentile then "central in dependency graph" else "peripheral module"
    else " + ".intercalate parts

def precedes (a b : CentralityScore ν) : Bool :=
  let x := Measured.number a.pageRank
  let y := Measured.number b.pageRank
  if x == y then decide (a.module < b.module) else decide (y < x)

def arrange (scores : List (CentralityScore ν)) : List (CentralityScore ν) :=
  scores.mergeSort fun a b => !precedes b a

def maxAfferent (coupling : Table ModuleId (CouplingMetrics ν)) : Int :=
  match coupling.values.map CouplingMetrics.afferent with
  | [] => 0
  | a :: rest => rest.foldl max a

def ofScore (cutoffs : RiskCutoffs) (maxAfferent : Int) (metrics : CouplingMetrics ν)
    (s : CentralityScore ν) : Except RankingError (Hotspot ν) := do
  let reason ← reasonFor s.percentile metrics maxAfferent
  pure
    { module := s.module
      pageRank := s.pageRank
      percentile := s.percentile
      risk := cutoffs.level s.percentile
      reason
      dependents := metrics.afferent
      dependencies := metrics.efferent
      coupling := metrics }

/-- One hotspot per score, the most central first. A module without metrics counts as isolated. -/
def classify [OfScientific ν] (coupling : Table ModuleId (CouplingMetrics ν))
    (scores : List (CentralityScore ν)) (cutoffs : RiskCutoffs) :
    Except RankingError (List (Hotspot ν)) :=
  let top := maxAfferent coupling
  (arrange scores).mapM fun s =>
    ofScore cutoffs top (coupling.getD s.module (.isolated s.module)) s

end Hotspot

end DependencyRanking
