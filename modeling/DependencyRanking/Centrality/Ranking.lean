import DependencyRanking.Centrality.PageRank
import DependencyRanking.Centrality.Percentile
import DependencyRanking.Log
import DependencyRanking.Number.Nearest
import DependencyRanking.Settings.Config

/-!
# Centrality of modules

PageRank under a configuration, with a percentile for every score. Running out of passes is no
error: the scores so far are ranked, and a warning is recorded.
-/
namespace DependencyRanking

structure CentralityScore (ν : Type) where
  module : ModuleId
  pageRank : ν
  percentile : Number

structure Centrality where
  scores : List (CentralityScore Float) := []
  iterations : Nat := 0
  converged : Bool := true
  finalDelta : Float := 0.0

namespace Centrality

def pageRanks (c : Centrality) : List (ModuleId × Float) :=
  c.scores.map fun s => (s.module, s.pageRank)

def dampingOf (n : Number) : Except RankingError (PageRank.Damping Float) :=
  match n.toInt? with
  | some d => do
    let follow ← (Number.int d).nearest
    let spread ← (Number.int (1 - d)).nearest
    pure ⟨follow, spread⟩
  | none => PageRank.Damping.of <$> n.nearest

def passesOf (n : Number) : Except RankingError Nat :=
  match n.toInt? with
  | some cap => .ok cap.toNat
  | none => .error .wrongType

def biasOf (nodes : List ModuleId) (bias : Table ModuleId Number) :
    Except RankingError (List (ModuleId × Float)) :=
  nodes.mapM fun m => do
    let weight ← (bias.getD m (.float 0.0)).nearest
    pure (m, weight)

/-- PageRank with numbers as they are given. Nothing is checked on a graph without modules. -/
def pageRank (g : ModuleGraph) (damping iterations tolerance : Number)
    (bias : Table ModuleId Number) : Except RankingError (PageRank.Run Float) :=
  if g.nodes = [] then .ok PageRank.emptyRun
  else do
    let weights ← biasOf g.nodes bias
    let cap ← passesOf iterations
    if cap = 0 then pure (PageRank.run g ⟨0.0, 0.0⟩ (fun _ => false) 0 none)
    else
      let d ← dampingOf damping
      pure <| PageRank.run g d (fun delta => Number.float delta < tolerance) cap <|
        if bias.entries.isEmpty then none else some (PageRank.Scores.of weights)

def ofRun (run : PageRank.Run Float) : Except RankingError Centrality := do
  let percentiles := percentileRanks run.scores
  let scores ← run.scores.mapM fun s =>
    match entryAt? s.1 percentiles with
    | some p => Except.ok (CentralityScore.mk s.1 s.2 (.int p))
    | none => Except.error RankingError.missingEntry
  pure ⟨scores, run.iterations, run.converged, run.finalDelta⟩

def loggerPath : String := "modrank.ranking.centrality"

def toleranceText (tolerance : Number) : Except RankingError String :=
  Double.scientific 0 <$> tolerance.nearest

def recordEnd (run : PageRank.Run Float) (tolerance : Number) : Traced Unit :=
  if run.converged then
    .record .debug loggerPath
      ("PageRank converged after " ++ toString run.iterations ++ " iterations")
  else do
    let limit ← Traced.ofExcept (toleranceText tolerance)
    .record .warning loggerPath
      ("PageRank did not converge within " ++ toString run.iterations ++ " iterations (delta="
        ++ Double.scientific 2 run.finalDelta ++ ", tolerance=" ++ limit
        ++ "); using best-effort scores")

def rank (g : ModuleGraph) (config : RankingConfig) (bias : Table ModuleId Number) :
    Traced Centrality := do
  let run ← Traced.ofExcept (pageRank g config.damping config.iterations config.tolerance bias)
  recordEnd run config.tolerance
  Traced.ofExcept (ofRun run)

end Centrality

end DependencyRanking
