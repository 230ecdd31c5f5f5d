import DependencyRanking.Coupling
import DependencyRanking.Number.Nearest
import DependencyRanking.Statistics

/-!
# Classes of modules

A module is a leaf if nothing depends on it, or if both its afferent coupling and its score lie in
the bottom fifth. It is core if either lies in the top fifth.
-/
namespace DependencyRanking

inductive NodeClass where
  | leaf
  | intermediate
  | core
deriving DecidableEq, Repr

namespace NodeClass

def name : NodeClass → String
  | leaf => "leaf"
  | intermediate => "intermediate"
  | core => "core"

def ofPercentages (afferent couplingPercent rankPercent : Int) : NodeClass :=
  if afferent = 0 ∨ (couplingPercent < 20 ∧ rankPercent < 20) then leaf
  else if 80 ≤ couplingPercent ∨ 80 ≤ rankPercent then core
  else intermediate

/-- The class of a module among others, with percentages reckoned in `α`; a module without coupling
is intermediate, and one without a score counts as zero. -/
def classify (α : Type) [Scalar α] {ν : Type} [Zero ν] [LT ν] [DecidableLT ν]
    (afferents : Table ModuleId Int) (ranks : Table ModuleId ν) (m : ModuleId) : NodeClass :=
  match afferents.get? m with
  | none => intermediate
  | some afferent =>
    ofPercentages afferent
      (percentBelow α (Scalar.ofInt afferent : α) (afferents.values.map Scalar.ofInt))
      (percentBelow α (ranks.getD m 0) ranks.values)

def percentBelowGiven (value : Number) (sample : List Number) : Except RankingError Int :=
  if sample.isEmpty then .ok 0
  else do
    let xs ← Number.nearestAll sample
    let x ← value.nearest
    pure (percentBelow Float x xs)

def classifyGiven (afferents : Table ModuleId Int) (ranks : Table ModuleId Number) (m : ModuleId) :
    Except RankingError NodeClass :=
  match afferents.get? m with
  | none => .ok intermediate
  | some afferent => do
    let couplingPercent ← percentBelowGiven (.int afferent) (afferents.values.map .int)
    let rankPercent ← percentBelowGiven (ranks.getD m (.float 0.0)) ranks.values
    pure (ofPercentages afferent couplingPercent rankPercent)

end NodeClass

end DependencyRanking
