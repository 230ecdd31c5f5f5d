import DependencyRanking.Graph.ModuleId
import DependencyRanking.Number.Basic

/-!
# Percentiles by rank

Modules are arranged by descending score, those of equal score by id, and undefined scores last.
The module at position `r` of `n` is at percentile `⌊100 (n - r) / n⌋`, so the first is at 100.
-/
namespace DependencyRanking

variable {ν : Type} [Measured ν]

/-- Whether a score comes strictly before another in descending order, undefined scores last. -/
def outranks (x y : ν) : Bool :=
  let a := Measured.number x
  let b := Measured.number y
  decide (b < a) || (a == a && !(b == b))

def rankOrder (scores : List (ModuleId × ν)) : List (ModuleId × ν) :=
  let byId := scores.mergeSort fun a b => decide (a.1 ≤ b.1)
  byId.mergeSort fun a b => !outranks b.2 a.2

def percentileAt (r n : Nat) : Nat := 100 * (n - r) / n

def percentileRanks (scores : List (ModuleId × ν)) : List (ModuleId × Nat) :=
  (rankOrder scores).zipIdx.map fun s => (s.1.1, percentileAt s.2 scores.length)

end DependencyRanking
