import DependencyRanking.Graph.Basic
import DependencyRanking.Number.Scalar

/-!
# PageRank by power iteration

Every module passes its score on to what it depends on, in equal shares; the scores of modules
without dependencies are spread over all modules. The scores always add up to the number of modules.

All modules are visited in ascending order and every pass reads the scores of the pass before.
`pass` is one pass, `delta` the change it makes, and `iterate` repeats it until the change is small
enough or the passes are used up.
-/
namespace DependencyRanking.PageRank

variable {α : Type} [Scalar α]

/-- The part of a score that follows dependencies, and the part that is spread by weight. -/
structure Damping (α : Type) where
  follow : α
  spread : α

def Damping.of (d : α) : Damping α := ⟨d, 1 - d⟩

abbrev Scores (α : Type) := List (ModuleId × α)

def Scores.of (scores : Scores α) (m : ModuleId) : α := (entryAt? m scores).getD 0

def total (xs : List α) : α := xs.foldl (· + ·) 0

def uniform (nodes : List ModuleId) : Scores α := nodes.map fun m => (m, 1)

/-- Teleport weights in proportion to a bias, scaled to add up to the number of modules. Negative
biases count as zero; without any positive bias the weights are uniform. -/
def teleport (nodes : List ModuleId) (bias : ModuleId → α) : Scores α :=
  let weights := nodes.map fun m => (m, if 0 < bias m then bias m else 0)
  let sum := total (weights.map Prod.snd)
  if 0 < sum then weights.map fun w => (w.1, w.2 * Scalar.ofNat nodes.length / sum)
  else uniform nodes

def dangling (g : ModuleGraph) : List ModuleId := g.nodes.filter fun m => g.outDegree m = 0

def danglingScore (g : ModuleGraph) (scores : Scores α) : α :=
  total ((dangling g).map (Scores.of scores))

def nextScore (g : ModuleGraph) (d : Damping α) (scores : Scores α) (held : α) (m : ModuleId)
    (t : α) : α :=
  (g.incoming m).foldl
    (fun score s => score + d.follow * Scores.of scores s / Scalar.ofNat (g.outDegree s))
    (d.spread * t + d.follow * held * t / Scalar.ofNat g.nodeCount)

def pass (g : ModuleGraph) (d : Damping α) (weights scores : Scores α) : Scores α :=
  let held := danglingScore g scores
  weights.map fun w => (w.1, nextScore g d scores held w.1 w.2)

def delta (old new : Scores α) : α :=
  total (new.map fun s => Scalar.abs (s.2 - Scores.of old s.1))

structure Run (α : Type) where
  scores : Scores α
  iterations : Nat
  converged : Bool
  finalDelta : α

/-- At most `cap` passes from the given scores, `performed` passes being done. The iteration stops
after a pass whose change is small enough. -/
def iterate (next : Scores α → Scores α) (small : α → Bool) :
    (cap performed : Nat) → (last : α) → Scores α → Run α
  | 0, performed, last, scores => ⟨scores, performed, false, last⟩
  | cap + 1, performed, _, scores =>
    let new := next scores
    let change := delta scores new
    if small change then ⟨new, performed + 1, true, change⟩
    else iterate next small cap (performed + 1) change new

def runWith (g : ModuleGraph) (d : Damping α) (small : α → Bool) (cap : Nat) (weights : Scores α) :
    Run α :=
  iterate (pass g d weights) small cap 0 0 (uniform g.nodes)

def emptyRun : Run α := ⟨[], 0, true, 0⟩

def run (g : ModuleGraph) (d : Damping α) (small : α → Bool) (cap : Nat)
    (bias : Option (ModuleId → α)) : Run α :=
  if g.nodes = [] then emptyRun
  else
    runWith g d small cap <|
      match bias with
      | some bias => teleport g.nodes bias
      | none => uniform g.nodes

end DependencyRanking.PageRank
