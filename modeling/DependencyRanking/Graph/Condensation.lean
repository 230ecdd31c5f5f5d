import DependencyRanking.Graph.Component

/-!
# Contracting components

Every component becomes one node, known by its position in the list of components. An edge leads
from one position to another if some module of the first depends on some module of the second.
-/
namespace DependencyRanking

/-- Components, the position of every module, and the edges between positions. -/
structure Condensation where
  components : List Component
  membership : Table ModuleId Nat
  successors : List (List Nat)
  predecessors : List (List Nat)

/-- The position of every module; of two components with a module in common the later counts. -/
def membershipOf (components : List Component) : Table ModuleId Nat :=
  components.zipIdx.foldl (fun t c => t.insertAll (c.1.nodes.map (·, c.2))) ∅

def successorsOf (g : ModuleGraph) (membership : Table ModuleId Nat) (c : Component) (i : Nat) :
    List Nat :=
  distinct (((c.nodes.flatMap g.outgoing).filterMap membership.get?).filter (· ≠ i))

def predecessorsOf (successors : List (List Nat)) (j : Nat) : List Nat :=
  (successors.zipIdx.filter fun s => j ∈ s.1).map Prod.snd

def ModuleGraph.condense (g : ModuleGraph) (components : List Component) : Condensation :=
  let membership := membershipOf components
  let successors := components.zipIdx.map fun c => successorsOf g membership c.1 c.2
  { components
    membership
    successors
    predecessors := (List.range components.length).map (predecessorsOf successors) }

end DependencyRanking
