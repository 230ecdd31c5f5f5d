import DependencyRanking.Graph.Basic
import DependencyRanking.Graph.Search

/-!
# Components of mutually dependent modules

Modules that reach each other form one component. A component is a cycle if it has several modules,
or one that depends on itself.
-/
namespace DependencyRanking

/-- Modules that belong together, with the number of edges among them. -/
structure Component where
  nodes : List ModuleId
  internalEdges : Int
  ascending : nodes.Pairwise (· < ·)
deriving DecidableEq, Repr

namespace Component

def ofNodes (nodes : List ModuleId) (internalEdges : Int) : Component :=
  ⟨idSet nodes, internalEdges, ascending_idSet nodes⟩

theorem nodup (c : Component) : c.nodes.Nodup := c.ascending.imp Std.ne_of_lt

theorem sortIds_nodes (c : Component) : sortIds c.nodes = c.nodes :=
  sortIds_eq_self (c.ascending.imp Std.le_of_lt)

def size (c : Component) : Nat := c.nodes.length

def isCycle (c : Component) : Bool := 1 < c.size || 0 < c.internalEdges

end Component

namespace ModuleGraph

def edgesWithin (g : ModuleGraph) (nodes : List ModuleId) : Nat :=
  tally (fun m => (g.outgoing m).countP (· ∈ nodes)) nodes

/-- The strongly connected components, dependencies first. Modules and their dependencies are
visited in ascending order, so only the set of edges matters. -/
def components (g : ModuleGraph) : Except RankingError (List Component) := do
  let groups ← strongComponents g.nodes fun m => sortIds (g.outgoing m)
  pure (groups.map fun nodes => .ofNodes nodes (g.edgesWithin nodes))

end ModuleGraph

def cyclesOf (components : List Component) : List Component := components.filter Component.isCycle

end DependencyRanking
