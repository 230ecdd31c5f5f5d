import DependencyRanking.Graph.Level
import DependencyRanking.Proofs.Graph.Condensation
import Mathlib.Data.List.Sort

/-!
# Graphs with the same edges

A graph keeps the dependencies of a module in the order in which the edges were given, and nothing
else of that order. So graphs with the same modules and edges agree in everything but the order of
those lists. Their components are the same, and so are the levels of their condensations.
-/
namespace DependencyRanking.ModuleGraph

/-- Graphs that differ at most in the order of what a module depends on. -/
structure SameEdges (g h : ModuleGraph) : Prop where
  nodes : g.nodes = h.nodes
  outgoing : ∀ m, (g.outgoing m).Perm (h.outgoing m)
  incoming : ∀ m, g.incoming m = h.incoming m
  edgeCount : g.edgeCount = h.edgeCount

variable {g h : ModuleGraph}

theorem sameEdges_ofEdges {edges edges' : List (ModuleId × ModuleId)}
    {isolated isolated' : List ModuleId}
    (hn : ∀ m, m ∈ (ofEdges edges isolated).nodes ↔ m ∈ (ofEdges edges' isolated').nodes)
    (he : ∀ a b, (ofEdges edges isolated).Depends a b ↔ (ofEdges edges' isolated').Depends a b) :
    SameEdges (ofEdges edges isolated) (ofEdges edges' isolated') := by
  have hm := mirrored_ofEdges edges isolated
  have hm' := mirrored_ofEdges edges' isolated'
  refine ⟨?_, ?_, ?_, ?_⟩
  · apply sortIds_eq_of_perm
    rw [List.perm_ext_iff_of_nodup (Table.nodup_keys _) (Table.nodup_keys _)]
    intro m
    rw [← mem_nodes, ← mem_nodes]
    exact hn m
  · intro a
    rw [List.perm_ext_iff_of_nodup (hm.nodup_outgoing a) (hm'.nodup_outgoing a)]
    exact he a
  · intro b
    apply (hm.ascending b).eq_of_mem_iff (hm'.ascending b)
    intro a
    rw [hm.mem_incoming, hm'.mem_incoming]
    exact he a b
  · rw [edgeCount_ofEdges, edgeCount_ofEdges]
    apply List.Perm.length_eq
    apply distinct_perm
    intro (a, b)
    rw [← mem_outgoing_ofEdges edges isolated, ← mem_outgoing_ofEdges edges' isolated']
    exact he a b

theorem sameEdges_of_read? {edges isolated edges' isolated' : Value}
    (hg : read? edges isolated = .ok g) (hh : read? edges' isolated' = .ok h)
    (hn : ∀ m, m ∈ g.nodes ↔ m ∈ h.nodes) (he : ∀ a b, g.Depends a b ↔ h.Depends a b) :
    SameEdges g h := by
  obtain ⟨pairs, nodes, rfl⟩ := ofEdges_of_read? hg
  obtain ⟨pairs', nodes', rfl⟩ := ofEdges_of_read? hh
  exact sameEdges_ofEdges hn he

namespace SameEdges

variable (he : SameEdges g h)
include he

theorem depends_iff (a b : ModuleId) : g.Depends a b ↔ h.Depends a b := (he.outgoing a).mem_iff

theorem outDegree_eq : g.outDegree = h.outDegree := by
  funext m
  exact (he.outgoing m).length_eq

theorem inDegree_eq : g.inDegree = h.inDegree := by
  funext m
  exact congrArg List.length (he.incoming m)

theorem nodeCount_eq : g.nodeCount = h.nodeCount := by
  rw [← length_nodes, ← length_nodes, he.nodes]

theorem edgesWithin_eq : g.edgesWithin = h.edgesWithin := by
  funext nodes
  unfold edgesWithin
  congr 1
  funext m
  exact (he.outgoing m).countP_eq _

theorem components_eq : g.components = h.components := by
  have hsorted : (fun m => sortIds (g.outgoing m)) = fun m => sortIds (h.outgoing m) := by
    funext m
    exact sortIds_eq_of_perm (he.outgoing m)
  unfold components
  rw [he.nodes, hsorted, he.edgesWithin_eq]

section Condensation

variable (components : List Component)

theorem successorsOf_perm (membership : Table ModuleId Nat) (c : Component) (i : Nat) :
    (successorsOf g membership c i).Perm (successorsOf h membership c i) := by
  apply (List.perm_ext_iff_of_nodup (nodup_distinct _) (nodup_distinct _)).2
  intro j
  change j ∈ successorsOf g membership c i ↔ j ∈ successorsOf h membership c i
  simp only [mem_successorsOf, he.depends_iff]

theorem mem_successors_iff (i j : Nat) : j ∈ (g.condense components).successors.getD i [] ↔
    j ∈ (h.condense components).successors.getD i [] := by
  simp only [mem_successors, he.depends_iff]

theorem initialCounts_eq : initialCounts (g.condense components).successors =
    initialCounts (h.condense components).successors := by
  unfold initialCounts condense
  rw [List.map_map, List.map_map]
  apply List.map_congr_left
  intro c _
  exact congrArg Int.ofNat (he.successorsOf_perm _ c.1 c.2).length_eq

theorem predecessors_eq :
    (g.condense components).predecessors = (h.condense components).predecessors := by
  apply List.map_congr_left
  intro j _
  apply (ascending_predecessorsOf _ j).eq_of_mem_iff (ascending_predecessorsOf _ j)
  intro i
  rw [mem_predecessorsOf, mem_predecessorsOf]
  exact he.mem_successors_iff components i j

theorem levels_eq : (g.condense components).levels = (h.condense components).levels := by
  unfold Condensation.levels levelsOf
  rw [he.initialCounts_eq, he.predecessors_eq]

end Condensation

end SameEdges

end DependencyRanking.ModuleGraph
