import DependencyRanking.Analysis
import DependencyRanking.Proofs.Centrality.SameEdges
import DependencyRanking.Proofs.Plan.SameEdges

/-!
# The analysis depends on the set of edges

Edges and modules may be given in any order and as often as one likes. Graphs with the same modules
and the same edges have the same analysis, number by number, and fail with the same error if they
fail; even the records on the way are the same.
-/
namespace DependencyRanking

variable {α : Type} [Scalar α] {g h : ModuleGraph}

namespace ModuleGraph.SameEdges

variable (he : g.SameEdges h)
include he

theorem couplingOf_eq (top : Nat) :
    (couplingOf g top : ModuleId → CouplingMetrics α) = couplingOf h top := by
  funext m
  unfold couplingOf
  rw [he.inDegree_eq, he.outDegree_eq, he.nodeCount_eq]

theorem couplingTable_eq :
    (couplingTable g : Table ModuleId (CouplingMetrics α)) = couplingTable h := by
  have htop : maxInDegree g = maxInDegree h := by
    unfold maxInDegree
    rw [he.nodes, he.inDegree_eq]
  unfold couplingTable
  simp only [he.nodes, he.couplingOf_eq, htop]

omit [Scalar α]

theorem measure_eq (config : RankingConfig) :
    RankingAnalysis.measure g config = RankingAnalysis.measure h config := by
  unfold RankingAnalysis.measure
  simp only [he.components_eq, he.rank_eq, he.couplingTable_eq]

theorem conclude_eq (config : RankingConfig) (m : RankingAnalysis.Measures) :
    RankingAnalysis.conclude g config m = RankingAnalysis.conclude h config m := by
  unfold RankingAnalysis.conclude Plan.trace
  simp only [he.make_eq, he.nodeCount_eq, he.edgeCount]

theorem ofGraph_eq (config : RankingConfig) :
    RankingAnalysis.ofGraph g config = RankingAnalysis.ofGraph h config := by
  unfold RankingAnalysis.ofGraph
  simp only [he.nodeCount_eq, he.measure_eq, he.conclude_eq]

end ModuleGraph.SameEdges

namespace RankingAnalysis

/-- Whatever the order and the repetition of edges and modules: graphs that were read and have the
same modules and the same edges have the same components and, under any configuration, the same
analysis. -/
theorem ofGraph_eq_of_same_edges {edges isolated edges' isolated' : Value}
    (hg : ModuleGraph.read? edges isolated = .ok g)
    (hh : ModuleGraph.read? edges' isolated' = .ok h)
    (hn : ∀ m, m ∈ g.nodes ↔ m ∈ h.nodes) (hd : ∀ a b, g.Depends a b ↔ h.Depends a b) :
    (∃ components, g.components = .ok components ∧ h.components = .ok components) ∧
      ∀ config, ofGraph g config = ofGraph h config := by
  have he := ModuleGraph.sameEdges_of_read? hg hh hn hd
  obtain ⟨components, hok, -⟩ :=
    ModuleGraph.partitioned_components (ModuleGraph.mirrored_of_read? hg)
  refine ⟨⟨components, hok, ?_⟩, he.ofGraph_eq⟩
  rw [← he.components_eq]
  exact hok

theorem ofGraph_eq_of_reordered : ∃ g h,
    ModuleGraph.read? (.list [.tuple [.text "a", .text "b"], .tuple [.text "a", .text "c"],
      .tuple [.text "b", .text "a"]]) (.list []) = .ok g ∧
    ModuleGraph.read? (.list [.tuple [.text "a", .text "c"], .tuple [.text "b", .text "a"],
      .tuple [.text "a", .text "b"], .tuple [.text "a", .text "c"]]) (.list [.text "c"]) = .ok h ∧
    g.outgoing "a" ≠ h.outgoing "a" ∧ ofGraph g {} = ofGraph h {} := by
  have hg : ModuleGraph.read? (.list [.tuple [.text "a", .text "b"], .tuple [.text "a", .text "c"],
      .tuple [.text "b", .text "a"]]) (.list []) =
    .ok (.ofEdges [("a", "b"), ("a", "c"), ("b", "a")] []) := rfl
  have hh : ModuleGraph.read? (.list [.tuple [.text "a", .text "c"], .tuple [.text "b", .text "a"],
      .tuple [.text "a", .text "b"], .tuple [.text "a", .text "c"]]) (.list [.text "c"]) =
    .ok (.ofEdges [("a", "c"), ("b", "a"), ("a", "b"), ("a", "c")] ["c"]) := rfl
  refine ⟨_, _, hg, hh, ?_, (ofGraph_eq_of_same_edges hg hh ?_ ?_).2 {}⟩
  · rw [ModuleGraph.outgoing_ofEdges, ModuleGraph.outgoing_ofEdges]
    decide
  · intro m
    rw [ModuleGraph.mem_nodes_ofEdges, ModuleGraph.mem_nodes_ofEdges]
    simp
    tauto
  · intro a b
    unfold ModuleGraph.Depends
    rw [ModuleGraph.mem_outgoing_ofEdges, ModuleGraph.mem_outgoing_ofEdges]
    simp
    tauto

end RankingAnalysis

end DependencyRanking
