import DependencyRanking.Centrality.Ranking
import DependencyRanking.Proofs.Graph.SameEdges

/-!
# Centrality in graphs with the same edges

A pass adds up what comes in from the dependents of a module, which are kept in ascending order, and
of the dependencies of a module it uses the number only. So on any scalars, rounded ones included,
every pass on graphs with the same edges adds the same numbers in the same order.
-/
namespace DependencyRanking.ModuleGraph.SameEdges

variable {α : Type} [Scalar α] {g h : ModuleGraph} (he : g.SameEdges h)
include he

theorem nextScore_eq (d : PageRank.Damping α) (scores : PageRank.Scores α) (held : α)
    (m : ModuleId) (t : α) :
    PageRank.nextScore g d scores held m t = PageRank.nextScore h d scores held m t := by
  unfold PageRank.nextScore
  rw [he.incoming, he.outDegree_eq, he.nodeCount_eq]

theorem danglingScore_eq (scores : PageRank.Scores α) :
    PageRank.danglingScore g scores = PageRank.danglingScore h scores := by
  unfold PageRank.danglingScore PageRank.dangling
  rw [he.nodes, he.outDegree_eq]

theorem pass_eq (d : PageRank.Damping α) (weights : PageRank.Scores α) :
    PageRank.pass g d weights = PageRank.pass h d weights := by
  funext scores
  unfold PageRank.pass
  simp only [he.danglingScore_eq, he.nextScore_eq]

theorem run_eq (d : PageRank.Damping α) (small : α → Bool) (cap : Nat)
    (bias : Option (ModuleId → α)) :
    PageRank.run g d small cap bias = PageRank.run h d small cap bias := by
  unfold PageRank.run PageRank.runWith
  simp only [he.nodes, he.pass_eq]

omit [Scalar α] in
theorem rank_eq (config : RankingConfig) (bias : Table ModuleId Number) :
    Centrality.rank g config bias = Centrality.rank h config bias := by
  unfold Centrality.rank Centrality.pageRank
  simp only [he.nodes, he.run_eq]

end DependencyRanking.ModuleGraph.SameEdges
