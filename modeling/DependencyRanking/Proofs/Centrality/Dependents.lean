import DependencyRanking.Proofs.Centrality.Mass
import DependencyRanking.Proofs.Graph.Components

/-!
# More dependents, more score

Without rounding every module passes on a share above zero to each module that it depends on. With
uniform teleport weights the shares are all that tells two modules apart within a pass, so a module
that gets the shares of another one and some more ends the pass with the higher score.
-/
namespace DependencyRanking.PageRank

variable {g : ModuleGraph} {d : ℚ} {scores : Scores ℚ} {u v m s : ModuleId}

theorem of_uniform (hm : m ∈ g.nodes) : Scores.of (uniform g.nodes : Scores ℚ) m = 1 := by
  have hn : ((uniform g.nodes : Scores ℚ).map Prod.fst).Nodup := by
    rw [map_fst_uniform]
    exact g.nodup_nodes
  exact of_eq_of_mem hn (List.mem_map.2 ⟨m, hm, rfl⟩)

theorem scoresAfter_pos (hd₀ : 0 < d) (hd₁ : d < 1) (hm : m ∈ g.nodes) (k : Nat) :
    0 < Scores.of (scoresAfter g (.of d) (uniform g.nodes) k) m := by
  cases k with
  | zero =>
    rw [scoresAfter, of_uniform hm]
    exact one_pos
  | succ k =>
    have hnonneg : ∀ s ∈ scoresAfter g (.of d) (uniform g.nodes) k, 0 ≤ s.2 :=
      nonneg_of_mem_scoresAfter hd₀.le hd₁.le (fun w hw => nonneg_of_mem_uniform hw) k
    have hfloor := floor_le_nextScore (g := g) (m := m) hd₀.le hnonneg zero_le_one
    rw [scoresAfter, of_pass (map_fst_uniform g.nodes) hm, of_uniform hm]
    linarith

def share (g : ModuleGraph) (d : ℚ) (scores : Scores ℚ) (s : ModuleId) : ℚ :=
  d * Scores.of scores s / g.outDegree s

/-- Scores under which `v` has at least the score of `u`, and more if it has more dependents. -/
structure Favours (g : ModuleGraph) (scores : Scores ℚ) (u v : ModuleId) : Prop where
  le : Scores.of scores u ≤ Scores.of scores v
  lt : (∃ s, g.Depends s v ∧ ¬ g.Depends s u) → Scores.of scores u < Scores.of scores v

section Pass

variable (hg : g.Mirrored)
include hg

theorem share_pos (hd : 0 < d) (hpos : ∀ m ∈ g.nodes, 0 < Scores.of scores m)
    (hs : s ∈ g.incoming m) : 0 < share g d scores s := by
  have hms : m ∈ g.outgoing s := (hg.mem_incoming s m).1 hs
  have hscore := hpos s (hg.source_mem s m hms)
  have hdegree : 0 < (g.outDegree s : ℚ) := Nat.cast_pos.2 (List.length_pos_of_mem hms)
  unfold share
  positivity

theorem of_pass_uniform (hm : m ∈ g.nodes) :
    Scores.of (pass g (.of d) (uniform g.nodes) scores) m =
      (1 - d) + d * danglingScore g scores / g.nodeCount +
        ∑ s ∈ (g.incoming m).toFinset, share g d scores s := by
  rw [of_pass (map_fst_uniform g.nodes) hm, nextScore_eq, of_uniform hm, sum_map_incoming hg]
  simp only [mul_one, share]

theorem favours_pass (hd : 0 < d) (hpos : ∀ m ∈ g.nodes, 0 < Scores.of scores m)
    (hu : u ∈ g.nodes) (hv : v ∈ g.nodes) (hsub : ∀ s, g.Depends s u → g.Depends s v) :
    Favours g (pass g (.of d) (uniform g.nodes) scores) u v := by
  have hsubset : (g.incoming u).toFinset ⊆ (g.incoming v).toFinset := by
    intro s hs
    rw [List.mem_toFinset, hg.mem_incoming] at hs ⊢
    exact hsub s hs
  have hshare : ∀ s ∈ (g.incoming v).toFinset, 0 < share g d scores s := fun s hs =>
    share_pos hg hd hpos (List.mem_toFinset.1 hs)
  constructor
  · rw [of_pass_uniform hg hu, of_pass_uniform hg hv, add_le_add_iff_left]
    apply Finset.sum_le_sum_of_subset_of_nonneg hsubset
    intro s hs _
    exact (hshare s hs).le
  · intro ⟨s, hsv, hsu⟩
    have hmem : s ∈ (g.incoming v).toFinset :=
      List.mem_toFinset.2 ((hg.mem_incoming s v).2 hsv)
    have hnot : s ∉ (g.incoming u).toFinset := by
      rw [List.mem_toFinset, hg.mem_incoming]
      exact hsu
    rw [of_pass_uniform hg hu, of_pass_uniform hg hv, add_lt_add_iff_left]
    apply Finset.sum_lt_sum_of_subset hsubset hmem hnot (hshare s hmem)
    intro s hs _
    exact (hshare s hs).le

end Pass

/-- PageRank without rounding and without a bias favours dependents after every pass: a module on
which everything depends that depends on another one has at least its score, and a higher one if
something else depends on it too. -/
theorem favours_of_dependents {edges isolated : Value}
    (hg : ModuleGraph.read? edges isolated = .ok g) (hd₀ : 0 < d) (hd₁ : d < 1)
    (hu : u ∈ g.nodes) (hv : v ∈ g.nodes) (hsub : ∀ s, g.Depends s u → g.Depends s v) :
    (∀ k, 1 ≤ k → Favours g (scoresAfter g (.of d) (weightsOf g.nodes none) k) u v) ∧
    ∀ small cap, 1 ≤ cap → Favours g (run g (.of d) small cap none).scores u v := by
  have hm := ModuleGraph.mirrored_of_read? hg
  have hfavours : ∀ k, 1 ≤ k → Favours g (scoresAfter g (.of d) (weightsOf g.nodes none) k) u v := by
    intro k hk
    obtain ⟨k, rfl⟩ := Nat.exists_eq_succ_of_ne_zero (Nat.one_le_iff_ne_zero.1 hk)
    exact favours_pass hm hd₀ (fun m hm => scoresAfter_pos hd₀ hd₁ hm k) hu hv hsub
  refine ⟨hfavours, ?_⟩
  intro small cap hcap
  have hn : g.nodes ≠ [] := List.ne_nil_of_mem hu
  obtain ⟨k, -, hpass, hscores, -⟩ := run_scores hn (.of d) small cap none
  rw [hscores]
  exact hfavours k (hpass hcap)

theorem favours_of_dependents_triangle : ∃ g,
    ModuleGraph.read? (.list [.tuple [.text "a", .text "b"], .tuple [.text "a", .text "c"],
      .tuple [.text "b", .text "c"]]) (.list []) = .ok g ∧
    (0 : ℚ) < 17 / 20 ∧ (17 / 20 : ℚ) < 1 ∧ "b" ∈ g.nodes ∧ "c" ∈ g.nodes ∧
    (∀ s, g.Depends s "b" → g.Depends s "c") ∧ g.Depends "b" "c" ∧ ¬ g.Depends "b" "b" ∧
    ∀ small cap, 1 ≤ cap →
      Scores.of (run g (.of (17 / 20 : ℚ)) small cap none).scores "b" <
        Scores.of (run g (.of (17 / 20 : ℚ)) small cap none).scores "c" := by
  let edges : List (ModuleId × ModuleId) := [("a", "b"), ("a", "c"), ("b", "c")]
  have hg : ModuleGraph.read? (.list [.tuple [.text "a", .text "b"], .tuple [.text "a", .text "c"],
      .tuple [.text "b", .text "c"]]) (.list []) = .ok (.ofEdges edges []) := rfl
  have hd₀ : (0 : ℚ) < 17 / 20 := by norm_num
  have hd₁ : (17 / 20 : ℚ) < 1 := by norm_num
  have hb := (ModuleGraph.mem_nodes_ofEdges edges [] "b").2 (by decide)
  have hc := (ModuleGraph.mem_nodes_ofEdges edges [] "c").2 (by decide)
  have hdepends : ∀ s t, (ModuleGraph.ofEdges edges []).Depends s t ↔ (s, t) ∈ edges := by
    intro s t
    exact ModuleGraph.mem_outgoing_ofEdges edges []
  have hsub : ∀ s, (ModuleGraph.ofEdges edges []).Depends s "b" →
      (ModuleGraph.ofEdges edges []).Depends s "c" := by
    intro s hs
    have ha : s = "a" := by simpa [edges] using (hdepends s "b").1 hs
    rw [hdepends, ha]
    decide
  have hbc := (hdepends "b" "c").2 (by decide)
  have hbb := mt (hdepends "b" "b").1 (by decide)
  obtain ⟨-, hfavours⟩ := favours_of_dependents hg hd₀ hd₁ hb hc hsub
  refine ⟨_, hg, hd₀, hd₁, hb, hc, hsub, hbc, hbb, ?_⟩
  intro small cap hcap
  exact (hfavours small cap hcap).lt ⟨"b", hbc, hbb⟩

end DependencyRanking.PageRank
