import DependencyRanking.Proofs.Centrality.Ranking
import DependencyRanking.Proofs.Number.Count

/-!
# Scores that are not below zero

On doubles a pass adds, multiplies and divides what is not below zero, and divides by counts above
zero only. So no score of a run is undefined or negative, however its operations round.
-/
namespace DependencyRanking

open Double (Nonneg Positive)

namespace PageRank

variable {g : ModuleGraph} {d : Damping Float} {scores : Scores Float} {held t : Float} {b : Nat}

theorem nonneg_foldl {ι : Type} {f : ι → Float} {a : Float} (ha : Nonneg a) (l : List ι)
    (h : ∀ i ∈ l, Nonneg (f i)) : Nonneg (l.foldl (fun sum i => sum + f i) a) := by
  induction l generalizing a with
  | nil => exact ha
  | cons i rest ih =>
    exact ih (ha.add (h i List.mem_cons_self)) fun j hj => h j (List.mem_cons_of_mem i hj)

theorem nonneg_total {xs : List Float} (h : ∀ x ∈ xs, Nonneg x) : Nonneg (total xs) :=
  nonneg_foldl Double.nonneg_zero xs h

theorem nonneg_of_scores (h : ∀ s ∈ scores, Nonneg s.2) (m : ModuleId) :
    Nonneg (Scores.of scores m) := by
  unfold Scores.of
  induction scores with
  | nil => exact Double.nonneg_zero
  | cons s rest ih =>
    obtain ⟨hs, hrest⟩ := List.forall_mem_cons.1 h
    unfold entryAt?
    split
    · exact hs
    · exact ih hrest

structure Gentle (d : Damping Float) : Prop where
  follow : Positive d.follow
  spread : Nonneg d.spread

theorem nonneg_nextScore (hg : g.Mirrored) (hb : b ≤ 1023) (hsize : g.nodeCount < 2 ^ b)
    (hN : g.nodeCount ≠ 0) (hd : Gentle d) (hs : ∀ s ∈ scores, Nonneg s.2) (hheld : Nonneg held)
    (ht : Positive t) (m : ModuleId) : Nonneg (nextScore g d scores held m t) := by
  have hcount : Positive (Float.ofNat g.nodeCount) := Double.positive_ofNat hN hb hsize
  have hbase : Nonneg (d.spread * t + d.follow * held * t / Scalar.ofNat g.nodeCount) :=
    (hd.spread.mul ht).add (((hd.follow.mul hheld).mul ht).div hcount)
  refine nonneg_foldl hbase (g.incoming m) fun s hm => ?_
  have hms : m ∈ g.outgoing s := (hg.mem_incoming s m).1 hm
  have hdegree : g.outDegree s ≠ 0 := fun h0 =>
    List.not_mem_nil (List.length_eq_zero_iff.1 h0 ▸ hms)
  exact (hd.follow.mul (nonneg_of_scores hs s)).div
    (Double.positive_ofNat hdegree hb ((hg.outDegree_le s).trans_lt hsize))

theorem nonneg_uniform (nodes : List ModuleId) : ∀ s ∈ uniform nodes, Nonneg s.2 := by
  intro s hs
  obtain ⟨m, -, rfl⟩ := List.mem_map.1 hs
  exact Double.positive_one.nonneg

theorem nonneg_scoresAfter (hg : g.Mirrored) (hb : b ≤ 1023) (hsize : g.nodeCount < 2 ^ b)
    (hN : g.nodeCount ≠ 0) (hd : Gentle d) (k : Nat) :
    ∀ s ∈ scoresAfter g d (uniform g.nodes) k, Nonneg s.2 := by
  induction k with
  | zero => exact nonneg_uniform g.nodes
  | succ k ih =>
    intro s hs
    obtain ⟨w, hw, rfl⟩ := List.mem_map.1 hs
    obtain ⟨m, -, rfl⟩ := List.mem_map.1 hw
    have hheld : Nonneg (danglingScore g (scoresAfter g d (uniform g.nodes) k)) :=
      nonneg_total fun x hx => by
        obtain ⟨m, -, rfl⟩ := List.mem_map.1 hx
        exact nonneg_of_scores ih m
    exact nonneg_nextScore hg hb hsize hN hd ih hheld Double.positive_one m

end PageRank

namespace Centrality

variable {g : ModuleGraph} {config : RankingConfig} {given : Setting → Value} {c : Centrality}
variable {run : PageRank.Run Float} {damping iterations tolerance : Number} {b : Nat}

theorem gentle_dampingOf {d : PageRank.Damping Float} (h : RankingConfig.isOpenUnit damping = true)
    (hd : dampingOf damping = .ok d) : PageRank.Gentle d := by
  unfold RankingConfig.isOpenUnit at h
  rw [Bool.and_eq_true, decide_eq_true_eq, decide_eq_true_eq] at h
  have hnone := Number.toInt?_of_unit h.1 h.2
  cases damping with
  | flag b => cases hnone
  | int k => cases hnone
  | float x =>
    cases hd
    exact ⟨Double.positive_of_unit h.1 h.2, Double.nonneg_one_sub h.1 h.2⟩

theorem nonneg_pageRank (hg : g.Mirrored) (hb : b ≤ 1023) (hsize : g.nodeCount < 2 ^ b)
    (hd : RankingConfig.isOpenUnit damping = true)
    (h : pageRank g damping iterations tolerance ∅ = .ok run) : ∀ s ∈ run.scores, Nonneg s.2 := by
  by_cases hn : g.nodes = []
  · rw [pageRank_of_nodes_eq_nil hn] at h
    cases h
    exact fun s hs => absurd hs List.not_mem_nil
  · have hN := g.nodeCount_ne_zero_iff.2 hn
    obtain ⟨weights, cap, -, -, ⟨-, rfl⟩ | ⟨-, d, hdamping, rfl⟩⟩ := (pageRank_eq_ok hn).1 h
    · rw [PageRank.run_zero hn]
      exact PageRank.nonneg_uniform g.nodes
    · obtain ⟨k, -, -, hs, -⟩ := PageRank.run_scores hn d (isBelow tolerance) cap none
      change ∀ s ∈ (PageRank.run g d (isBelow tolerance) cap none).scores, Nonneg s.2
      rw [hs]
      exact PageRank.nonneg_scoresAfter hg hb hsize hN (gentle_dampingOf hd hdamping) k

theorem nonneg_of_rank (hg : g.Mirrored) (hb : b ≤ 1023) (hsize : g.nodeCount < 2 ^ b)
    (hc : RankingConfig.check given = .ok config) (h : (rank g config ∅).outcome = .ok c) :
    ∀ s ∈ c.scores, Nonneg s.pageRank := by
  obtain ⟨run, hrun, hranks, -⟩ := run_of_rank h
  have hscores := nonneg_pageRank hg hb hsize (RankingConfig.checked_of_check hc).damping hrun
  rw [← hranks] at hscores
  intro s hs
  exact hscores (s.module, s.pageRank) (List.mem_map.2 ⟨s, hs, rfl⟩)

end Centrality

end DependencyRanking
