import DependencyRanking.Centrality.Ranking
import DependencyRanking.Proofs.Centrality.Mass
import DependencyRanking.Proofs.Centrality.Percentile
import DependencyRanking.Proofs.Outcome
import DependencyRanking.Proofs.Settings.Check

/-!
# What a ranking yields

A ranking has one score for every module, in ascending order, and the percentile of a score is that
of its rank. Under a checked configuration it fails only where settings are of the wrong kind.
-/
namespace DependencyRanking

variable {g : ModuleGraph}

theorem PageRank.map_fst_run {α : Type} [Scalar α] (g : ModuleGraph) (d : Damping α)
    (small : α → Bool) (cap : Nat) (bias : Option (ModuleId → α)) :
    (run g d small cap bias).scores.map Prod.fst = g.nodes := by
  by_cases hn : g.nodes = []
  · unfold run
    rw [if_pos hn, hn]
    rfl
  · obtain ⟨k, -, -, hs, -⟩ := run_scores hn d small cap bias
    rw [hs]
    exact map_fst_scoresAfter d k (map_fst_weightsOf g.nodes bias)

namespace Centrality

variable {config : RankingConfig} {bias : Table ModuleId Number} {c : Centrality}
variable {run : PageRank.Run Float} {damping iterations tolerance : Number}

/-- Scores of the modules of a graph whose percentiles are those of their ranks. -/
structure Ranked (g : ModuleGraph) (c : Centrality) : Prop where
  modules : c.scores.map CentralityScore.module = g.nodes
  percentile : ∀ s ∈ c.scores, ∀ i, (rankOrder c.pageRanks)[i]? = some (s.module, s.pageRank) →
    s.percentile = .int (percentileAt i g.nodeCount)

section PageRank

def isBelow (tolerance : Number) (change : Float) : Bool := decide (Number.float change < tolerance)

def biasIn (bias : Table ModuleId Number) (given : PageRank.Scores Float) :
    Option (ModuleId → Float) :=
  if bias.entries.isEmpty then none else some (PageRank.Scores.of given)

theorem pageRank_of_nodes_eq_nil (hn : g.nodes = []) :
    pageRank g damping iterations tolerance bias = .ok PageRank.emptyRun := if_pos hn

theorem pageRank_eq_ok (hn : g.nodes ≠ []) :
    pageRank g damping iterations tolerance bias = .ok run ↔ ∃ weights cap,
      biasOf g.nodes bias = .ok weights ∧ passesOf iterations = .ok cap ∧
      (cap = 0 ∧ run = PageRank.run g ⟨0.0, 0.0⟩ (fun _ => false) 0 none ∨
        cap ≠ 0 ∧ ∃ d, dampingOf damping = .ok d ∧
          run = PageRank.run g d (isBelow tolerance) cap (biasIn bias weights)) := by
  unfold pageRank
  rw [if_neg hn, Outcome.bind_eq_ok]
  constructor
  · intro ⟨weights, hweights, h⟩
    obtain ⟨cap, hcap, h⟩ := Outcome.bind_eq_ok.1 h
    refine ⟨weights, cap, hweights, hcap, ?_⟩
    split at h
    · rename_i hzero
      cases h
      exact .inl ⟨hzero, rfl⟩
    · rename_i hpos
      obtain ⟨d, hd, h⟩ := Outcome.bind_eq_ok.1 h
      cases h
      exact .inr ⟨hpos, d, hd, rfl⟩
  · intro ⟨weights, cap, hweights, hcap, h⟩
    refine ⟨weights, hweights, Outcome.bind_eq_ok.2 ⟨cap, hcap, ?_⟩⟩
    rcases h with ⟨hzero, rfl⟩ | ⟨hpos, d, hd, rfl⟩
    · rw [if_pos hzero]
      rfl
    · rw [if_neg hpos]
      exact Outcome.bind_eq_ok.2 ⟨d, hd, rfl⟩

theorem pageRank_eq_run {d : PageRank.Damping Float} {weights : PageRank.Scores Float} {cap : Nat}
    (hn : g.nodes ≠ []) (hd : dampingOf damping = .ok d) (hb : biasOf g.nodes bias = .ok weights)
    (tolerance : Number) (hcap : 0 < cap) :
    pageRank g damping (.int cap) tolerance bias =
      .ok (PageRank.run g d (isBelow tolerance) cap (biasIn bias weights)) :=
  (pageRank_eq_ok hn).2 ⟨weights, cap, hb, rfl, .inr ⟨hcap.ne', d, hd, rfl⟩⟩

theorem map_fst_pageRank (h : pageRank g damping iterations tolerance bias = .ok run) :
    run.scores.map Prod.fst = g.nodes := by
  by_cases hn : g.nodes = []
  · rw [pageRank_of_nodes_eq_nil hn] at h
    cases h
    exact hn.symm
  · obtain ⟨weights, cap, -, -, ⟨-, rfl⟩ | ⟨-, d, -, rfl⟩⟩ := (pageRank_eq_ok hn).1 h
    · exact PageRank.map_fst_run ..
    · exact PageRank.map_fst_run ..

end PageRank

theorem ofRun_ok (hk : run.scores.map Prod.fst = g.nodes) :
    ∃ c, ofRun run = .ok c ∧ c.pageRanks = run.scores ∧ Ranked g c := by
  have hn : (run.scores.map Prod.fst).Nodup := hk ▸ g.nodup_nodes
  have hlength : run.scores.length = g.nodeCount := by
    rw [← g.length_nodes, ← hk, List.length_map]
  let percentile := fun s : ModuleId × Float => (entryAt? s.1 (percentileRanks run.scores)).getD 0
  let scores := run.scores.map fun s => CentralityScore.mk s.1 s.2 (.int (percentile s))
  have hranks : pageRanks ⟨scores, run.iterations, run.converged, run.finalDelta⟩ = run.scores := by
    simp [pageRanks, scores, Function.comp_def]
  refine ⟨_, Outcome.bind_eq_ok.2 ⟨scores, Outcome.mapM_of_eq_ok fun s hs => ?_, rfl⟩, hranks, ?_,
    fun s hs i hi => ?_⟩
  · obtain ⟨i, hi⟩ := List.mem_iff_getElem?.1 ((rankOrder_perm run.scores).mem_iff.2 hs)
    simp only [percentile, entryAt?_percentileRanks hn hi, Option.getD_some]
  · rw [← hk]
    simp [scores, Function.comp_def]
  · obtain ⟨e, -, rfl⟩ := List.mem_map.1 hs
    rw [hranks] at hi
    simp only [percentile, entryAt?_percentileRanks hn hi, Option.getD_some, hlength]

theorem run_of_rank (h : (rank g config bias).outcome = .ok c) : ∃ run,
    pageRank g config.damping config.iterations config.tolerance bias = .ok run ∧
      c.pageRanks = run.scores ∧ Ranked g c := by
  unfold rank at h
  rw [Traced.outcome_bind] at h
  obtain ⟨run, hrun, h⟩ := Outcome.bind_eq_ok.1 h
  rw [Traced.outcome_bind] at h
  obtain ⟨_, -, h⟩ := Outcome.bind_eq_ok.1 h
  obtain ⟨c', hc', hranks, hranked⟩ := ofRun_ok (map_fst_pageRank hrun)
  cases hc'.symm.trans h
  exact ⟨run, hrun, hranks, hranked⟩

section Success

theorem dampingOf_ok {n : Number} (h : RankingConfig.isOpenUnit n = true) :
    ∃ d, dampingOf n = .ok d := by
  unfold RankingConfig.isOpenUnit at h
  rw [Bool.and_eq_true, decide_eq_true_eq, decide_eq_true_eq] at h
  have hnone := Number.toInt?_of_unit h.1 h.2
  cases n with
  | flag b => cases hnone
  | int k => cases hnone
  | float x => exact ⟨_, rfl⟩

theorem biasOf_empty (nodes : List ModuleId) : biasOf nodes ∅ = .ok (nodes.map fun m => (m, 0.0)) :=
  Outcome.mapM_of_eq_ok fun _ _ => rfl

variable {given : Setting → Value} {k : Int} {t : Float}

theorem pageRank_ok (g : ModuleGraph) (tolerance : Number)
    (hd : RankingConfig.isOpenUnit damping = true) (hi : iterations.toInt? = some k) :
    ∃ run, pageRank g damping iterations tolerance ∅ = .ok run := by
  by_cases hn : g.nodes = []
  · exact ⟨_, pageRank_of_nodes_eq_nil hn⟩
  · obtain ⟨d, hd⟩ := dampingOf_ok hd
    have hcap : passesOf iterations = .ok k.toNat := by
      unfold passesOf
      rw [hi]
    by_cases hzero : k.toNat = 0
    · exact ⟨_, (pageRank_eq_ok hn).2
        ⟨_, k.toNat, biasOf_empty g.nodes, hcap, .inl ⟨hzero, rfl⟩⟩⟩
    · exact ⟨_, (pageRank_eq_ok hn).2
        ⟨_, k.toNat, biasOf_empty g.nodes, hcap, .inr ⟨hzero, d, hd, rfl⟩⟩⟩

theorem recordEnd_ok (run : PageRank.Run Float) (ht : tolerance.nearest = .ok t) :
    (recordEnd run tolerance).outcome = .ok () := by
  unfold recordEnd toleranceText
  rw [ht]
  split <;> rfl

theorem rank_ok (hc : RankingConfig.check given = .ok config)
    (hi : config.iterations.toInt? = some k) (ht : config.tolerance.nearest = .ok t) :
    ∃ c, (rank g config ∅).outcome = .ok c := by
  obtain ⟨run, hrun⟩ := pageRank_ok g config.tolerance
    (RankingConfig.checked_of_check hc).damping hi
  obtain ⟨c, hok, -⟩ := ofRun_ok (map_fst_pageRank hrun)
  refine ⟨c, ?_⟩
  unfold rank
  rw [Traced.outcome_bind, Outcome.bind_eq_ok]
  refine ⟨run, hrun, ?_⟩
  rw [Traced.outcome_bind, Outcome.bind_eq_ok]
  exact ⟨(), recordEnd_ok run ht, hok⟩

end Success

end Centrality

end DependencyRanking
