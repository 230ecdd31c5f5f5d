import DependencyRanking.Hotspot
import DependencyRanking.Proofs.Centrality.Ranking
import DependencyRanking.Proofs.Number.Finite

/-!
# Hotspots follow the ranks

Hotspots are arranged by comparing scores, percentiles come from a stable sort of the negated ones.
Where no score is undefined both sort by standing, so a hotspot has the percentile of its position.
-/
namespace DependencyRanking

theorem RiskCutoffs.level_mono (c : RiskCutoffs) {m n : Number} (h : m ≤ n) :
    (c.level m).rank ≤ (c.level n).rank := by
  have hreach : ∀ cutoff : Number, cutoff ≤ m → cutoff ≤ n := fun _ hm => Number.le_trans hm h
  unfold RiskCutoffs.level
  by_cases hcritical : c.critical ≤ m
  · rw [if_pos hcritical, if_pos (hreach _ hcritical)]
  · rw [if_neg hcritical]
    by_cases hhigh : c.high ≤ m
    · rw [if_pos hhigh, if_pos (hreach _ hhigh)]
      split <;> decide
    · rw [if_neg hhigh]
      by_cases hmedium : c.medium ≤ m
      · rw [if_pos hmedium, if_pos (hreach _ hmedium)]
        split <;> [decide; split <;> decide]
      · rw [if_neg hmedium]
        exact Nat.zero_le _

namespace Hotspot

variable {ν : Type} [Measured ν] {coupling : Table ModuleId (CouplingMetrics ν)}
variable {scores : List (CentralityScore ν)} {cutoffs : RiskCutoffs} {hotspots : List (Hotspot ν)}

section Arrangement

def entry (s : CentralityScore ν) : ModuleId × ν := (s.module, s.pageRank)

theorem precedes_iff {a b : CentralityScore ν} (ha : (Measured.number a.pageRank).value ≠ ⊥)
    (hb : (Measured.number b.pageRank).value ≠ ⊥) :
    precedes a b = true ↔ standing (entry a) < standing (entry b) := by
  rw [standing_lt]
  unfold precedes entry
  dsimp only
  split
  · rename_i heq
    rw [Number.beq_iff_value] at heq
    simp [heq.2]
  · rename_i hne
    rw [Number.beq_iff_value, not_and] at hne
    rw [decide_eq_true_eq, Number.lt_iff_value]
    simp [hb, hne ha]

theorem map_entry_arrange (hn : (scores.map CentralityScore.module).Nodup)
    (hdefined : ∀ s ∈ scores, (Measured.number s.pageRank).value ≠ ⊥) :
    (arrange scores).map entry = rankOrder (scores.map entry) := by
  have hkeys : ((scores.map entry).map Prod.fst).Nodup := by
    rw [List.map_map]
    exact hn
  have hsort : (arrange scores).map entry =
      (scores.map entry).mergeSort fun a b => decide (standing a ≤ standing b) := by
    refine List.map_mergeSort fun a ha b hb => ?_
    rw [Bool.eq_iff_iff, Bool.not_eq_true', ← Bool.not_eq_true,
      precedes_iff (hdefined b hb) (hdefined a ha), not_lt, decide_eq_true_eq]
  rw [hsort]
  refine eq_rankOrder hkeys (List.mergeSort_perm _ _) ?_
  exact pairwise_mergeSort_key standing (nodup_standing hkeys)

end Arrangement

section Classes

def score (h : Hotspot ν) : CentralityScore ν := ⟨h.module, h.pageRank, h.percentile⟩

omit [Measured ν] in
@[simp] theorem score_pageRank (h : Hotspot ν) : h.score.pageRank = h.pageRank := rfl

theorem ofScore_eq_ok {top : Int} {metrics : CouplingMetrics ν} {s : CentralityScore ν}
    {h : Hotspot ν} (hok : ofScore cutoffs top metrics s = .ok h) :
    s = h.score ∧ h.risk = cutoffs.level h.percentile ∧ h.coupling = metrics ∧
      h.dependents = metrics.afferent ∧ h.dependencies = metrics.efferent := by
  obtain ⟨reason, -, hok⟩ := Outcome.bind_eq_ok.1 hok
  cases hok
  exact ⟨rfl, rfl, rfl, rfl, rfl⟩

theorem classify_eq_ok [OfScientific ν] (hok : classify coupling scores cutoffs = .ok hotspots) :
    hotspots.map score = arrange scores ∧ ∀ h ∈ hotspots, h.risk = cutoffs.level h.percentile := by
  have hall := Outcome.mapM_eq_ok.1 hok
  generalize arrange scores = arranged at hall
  clear hok
  induction hall with
  | nil => exact ⟨rfl, fun h hh => absurd hh List.not_mem_nil⟩
  | cons hok _ ih =>
    obtain ⟨hs, hrisk, -⟩ := ofScore_eq_ok hok
    refine ⟨by rw [List.map_cons, ← hs, ih.1], List.forall_mem_cons.2 ⟨hrisk, ih.2⟩⟩

theorem coupling_of_classify [OfScientific ν] {h : Hotspot ν} {metrics : CouplingMetrics ν}
    (hok : classify coupling scores cutoffs = .ok hotspots) (hh : h ∈ hotspots)
    (hm : coupling.get? h.module = some metrics) : h.coupling = metrics ∧
      h.dependents = metrics.afferent ∧ h.dependencies = metrics.efferent := by
  obtain ⟨s, -, hs⟩ := Outcome.exists_of_mem_mapM hok hh
  obtain ⟨rfl, -, hshown⟩ := ofScore_eq_ok hs
  have hget : coupling.getD h.score.module (.isolated h.score.module) = metrics := by
    unfold Table.getD
    rw [show h.score.module = h.module from rfl, hm]
    rfl
  rwa [hget] at hshown

end Classes

section Success

theorem isWidelyUsed_ok {afferent top : Int} (h0 : 0 ≤ afferent) (h : 0 < top → afferent ≤ top) :
    ∃ b, isWidelyUsed afferent top = .ok b := by
  unfold isWidelyUsed
  split
  · rename_i htop
    have hle := h htop
    have hfinite : (Scalar.ratio afferent top : Float).isFinite = true :=
      Double.isFinite_ofQuotient _ (b := 1) (by decide) (by omega) (by omega)
    dsimp only
    rw [if_pos hfinite]
    exact ⟨_, rfl⟩
  · exact ⟨_, rfl⟩

omit [Measured ν] in
theorem le_maxAfferent {m : CouplingMetrics ν} (hm : m ∈ coupling.values) :
    m.afferent ≤ maxAfferent coupling := by
  have hmem : m.afferent ∈ coupling.values.map CouplingMetrics.afferent := List.mem_map_of_mem hm
  unfold maxAfferent
  cases hvalues : coupling.values.map CouplingMetrics.afferent with
  | nil => simp [hvalues] at hmem
  | cons a rest =>
    obtain ⟨ha, hrest⟩ := foldl_max_le_iff.1 (le_refl (rest.foldl max a))
    rw [hvalues, List.mem_cons] at hmem
    rcases hmem with heq | hmem
    · exact heq.trans_le ha
    · exact hrest _ hmem

variable [OfScientific ν] (hc : ∀ m ∈ coupling.values, 0 ≤ m.afferent)
include hc

theorem ofScore_ok (cutoffs : RiskCutoffs) (s : CentralityScore ν) :
    ∃ h, ofScore cutoffs (maxAfferent coupling) (coupling.getD s.module (.isolated s.module)) s =
      .ok h := by
  obtain ⟨h0, hle⟩ : 0 ≤ (coupling.getD s.module (.isolated s.module)).afferent ∧
      (0 < maxAfferent coupling →
        (coupling.getD s.module (.isolated s.module)).afferent ≤ maxAfferent coupling) := by
    unfold Table.getD
    cases hget : coupling.get? s.module with
    | none => exact ⟨Int.le_refl 0, Int.le_of_lt⟩
    | some m =>
      have hm : m ∈ coupling.values := Table.mem_values_of_get? hget
      exact ⟨hc m hm, fun _ => le_maxAfferent hm⟩
  obtain ⟨b, hb⟩ := isWidelyUsed_ok h0 hle
  refine ⟨_, Outcome.bind_eq_ok.2 ⟨_, Outcome.bind_eq_ok.2 ⟨b, hb, rfl⟩, rfl⟩⟩

theorem classify_ok (scores : List (CentralityScore ν)) (cutoffs : RiskCutoffs) :
    ∃ hotspots, classify coupling scores cutoffs = .ok hotspots := by
  have hone : ∀ s ∈ arrange scores, ∃ h, ofScore cutoffs (maxAfferent coupling)
      (coupling.getD s.module (.isolated s.module)) s = .ok h ∧ True := by
    intro s _
    obtain ⟨h, hok⟩ := ofScore_ok hc cutoffs s
    exact ⟨h, hok, trivial⟩
  obtain ⟨hotspots, hok, -⟩ := Outcome.mapM_ok hone
  exact ⟨hotspots, hok⟩

end Success

/-- Hotspots of all modules of a graph in which nothing rises from one hotspot to a later one. -/
structure Descending (g : ModuleGraph) (c : Centrality) (hotspots : List (Hotspot Float)) :
    Prop where
  perm : (hotspots.map Hotspot.module).Perm g.nodes
  scores : (hotspots.map score).Perm c.scores
  percentile : ∀ (i : Nat) (h : Hotspot Float), hotspots[i]? = some h →
    h.percentile = .int (100 * (g.nodeCount - i) / g.nodeCount : Nat)
  pageRanks : hotspots.Pairwise fun a b => b.pageRank ≤ a.pageRank
  percentiles : hotspots.Pairwise fun a b => b.percentile ≤ a.percentile
  risks : hotspots.Pairwise fun a b => b.risk.rank ≤ a.risk.rank
  ties : hotspots.Pairwise fun a b => (a.pageRank == b.pageRank) = true → a.module < b.module

section Order

variable {g : ModuleGraph} {c : Centrality} {coupling : Table ModuleId (CouplingMetrics Float)}
variable {hotspots : List (Hotspot Float)} {i : Nat} {h : Hotspot Float}
variable (hranked : Centrality.Ranked g c) (hdefined : ∀ s ∈ c.scores, s.pageRank.isNaN = false)
variable (hok : classify coupling c.scores cutoffs = .ok hotspots)

include hok in
theorem scores_perm : (hotspots.map score).Perm c.scores := by
  rw [(classify_eq_ok hok).1]
  exact List.mergeSort_perm _ _

include hranked hok in
theorem modules_perm : (hotspots.map Hotspot.module).Perm g.nodes := by
  have hmap : (hotspots.map score).map CentralityScore.module = hotspots.map Hotspot.module :=
    List.map_map
  rw [← hmap, ← hranked.modules]
  exact (scores_perm hok).map CentralityScore.module

include hdefined hok in
theorem value_ne_bot (hh : h ∈ hotspots) : (Number.float h.pageRank).value ≠ ⊥ := by
  have hs : h.score ∈ c.scores := (scores_perm hok).mem_iff.1 (List.mem_map_of_mem hh)
  have hnan := hdefined h.score hs
  rw [score_pageRank] at hnan
  exact (Number.value_float_ne_bot h.pageRank).2 hnan

include hranked hdefined hok

theorem map_entry_eq_rankOrder :
    hotspots.map (fun h => entry h.score) = rankOrder c.pageRanks := by
  have hn : (c.scores.map CentralityScore.module).Nodup := hranked.modules ▸ g.nodup_nodes
  have harrange := map_entry_arrange hn fun s hs =>
    (Number.value_float_ne_bot s.pageRank).2 (hdefined s hs)
  rw [← (classify_eq_ok hok).1, List.map_map] at harrange
  exact harrange

theorem pairwise_standing :
    hotspots.Pairwise fun a b => standing (entry a.score) < standing (entry b.score) := by
  have hn : (c.pageRanks.map Prod.fst).Nodup := by
    have hkeys : c.pageRanks.map Prod.fst = c.scores.map CentralityScore.module := by
      simp [Centrality.pageRanks, Function.comp_def]
    rw [hkeys, hranked.modules]
    exact g.nodup_nodes
  have hp := pairwise_rankOrder hn
  rw [← map_entry_eq_rankOrder hranked hdefined hok, List.pairwise_map] at hp
  exact hp

theorem percentile_eq (hi : hotspots[i]? = some h) :
    h.percentile = .int (percentileAt i g.nodeCount) := by
  have hs : h.score ∈ c.scores :=
    (scores_perm hok).mem_iff.1 (List.mem_map_of_mem (List.mem_of_getElem? hi))
  refine hranked.percentile _ hs i ?_
  rw [← map_entry_eq_rankOrder hranked hdefined hok, List.getElem?_map, hi]
  rfl

theorem percentiles_descend : hotspots.Pairwise fun a b => b.percentile ≤ a.percentile := by
  rw [List.pairwise_iff_getElem]
  intro i j hi hj hij
  rw [percentile_eq hranked hdefined hok (List.getElem?_eq_getElem hi),
    percentile_eq hranked hdefined hok (List.getElem?_eq_getElem hj), Number.int_le_int]
  exact Int.ofNat_le.2 (percentileAt_antitone hij.le g.nodeCount)

theorem descending : Descending g c hotspots where
  perm := modules_perm hranked hok
  scores := scores_perm hok
  percentile _ _ hi := percentile_eq hranked hdefined hok hi
  pageRanks := by
    refine (pairwise_standing hranked hdefined hok).imp_of_mem fun {a b} _ hb hab => ?_
    rw [← Number.float_le_float, Number.le_iff_value]
    refine ⟨value_ne_bot hdefined hok hb, ?_⟩
    exact (standing_lt.1 hab).elim le_of_lt fun heq => heq.1.ge
  percentiles := percentiles_descend hranked hdefined hok
  risks := by
    refine (percentiles_descend hranked hdefined hok).imp_of_mem fun {a b} ha hb hab => ?_
    have hrisk := (classify_eq_ok hok).2
    rw [hrisk a ha, hrisk b hb]
    exact cutoffs.level_mono hab
  ties := by
    refine (pairwise_standing hranked hdefined hok).imp fun {a b} hab heq => ?_
    rw [← Number.float_beq_float, Number.beq_iff_value] at heq
    exact ((standing_lt.1 hab).resolve_left heq.2.not_gt).2

end Order

/-- Under a checked configuration a graph without undefined page ranks has its hotspots in the order
of their ranks. -/
theorem classify_descending (g : ModuleGraph) {given : Setting → Value} {config : RankingConfig}
    (hconfig : RankingConfig.check given = .ok config) :
    (∀ k t, config.iterations.toInt? = some k → config.tolerance.nearest = .ok t →
      ∃ c, (Centrality.rank g config ∅).outcome = .ok c) ∧
    ∀ bias c, (Centrality.rank g config bias).outcome = .ok c →
      (∀ s ∈ c.scores, s.pageRank.isNaN = false) →
      ∀ (coupling : Table ModuleId (CouplingMetrics Float)) (cutoffs : RiskCutoffs),
        ((∀ m ∈ coupling.values, 0 ≤ m.afferent) →
          ∃ hotspots, classify coupling c.scores cutoffs = .ok hotspots) ∧
        ∀ hotspots, classify coupling c.scores cutoffs = .ok hotspots →
          Descending g c hotspots := by
  refine ⟨fun k t hk ht => Centrality.rank_ok hconfig hk ht, ?_⟩
  intro bias c hrank hdefined coupling cutoffs
  obtain ⟨run, -, -, hranked⟩ := Centrality.run_of_rank hrank
  refine ⟨fun hc => classify_ok hc c.scores cutoffs, fun hotspots hok => ?_⟩
  exact descending hranked hdefined hok

theorem afferent_couplingTable_nonneg (g : ModuleGraph) :
    ∀ m ∈ (couplingTable g : Table ModuleId (CouplingMetrics Float)).values, 0 ≤ m.afferent := by
  intro m hm
  obtain ⟨e, he, rfl⟩ := List.mem_map.1 hm
  obtain ⟨a, -, rfl⟩ := List.mem_map.1 he
  exact Int.natCast_nonneg _

theorem defined_fork {c : Centrality} (h : (Centrality.rank (.ofEdges [("a", "c"), ("b", "c")] [])
    { iterations := .int 1 } ∅).outcome = .ok c) : ∀ s ∈ c.scores, s.pageRank.isNaN = false := by
  obtain ⟨run, hrun, hranks, -⟩ := Centrality.run_of_rank h
  generalize hg : ModuleGraph.ofEdges [("a", "c"), ("b", "c")] [] = g at hrun
  have hnodes : g.nodes = ["a", "b", "c"] := by
    subst hg
    cbv
  have hdependents : g.incoming "a" = [] ∧ g.incoming "b" = [] ∧ g.incoming "c" = ["a", "b"] := by
    subst hg
    exact ⟨by cbv, by cbv, by cbv⟩
  have hdamping : Centrality.dampingOf (.float 0.85) = .ok (.of 0.85) := rfl
  have hstart : run = PageRank.run g (.of 0.85) (Centrality.isBelow (.float 1e-6)) 1 none :=
    Except.ok.inj (hrun.symm.trans (Centrality.pageRank_eq_run (by simp [hnodes]) hdamping
      (Centrality.biasOf_empty g.nodes) (.float 1e-6) Nat.one_pos))
  have hscores : run.scores.all (fun s => !s.2.isNaN) = true := by
    rw [hstart]
    unfold PageRank.run PageRank.runWith PageRank.pass PageRank.danglingScore PageRank.dangling
      PageRank.uniform PageRank.nextScore
    simp only [hnodes, hdependents, List.map_cons, List.map_nil, List.foldl_cons, List.foldl_nil]
    subst hg
    decide +kernel
  intro s hs
  have hmem : (s.module, s.pageRank) ∈ run.scores := hranks ▸ List.mem_map_of_mem hs
  simpa using List.all_eq_true.1 hscores _ hmem

theorem classify_descending_fork : ∃ g config c hotspots,
    ModuleGraph.read? (.list [.tuple [.text "a", .text "c"], .tuple [.text "b", .text "c"]])
      (.list []) = .ok g ∧
    RankingConfig.check (RankingConfig.value config) = .ok config ∧
    (Centrality.rank g config ∅).outcome = .ok c ∧
    (∀ s ∈ c.scores, s.pageRank.isNaN = false) ∧
    classify (couplingTable g) c.scores config.percentiles = .ok hotspots ∧
    Descending g c hotspots := by
  have hchecked : RankingConfig.Checked { iterations := .int 1 } :=
    { RankingConfig.checked_default with iterations := by decide }
  have hconfig := RankingConfig.check_value hchecked
  obtain ⟨hrank, hall⟩ := classify_descending (.ofEdges [("a", "c"), ("b", "c")] []) hconfig
  obtain ⟨c, hc⟩ := hrank 1 1e-6 rfl rfl
  obtain ⟨hclassify, hdescending⟩ := hall ∅ c hc (defined_fork hc) (couplingTable _)
    ⟨.int 90, .int 75, .int 50⟩
  obtain ⟨hotspots, hok⟩ := hclassify (afferent_couplingTable_nonneg _)
  exact ⟨_, _, c, hotspots, rfl, hconfig, hc, defined_fork hc, hok, hdescending hotspots hok⟩

end Hotspot

end DependencyRanking
