import DependencyRanking.Analysis
import DependencyRanking.Proofs.Centrality.Strict
import DependencyRanking.Proofs.Hotspot
import DependencyRanking.Proofs.Plan.Peeling
import DependencyRanking.Proofs.Plan.Safe

/-!
# The analysis of an accepted graph

Under a checked configuration the analysis of a graph that was read comes to its end. Every stage
finds what the stages before it have left: components are not empty and cover the graph, every
module has metrics, a score and a percentile, and what a phase depends on is placed. Only a count
of dependents that exceeds all doubles could stop it, in a graph that no memory holds.
-/
namespace DependencyRanking

/-- The settings that have to be integers are, and the tolerance is a double or has one. -/
structure RankingConfig.OfKind (config : RankingConfig) : Prop where
  iterations : ∃ k, config.iterations.toInt? = some k
  tolerance : ∃ t, config.tolerance.nearest = .ok t
  hotspotLimit : ∀ n, config.hotspotLimit = some n → ∃ k, n.toInt? = some k

namespace RankingAnalysis

variable {g : ModuleGraph} {config : RankingConfig} {given : Setting → Value} {m : Measures}
variable {plan : Plan}

/-- An analysis that comes to its end: each score of the iteration is read off a strict run, and
every position that is planned is that of a component with modules. -/
structure Unfailing (g : ModuleGraph) (config : RankingConfig) : Prop where
  outcome : (∃ a, (ofGraph g config).outcome = .ok a) ∨
    2 ^ 1023 ≤ g.nodeCount ∧ (ofGraph g config).outcome = .error .numberTooLarge
  strict : ∀ (d : PageRank.Damping Float) (small : Float → Bool) (cap : Nat),
    PageRank.strictRun g d small cap = .ok (PageRank.run g d small cap none)
  positions : ∃ components levels, g.components = .ok components ∧
    (g.condense components).levels = .ok levels ∧
    ∀ i ∈ levels.flatten, ∃ c, components[i]? = some c ∧ c.nodes ≠ []

theorem limitHotspots_ok {ν : Type} {limit : Option Number}
    (h : ∀ n, limit = some n → ∃ k, n.toInt? = some k) (hotspots : List (Hotspot ν)) :
    ∃ kept, limitHotspots limit hotspots = .ok kept := by
  unfold limitHotspots
  cases limit with
  | none => exact ⟨hotspots, rfl⟩
  | some n =>
    obtain ⟨k, hk⟩ := h n rfl
    exact ⟨firstOf k hotspots, by simp only [hk]⟩

section Stages

theorem outcome_measure (g : ModuleGraph) (config : RankingConfig) :
    (measure g config).outcome = g.components >>= fun components =>
      (Centrality.rank g config ∅).outcome >>= fun centrality =>
        .ok ⟨couplingTable g, components, centrality⟩ := by
  unfold measure
  simp only [Traced.outcome_bind]
  rfl

theorem recordCycles_ok (plan : Plan) : plan.recordCycles.outcome = .ok () := by
  unfold Plan.recordCycles
  split <;> rfl

theorem outcome_trace (g : ModuleGraph) (components : List Component)
    (coupling : Table ModuleId (CouplingMetrics Float)) (config : RankingConfig) :
    (Plan.trace g components coupling config).outcome =
      Plan.make g components coupling config := by
  unfold Plan.trace Traced.ofExcept
  simp only [Traced.outcome_bind, recordCycles_ok]
  cases Plan.make g components coupling config <;> rfl

theorem outcome_conclude (g : ModuleGraph) (config : RankingConfig) (m : Measures) :
    (conclude g config m).outcome = Plan.make g m.components m.coupling config >>= fun plan =>
      Hotspot.classify m.coupling m.centrality.scores config.percentiles >>= fun hotspots =>
        limitHotspots config.hotspotLimit hotspots >>= fun kept =>
          .ok ⟨kept, m.coupling, m.centrality, plan, ⟨g.nodeCount, g.edgeCount,
            (cyclesOf m.components).length, m.centrality.iterations, m.centrality.converged⟩⟩ := by
  unfold conclude Traced.timed
  simp only [Traced.outcome_bind, outcome_trace]
  rfl

theorem outcome_ofGraph_eq (hN : g.nodeCount ≠ 0) : (ofGraph g config).outcome =
    (measure g config).outcome >>= fun m => (conclude g config m).outcome := by
  unfold ofGraph
  rw [if_neg hN, Traced.timed, Traced.outcome_bind]
  rfl

end Stages

theorem conclude_ok (hlimit : ∀ n, config.hotspotLimit = some n → ∃ k, n.toInt? = some k)
    (hm : ∀ c ∈ m.coupling.values, 0 ≤ c.afferent)
    (hplan : Plan.make g m.components m.coupling config = .ok plan) :
    ∃ a, (conclude g config m).outcome = .ok a := by
  obtain ⟨hotspots, hhotspots⟩ :=
    Hotspot.classify_ok hm m.centrality.scores config.percentiles
  obtain ⟨kept, hkept⟩ := limitHotspots_ok hlimit hotspots
  simp only [outcome_conclude, Outcome.bind_eq_ok]
  exact ⟨_, plan, hplan, hotspots, hhotspots, kept, hkept, rfl⟩

theorem exists_stages {a : RankingAnalysis} (hN : g.nodeCount ≠ 0)
    (h : (ofGraph g config).outcome = .ok a) : ∃ components centrality plan hotspots kept,
      g.components = .ok components ∧ (Centrality.rank g config ∅).outcome = .ok centrality ∧
      Plan.make g components (couplingTable g : Table ModuleId (CouplingMetrics Float)) config =
        .ok plan ∧
      Hotspot.classify (couplingTable g) centrality.scores config.percentiles = .ok hotspots ∧
      limitHotspots config.hotspotLimit hotspots = .ok kept ∧
      a = ⟨kept, couplingTable g, centrality, plan, ⟨g.nodeCount, g.edgeCount,
        (cyclesOf components).length, centrality.iterations, centrality.converged⟩⟩ := by
  rw [outcome_ofGraph_eq hN] at h
  obtain ⟨m, hm, h⟩ := Outcome.bind_eq_ok.1 h
  simp only [outcome_measure, Outcome.bind_eq_ok] at hm
  obtain ⟨components, hcomponents, centrality, hcentrality, hm⟩ := hm
  cases hm
  simp only [outcome_conclude, Outcome.bind_eq_ok] at h
  obtain ⟨plan, hplan, hotspots, hhotspots, kept, hkept, h⟩ := h
  cases h
  exact ⟨components, centrality, plan, hotspots, kept, hcomponents, hcentrality, hplan, hhotspots,
    hkept, rfl⟩

theorem outcome_of_rank {centrality : Centrality} (hg : g.Mirrored)
    (hc : RankingConfig.check given = .ok config) (hN : g.nodeCount ≠ 0)
    (hlimit : ∀ n, config.hotspotLimit = some n → ∃ k, n.toInt? = some k)
    (hrank : (Centrality.rank g config ∅).outcome = .ok centrality) :
    (∃ a, (ofGraph g config).outcome = .ok a) ∨
      2 ^ 1023 ≤ g.nodeCount ∧ (ofGraph g config).outcome = .error .numberTooLarge := by
  obtain ⟨components, hok, hp⟩ := ModuleGraph.partitioned_components hg
  obtain ⟨q, hq, h0, h1⟩ := Number.nearest_unit (RankingConfig.coreQuantile_unit hc)
  have hget : ∀ m ∈ g.nodes, ∃ metrics,
      (couplingTable g : Table ModuleId (CouplingMetrics Float)).get? m = some metrics :=
    fun m hm => ⟨_, Plan.get?_couplingTable hm⟩
  have hend : (ofGraph g config).outcome =
      (conclude g config ⟨couplingTable g, components, centrality⟩).outcome := by
    rw [outcome_ofGraph_eq hN, outcome_measure, hok, hrank]
    rfl
  rw [hend]
  rcases Plan.make_ok_or_tooLarge hp hget hq h0 h1 with
    ⟨plan, hplan⟩ | ⟨herror, m, hm, metrics, hmetrics, hlarge⟩
  · exact .inl (conclude_ok hlimit (Hotspot.afferent_couplingTable_nonneg g) hplan)
  · refine .inr ⟨?_, by rw [outcome_conclude, herror]; rfl⟩
    obtain rfl := Option.some.inj ((Plan.get?_couplingTable hm).symm.trans hmetrics)
    exact hlarge.trans (hg.inDegree_le m)

theorem ofGraph_empty (hN : g.nodeCount = 0) (config : RankingConfig) :
    (ofGraph g config).outcome = .ok {} := by
  unfold ofGraph
  rw [if_pos hN]
  rfl

theorem outcome_ofGraph (hg : g.Mirrored) (hc : RankingConfig.check given = .ok config)
    (hk : config.OfKind) : (∃ a, (ofGraph g config).outcome = .ok a) ∨
      2 ^ 1023 ≤ g.nodeCount ∧ (ofGraph g config).outcome = .error .numberTooLarge := by
  by_cases hN : g.nodeCount = 0
  · exact .inl ⟨_, ofGraph_empty hN config⟩
  obtain ⟨k, hi⟩ := hk.iterations
  obtain ⟨t, ht⟩ := hk.tolerance
  obtain ⟨centrality, hrank⟩ := Centrality.rank_ok (g := g) hc hi ht
  exact outcome_of_rank hg hc hN hk.hotspotLimit hrank

theorem positions_ok (g : ModuleGraph) : ∃ components levels, g.components = .ok components ∧
    (g.condense components).levels = .ok levels ∧
    ∀ i ∈ levels.flatten, ∃ c, components[i]? = some c ∧ c.nodes ≠ [] := by
  obtain ⟨components, hok, hne⟩ := g.exists_components
  obtain ⟨levels, hlevels, hl⟩ := levelsOf_levelled (g.transposed_condense components)
  refine ⟨components, levels, hok, hlevels, fun i hi => ?_⟩
  have hlt : i < components.length := by
    rw [← g.length_successors components]
    exact hl.peeled.lt_length i hi
  have hc := List.getElem?_eq_getElem hlt
  exact ⟨_, hc, hne _ (List.mem_of_getElem? hc)⟩

/-- Whatever graph was read and whatever configuration was checked: if its settings are of their
kinds, the analysis comes to its end. -/
theorem ofGraph_unfailing {edges isolated : Value}
    (hg : ModuleGraph.read? edges isolated = .ok g)
    (hc : RankingConfig.check given = .ok config) (hk : config.OfKind) : Unfailing g config where
  outcome := outcome_ofGraph (ModuleGraph.mirrored_of_read? hg) hc hk
  strict d small cap := PageRank.strictRun_eq (ModuleGraph.mirrored_of_read? hg) d small cap
  positions := positions_ok g

theorem ofGraph_unfailing_dangling : ∃ g,
    ModuleGraph.read? (.list [.tuple [.text "a", .text "b"], .tuple [.text "b", .text "a"],
      .tuple [.text "b", .text "c"], .tuple [.text "d", .text "d"]]) (.list [.text "e"]) = .ok g ∧
    RankingConfig.check Setting.default = .ok {} ∧ RankingConfig.OfKind {} ∧ Unfailing g {} ∧
    ∃ a, (ofGraph g {}).outcome = .ok a := by
  have hg : ModuleGraph.read? (.list [.tuple [.text "a", .text "b"],
      .tuple [.text "b", .text "a"], .tuple [.text "b", .text "c"],
      .tuple [.text "d", .text "d"]]) (.list [.text "e"]) =
    .ok (.ofEdges [("a", "b"), ("b", "a"), ("b", "c"), ("d", "d")] ["e"]) := rfl
  have hk : RankingConfig.OfKind {} := ⟨⟨100, rfl⟩, ⟨1e-6, rfl⟩, fun n hn => nomatch hn⟩
  have h := ofGraph_unfailing hg RankingConfig.check_default hk
  refine ⟨_, hg, RankingConfig.check_default, hk, h, h.outcome.resolve_right fun hlarge => ?_⟩
  have hcount : (ModuleGraph.ofEdges [("a", "b"), ("b", "a"), ("b", "c"), ("d", "d")]
    ["e"]).nodeCount < 2 ^ 3 := by decide
  exact absurd hlarge.1 (Plan.lt_two_pow hcount (by decide)).not_ge

end RankingAnalysis

end DependencyRanking
