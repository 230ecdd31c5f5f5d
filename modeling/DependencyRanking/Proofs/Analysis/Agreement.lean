import DependencyRanking.Proofs.Analysis.Usable
import DependencyRanking.Proofs.Centrality.Defined
import DependencyRanking.Proofs.Plan.Cycles

/-!
# The parts of an analysis agree

Coupling, centrality, plan, hotspots and numbers are found by stages of their own. They speak of the
same modules and the same cycles: components are counted where they are found, the cycles of a plan
where they are peeled off, and both are the cyclic components of the graph.
-/
namespace DependencyRanking

namespace Number

theorem one_le_of_toInt? {n : Number} {k : Int} (h : ¬ n < Number.int 1) (hk : n.toInt? = some k) :
    1 ≤ k := by
  have hone : (Number.int 1).value ≠ ⊥ := WithBot.coe_ne_bot
  have hn : n.value = (Extended.ofRat k : WithBot Extended) := value_of_toInt? hk
  rw [lt_iff_value, not_and, hn, value_int, WithBot.coe_lt_coe, Extended.ofRat_lt_ofRat] at h
  have hle := not_lt.1 (h WithBot.coe_ne_bot)
  exact_mod_cast hle

end Number

def CentralityScore.RanksBefore (s t : CentralityScore Float) : Prop :=
  t.pageRank ≤ s.pageRank ∧ ((s.pageRank == t.pageRank) = true → s.module < t.module)

namespace RankingAnalysis

/-- An analysis whose parts are about the modules of one graph, and about the same cycles. -/
structure Agrees (g : ModuleGraph) (config : RankingConfig) (a : RankingAnalysis) : Prop where
  coupled : a.coupling.keys = g.nodes
  scored : a.centrality.scores.map CentralityScore.module = g.nodes
  planned : (a.plan.phases.flatMap Phase.modules).Perm g.nodes
  total : a.plan.totalModules = g.nodes.length
  counted : a.stats.nodeCount = g.nodes.length
  cycles : a.stats.cycleCount = a.plan.cycles.length
  cyclic : a.stats.cycleCount = a.plan.phases.countP Phase.isCycle
  foremost : ∃ ranked : List (CentralityScore Float), ranked.Perm a.centrality.scores ∧
    ranked.Pairwise CentralityScore.RanksBefore ∧
      a.hotspots.map Hotspot.score = ranked.take a.hotspots.length
  unlimited : config.hotspotLimit = none → a.hotspots.length = g.nodes.length
  limited : ∀ n k, config.hotspotLimit = some n → n.toInt? = some k →
    (a.hotspots.length : Int) = min (g.nodes.length : Int) k
  filed : ∀ h ∈ a.hotspots,
    a.coupling.get? h.module = some h.coupling ∧ h.score ∈ a.centrality.scores
  degrees : ∀ h ∈ a.hotspots, h.dependents = g.inDegree h.module ∧
    h.dependencies = g.outDegree h.module

variable {g : ModuleGraph} {config : RankingConfig} {given : Setting → Value}
variable {a : RankingAnalysis} {b : Nat}

section Parts

variable {components : List Component} {coupling : Table ModuleId (CouplingMetrics Float)}
variable {plan : Plan} {c : Centrality} {hotspots kept : List (Hotspot Float)}

theorem totalModules_of_make (h : Plan.make g components coupling config = .ok plan) :
    plan.totalModules = g.nodes.length := by
  unfold Plan.make at h
  dsimp only at h
  split at h
  · rename_i hn
    cases h
    rw [hn]
    rfl
  · simp only [Outcome.bind_eq_ok] at h
    obtain ⟨_, -, _, -, _, -, _, -, _, -, _, -, h⟩ := h
    cases h
    rfl

theorem limitHotspots_eq_ok {limit : Option Number}
    (hpos : ∀ n, limit = some n → ¬ n < Number.int 1)
    (h : limitHotspots limit hotspots = .ok kept) :
    kept = hotspots.take kept.length ∧ (limit = none → kept.length = hotspots.length) ∧
      ∀ n k, limit = some n → n.toInt? = some k →
        (kept.length : Int) = min (hotspots.length : Int) k := by
  cases limit with
  | none =>
    cases h
    exact ⟨List.take_length.symm, fun _ => rfl, nofun⟩
  | some n =>
    obtain ⟨k, hk⟩ := toInt?_of_limitHotspots h n rfl
    have hone := Number.one_le_of_toInt? (hpos n rfl) hk
    have hkept : kept = hotspots.take k.toNat := by
      simp only [limitHotspots, hk, firstOf, if_pos (show 0 ≤ k by omega), Except.ok.injEq] at h
      exact h.symm
    have hlength : kept.length = min k.toNat hotspots.length := by rw [hkept, List.length_take]
    refine ⟨?_, nofun, fun m l hm hl => ?_⟩
    · rw [hlength, ← List.take_take, List.take_length]
      exact hkept
    · cases hm
      cases hk.symm.trans hl
      omega

theorem pairwise_ranksBefore (h : Hotspot.Descending g c hotspots) :
    (hotspots.map Hotspot.score).Pairwise CentralityScore.RanksBefore :=
  List.pairwise_map.2 (h.pageRanks.and h.ties)

theorem filed_of_classify {cutoffs : RiskCutoffs}
    (hok : Hotspot.classify (couplingTable g) c.scores cutoffs = .ok hotspots)
    (hranked : Centrality.Ranked g c) {h : Hotspot Float} (hh : h ∈ hotspots) :
    (couplingTable g).get? h.module = some h.coupling ∧ h.score ∈ c.scores ∧
      h.dependents = g.inDegree h.module ∧ h.dependencies = g.outDegree h.module := by
  have hm : h.module ∈ g.nodes :=
    (Hotspot.modules_perm hranked hok).mem_iff.1 (List.mem_map_of_mem hh)
  have hget := Plan.get?_couplingTable hm
  obtain ⟨hcoupling, hdependents, hdependencies⟩ := Hotspot.coupling_of_classify hok hh hget
  refine ⟨hcoupling ▸ hget, ?_, hdependents, hdependencies⟩
  exact (Hotspot.scores_perm hok).mem_iff.1 (List.mem_map_of_mem hh)

end Parts

theorem agrees_of_ok (hg : g.Mirrored) (hb : b ≤ 1023) (hsize : g.nodeCount < 2 ^ b)
    (hN : g.nodeCount ≠ 0) (hc : RankingConfig.check given = .ok config)
    (h : (ofGraph g config).outcome = .ok a) : Agrees g config a := by
  obtain ⟨components, c, plan, hotspots, kept, hcomponents, hrank, hplan, hclassify, hkept, rfl⟩ :=
    exists_stages hN h
  obtain ⟨components', hok, hp⟩ := ModuleGraph.partitioned_components hg
  obtain rfl := Except.ok.inj (hok.symm.trans hcomponents)
  obtain ⟨run, -, -, hranked⟩ := Centrality.run_of_rank hrank
  have hdefined : ∀ s ∈ c.scores, s.pageRank.isNaN = false := fun s hs =>
    (Centrality.nonneg_of_rank hg hb hsize hc hrank s hs).isNaN
  have hdescending := Hotspot.descending hranked hdefined hclassify
  have hne := g.nodeCount_ne_zero_iff.1 hN
  obtain ⟨setting, levels, hmade⟩ :=
    Plan.made_of_eq_ok hp (fun m hm => ⟨_, Plan.get?_couplingTable hm⟩) hne hplan
  -- components are counted where they are found, the cycles of the plan where they are peeled off
  have hcycles : (cyclesOf components').length = plan.cycles.length := by
    rw [(hmade.perm_cycles hp hg hok).length_eq, List.length_map]
  obtain ⟨htaken, hall, hlimited⟩ :=
    limitHotspots_eq_ok (RankingConfig.checked_of_check hc).hotspotLimit hkept
  have hlength : hotspots.length = g.nodes.length := by
    rw [← hdescending.perm.length_eq, List.length_map]
  have hmem : ∀ h ∈ kept, h ∈ hotspots := fun h hh => List.mem_of_mem_take (htaken ▸ hh)
  exact
    { coupled := Table.keys_ofKeys g.nodes g.nodup_nodes _
      scored := hranked.modules
      planned := hmade.perm_modules hp
      total := totalModules_of_make hplan
      counted := g.length_nodes.symm
      cycles := hcycles
      cyclic := by
        change (cyclesOf components').length = _
        rw [hcycles, hmade.cycles_eq, List.length_map, List.countP_eq_length_filter]
      foremost := by
        refine ⟨_, hdescending.scores, pairwise_ranksBefore hdescending, ?_⟩
        rw [← List.map_take, ← htaken]
      unlimited := fun hnone => (hall hnone).trans hlength
      limited := hlength ▸ hlimited
      filed := fun h hh => by
        obtain ⟨hget, hscore, -⟩ := filed_of_classify hclassify hranked (hmem h hh)
        exact ⟨hget, hscore⟩
      degrees := fun h hh => (filed_of_classify hclassify hranked (hmem h hh)).2.2 }

/-- With a checked configuration that can be used and whose tolerance has a double, every graph with
modules has an analysis, and its parts agree. Only a graph that no memory holds could have too many
modules for their count to have a double. -/
theorem parts_agree {edges isolated : Value} (hg : ModuleGraph.read? edges isolated = .ok g)
    (hne : g.nodes ≠ []) (hc : RankingConfig.check given = .ok config) (hu : config.Usable)
    (ht : ∃ t, config.tolerance.nearest = .ok t) : 2 ^ 1023 ≤ g.nodeCount ∨
      ∃ t a, start g config = some t ∧ t.outcome = .ok a ∧ Agrees g config a := by
  have hm := ModuleGraph.mirrored_of_read? hg
  have hN := g.nodeCount_ne_zero_iff.2 hne
  have hstart : start g config = some (ofGraph g config) :=
    if_pos (.inr ((areStagesBegun_iff hc).2 hu.workers))
  refine (Nat.lt_or_ge g.nodeCount (2 ^ 1023)).symm.imp_right fun hsize => ?_
  rcases outcome_of_usable hm hc hN hu with ⟨a, ha⟩ | ⟨-, hlarge | ⟨htolerance, -⟩⟩
  · exact ⟨_, a, hstart, ha, agrees_of_ok hm (Nat.le_refl 1023) hsize hN hc ha⟩
  · exact absurd hlarge hsize.not_ge
  · obtain ⟨x, hx⟩ := ht
    cases hx.symm.trans htolerance

theorem parts_agree_limited : ∃ g config t a,
    ModuleGraph.read? (.list [.tuple [.text "a", .text "b"], .tuple [.text "b", .text "a"],
      .tuple [.text "b", .text "c"], .tuple [.text "d", .text "d"]]) (.list [.text "e"]) = .ok g ∧
    RankingConfig.check (RankingConfig.value config) = .ok config ∧ start g config = some t ∧
    t.outcome = .ok a ∧ Agrees g config a ∧ a.hotspots.length = 2 := by
  let config : RankingConfig := { hotspotLimit := some (.int 2) }
  have hg : ModuleGraph.read? (.list [.tuple [.text "a", .text "b"],
      .tuple [.text "b", .text "a"], .tuple [.text "b", .text "c"],
      .tuple [.text "d", .text "d"]]) (.list [.text "e"]) =
    .ok (.ofEdges [("a", "b"), ("b", "a"), ("b", "c"), ("d", "d")] ["e"]) := rfl
  have hlength : (ModuleGraph.ofEdges [("a", "b"), ("b", "a"), ("b", "c"), ("d", "d")]
    ["e"]).nodes.length = 5 := ModuleGraph.length_nodes _
  have hc : RankingConfig.check (RankingConfig.value config) = .ok config :=
    RankingConfig.check_value { RankingConfig.checked_default with
      hotspotLimit := fun n hn => by cases hn; decide }
  have hu : config.Usable := ⟨⟨100, rfl⟩, fun n hn => by cases hn; exact ⟨2, rfl⟩, nofun⟩
  have hne : (ModuleGraph.ofEdges [("a", "b"), ("b", "a"), ("b", "c"), ("d", "d")]
    ["e"]).nodes ≠ [] := List.ne_nil_of_length_eq_add_one hlength
  rcases parts_agree hg hne hc hu ⟨1e-6, rfl⟩ with hlarge | ⟨t, a, hstart, ha, hagrees⟩
  · rw [← ModuleGraph.length_nodes, hlength] at hlarge
    exact absurd hlarge (Plan.lt_two_pow (by decide) (by decide)).not_ge
  · refine ⟨_, config, t, a, hg, hc, hstart, ha, hagrees, ?_⟩
    have hlimited := hagrees.limited (.int 2) 2 rfl rfl
    rw [hlength] at hlimited
    exact_mod_cast hlimited

end RankingAnalysis

end DependencyRanking
