import DependencyRanking.Proofs.Plan.Core
import DependencyRanking.Proofs.Plan.Draft

/-!
# Making a plan

Once the quantile is a double, a plan for the components of a graph can fail only where a count of
dependents exceeds all doubles. The phases of a plan are the drafted groups of the levels.
-/
namespace DependencyRanking.Plan

variable {g : ModuleGraph} {components : List Component} {config : RankingConfig}
variable {ν : Type} {coupling : Table ModuleId (CouplingMetrics ν)}
variable {s : Setting ν} {group : List Nat} {plan : Plan} {c : Component}
variable {i : Nat} {m : ModuleId}

theorem getElem?_components (hs : s.condensation = g.condense components) :
    s.condensation.components[i]? = components[i]? := by
  rw [hs]
  rfl

theorem modulesAt_eq (hs : s.condensation = g.condense components)
    (hc : components[i]? = some c) : s.modulesAt i = c.nodes := by
  unfold Setting.modulesAt
  rw [getElem?_components hs, hc]

theorem isCycleAt_eq (hs : s.condensation = g.condense components)
    (hc : components[i]? = some c) : s.isCycleAt i = c.isCycle := by
  unfold Setting.isCycleAt
  rw [getElem?_components hs, hc]

theorem mem_modulesAt (hs : s.condensation = g.condense components) :
    m ∈ s.modulesAt i ↔ ∃ c, components[i]? = some c ∧ m ∈ c.nodes := by
  cases hc : components[i]? with
  | none =>
    unfold Setting.modulesAt
    rw [getElem?_components hs, hc]
    simp
  | some c => simp [modulesAt_eq hs hc]

theorem mem_members (hs : s.condensation = g.condense components) :
    m ∈ s.members group ↔ ∃ i ∈ group, ∃ c, components[i]? = some c ∧ m ∈ c.nodes := by
  unfold Setting.members
  rw [mem_sortIds, List.mem_flatMap]
  simp only [mem_modulesAt hs]

theorem rated_of_partitioned (h : g.Partitioned components)
    (hs : s.condensation = g.condense components)
    (hc : ∀ m ∈ g.nodes, ∃ metrics, s.coupling.get? m = some metrics)
    (hne : group ≠ []) (hlt : ∀ i ∈ group, i < components.length) : s.Rated group := by
  constructor
  · obtain ⟨i, hi⟩ := List.exists_mem_of_ne_nil group hne
    have hget := List.getElem?_eq_getElem (hlt i hi)
    obtain ⟨m, hm⟩ := List.exists_mem_of_ne_nil _ (h.nonempty _ (List.mem_of_getElem? hget))
    exact List.ne_nil_of_mem ((mem_members hs).2 ⟨i, hi, _, hget, hm⟩)
  · intro m hm
    obtain ⟨i, -, c, hci, hmc⟩ := (mem_members hs).1 hm
    exact hc m ((h.cover m).1 (List.mem_flatMap.2 ⟨c, List.mem_of_getElem? hci, hmc⟩))

variable [Measured ν]

/-- A plan of the levels of a graph, in a setting that fits it. -/
structure Made (g : ModuleGraph) (components : List Component)
    (coupling : Table ModuleId (CouplingMetrics ν)) (s : Setting ν) (levels : List (List Nat))
    (plan : Plan) : Prop where
  condensation : s.condensation = g.condense components
  coupling : s.coupling = coupling
  levelled : Levelled s.condensation.successors [] levels
  drafted : ∃ phaseOf, Drafted s (levels.flatMap s.groups) ⟨plan.phases, plan.cycles, phaseOf⟩

theorem drafted_levels (h : g.Partitioned components)
    (hs : s.condensation = g.condense components)
    (hc : ∀ m ∈ g.nodes, ∃ metrics, s.coupling.get? m = some metrics) :
    ∃ levels d, s.condensation.levels = .ok levels ∧
      Levelled s.condensation.successors [] levels ∧
      (levels.flatMap s.groups).foldlM s.addPhase {} = .ok d ∧
      Drafted s (levels.flatMap s.groups) d := by
  obtain ⟨levels, hok, hl⟩ : ∃ levels, s.condensation.levels = .ok levels ∧
      Levelled s.condensation.successors [] levels := by
    rw [hs]
    exact levelsOf_levelled (g.transposed_condense components)
  have hperm := s.perm_flatMap_groups levels
  obtain ⟨d, hfold, hd⟩ := drafted_foldlM (s.scheduled_groups hl)
    (hperm.nodup_iff.2 hl.peeled.nodup_flatten) fun group hg => by
      refine rated_of_partitioned h hs hc (s.mem_flatMap_groups hg).1 fun i hi => ?_
      rw [← g.length_successors components, ← hs]
      exact hl.peeled.lt_length i (hperm.mem_iff.1 (List.mem_flatten.2 ⟨group, hg, hi⟩))
  exact ⟨levels, d, hok, hl, hfold, hd⟩

def settingOf (g : ModuleGraph) (components : List Component)
    (coupling : Table ModuleId (CouplingMetrics ν)) (config : RankingConfig)
    (metrics : List (CouplingMetrics ν)) (core : List ModuleId) : Setting ν where
  condensation := g.condense components
  coupling := coupling
  risks := config.risks
  leaves := ((g.nodes.zip metrics).filter fun m => m.2.efferent = 0).map Prod.fst
  core := core

/-- A plan with the leaves, the core modules and the risk that the metrics of the modules yield. -/
structure Composed (g : ModuleGraph) (components : List Component)
    (coupling : Table ModuleId (CouplingMetrics ν)) (config : RankingConfig)
    (metrics : List (CouplingMetrics ν)) (levels : List (List Nat)) (plan : Plan) : Prop where
  made : Made g components coupling (settingOf g components coupling config metrics plan.core)
    levels plan
  measured : g.nodes.mapM (metricsOf coupling) = .ok metrics
  leaves : plan.leaves = (settingOf g components coupling config metrics plan.core).leaves
  core : ∃ q, config.coreQuantile.nearest = .ok q ∧
    coreModules ((g.nodes.zip metrics).map fun m => (m.1, m.2.afferent)) q = .ok plan.core
  risk : plan.risk = .highest (plan.phases.map Phase.risk)

theorem composed_of_eq_ok (h : g.Partitioned components)
    (hc : ∀ m ∈ g.nodes, ∃ metrics, coupling.get? m = some metrics) (hne : g.nodes ≠ [])
    (hok : make g components coupling config = .ok plan) :
    ∃ metrics levels, Composed g components coupling config metrics levels plan := by
  unfold make at hok
  dsimp only at hok
  rw [if_neg hne] at hok
  obtain ⟨metrics, hmetrics, hok⟩ := Outcome.bind_eq_ok.1 hok
  obtain ⟨q, hq, hok⟩ := Outcome.bind_eq_ok.1 hok
  obtain ⟨floats, -, hok⟩ := Outcome.bind_eq_ok.1 hok
  obtain ⟨core, hcore, hok⟩ := Outcome.bind_eq_ok.1 hok
  obtain ⟨levels, d, hlevels, hl, hfold, hd⟩ :=
    drafted_levels (s := settingOf g components coupling config metrics core) h rfl hc
  obtain ⟨levels', hlevels', hok⟩ := Outcome.bind_eq_ok.1 hok
  obtain rfl : levels = levels' := Except.ok.inj (hlevels.symm.trans hlevels')
  obtain ⟨d', hfold', hok⟩ := Outcome.bind_eq_ok.1 hok
  obtain rfl : d = d' := Except.ok.inj (hfold.symm.trans hfold')
  cases hok
  exact ⟨metrics, levels, ⟨rfl, rfl, hl, d.phaseOf, hd⟩, hmetrics, rfl, ⟨q, hq, hcore⟩, rfl⟩

theorem made_of_eq_ok (h : g.Partitioned components)
    (hc : ∀ m ∈ g.nodes, ∃ metrics, coupling.get? m = some metrics) (hne : g.nodes ≠ [])
    (hok : make g components coupling config = .ok plan) :
    ∃ (s : Setting ν) (levels : List (List Nat)), Made g components coupling s levels plan := by
  obtain ⟨metrics, levels, hcomposed⟩ := composed_of_eq_ok h hc hne hok
  exact ⟨_, levels, hcomposed.made⟩

theorem make_ok_or_tooLarge {q : Float} (h : g.Partitioned components)
    (hc : ∀ m ∈ g.nodes, ∃ metrics, coupling.get? m = some metrics)
    (hq : config.coreQuantile.nearest = .ok q) (h0 : (0.0 : Float) ≤ q) (h1 : q ≤ 1.0) :
    (∃ plan, make g components coupling config = .ok plan) ∨
      make g components coupling config = .error .numberTooLarge ∧
        ∃ m ∈ g.nodes, ∃ metrics, coupling.get? m = some metrics ∧
          2 ^ 1023 ≤ metrics.afferent.natAbs := by
  by_cases hne : g.nodes = []
  · exact .inl ⟨{}, if_pos hne⟩
  obtain ⟨metrics, hmetrics, -, hmem⟩ := Outcome.mapM_ok (f := metricsOf coupling)
    (P := fun metrics => ∃ m ∈ g.nodes, coupling.get? m = some metrics) fun m hm => by
      obtain ⟨metrics, hget⟩ := hc m hm
      exact ⟨metrics, by rw [metricsOf, hget], m, hm, hget⟩
  by_cases hall : ∀ m ∈ metrics, ∃ x, (Number.int m.afferent).nearest = .ok x
  · left
    obtain ⟨floats, hfloats, -⟩ : ∃ floats, Number.nearestAll (metrics.map fun m =>
        .int m.afferent) = .ok floats ∧ floats.length = _ ∧ ∀ x ∈ floats, True := by
      refine Outcome.mapM_ok fun n hn => ?_
      obtain ⟨m, hm, rfl⟩ := List.mem_map.1 hn
      obtain ⟨x, hx⟩ := hall m hm
      exact ⟨x, hx, trivial⟩
    obtain ⟨core, hcore⟩ := coreModules_ok
      ((g.nodes.zip metrics).map fun m => (m.1, m.2.afferent)) h0 h1
    obtain ⟨levels, d, hlevels, -, hfold, -⟩ :=
      drafted_levels (s := settingOf g components coupling config metrics core) h rfl hc
    unfold make
    dsimp only
    rw [if_neg hne]
    refine ⟨_, Outcome.bind_eq_ok.2 ⟨metrics, hmetrics, Outcome.bind_eq_ok.2 ⟨q, hq,
      Outcome.bind_eq_ok.2 ⟨floats, hfloats, Outcome.bind_eq_ok.2 ⟨core, hcore,
        Outcome.bind_eq_ok.2 ⟨levels, hlevels, Outcome.bind_eq_ok.2 ⟨d, hfold, rfl⟩⟩⟩⟩⟩⟩⟩
  · right
    simp only [not_forall] at hall
    obtain ⟨m, hm, hnone⟩ := hall
    have hfloats : Number.nearestAll (metrics.map fun m => .int m.afferent) =
        .error .numberTooLarge := by
      refine Outcome.mapM_eq_error ⟨_, List.mem_map_of_mem hm,
        (Number.nearest_ok_or_tooLarge _).resolve_left hnone⟩ fun n _ e he => ?_
      rcases Number.nearest_ok_or_tooLarge n with ⟨x, hx⟩ | hlarge
      · cases he.symm.trans hx
      · cases he.symm.trans hlarge
        rfl
    constructor
    · unfold make
      dsimp only
      rw [if_neg hne, hmetrics, hq]
      simp only [bind, Except.bind, hfloats]
    · obtain ⟨v, hv, hget⟩ := hmem m hm
      refine ⟨v, hv, m, hget, Nat.le_of_not_lt fun hsmall => hnone ?_⟩
      exact ⟨_, Number.nearest_int m.afferent (Nat.le_refl 1023) hsmall⟩

theorem make_ok {q : Float} {b : Nat} (h : g.Partitioned components) (hb : b ≤ 1023)
    (hc : ∀ m ∈ g.nodes, ∃ metrics, coupling.get? m = some metrics ∧
      metrics.afferent.natAbs < 2 ^ b)
    (hq : config.coreQuantile.nearest = .ok q) (h0 : (0.0 : Float) ≤ q) (h1 : q ≤ 1.0) :
    ∃ plan, make g components coupling config = .ok plan := by
  have hget : ∀ m ∈ g.nodes, ∃ metrics, coupling.get? m = some metrics := fun m hm =>
    (hc m hm).imp fun _ h => h.1
  rcases make_ok_or_tooLarge h hget hq h0 h1 with hok | ⟨-, m, hm, metrics, hmetrics, hlarge⟩
  · exact hok
  · obtain ⟨metrics', hmetrics', hsmall⟩ := hc m hm
    obtain rfl := Option.some.inj (hmetrics.symm.trans hmetrics')
    have hpow : ∀ t, b ≤ t → metrics.afferent.natAbs < 2 ^ t := fun t ht =>
      hsmall.trans_le (Nat.pow_le_pow_right Nat.two_pos ht)
    exact absurd hlarge (hpow 1023 hb).not_ge

end DependencyRanking.Plan
