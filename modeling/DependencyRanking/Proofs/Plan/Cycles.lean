import DependencyRanking.Proofs.Graph.Cycle
import DependencyRanking.Proofs.Plan.Safe

/-!
# Cycles as units

Every cyclic component becomes one phase of its own, whatever else stands in its level. So a module
lies on a cycle exactly if its phase is marked as one, and the cycles of a plan are the modules of
those phases.
-/
namespace DependencyRanking.Plan

/-- A plan that takes up every cyclic component as a whole and apart from everything else. -/
structure Isolates (g : ModuleGraph) (components : List Component) (plan : Plan) : Prop where
  orders : plan.phases.map Phase.order = List.range' 1 plan.phases.length
  placed : ∀ m ∈ g.nodes, ∃! p, p ∈ plan.phases ∧ m ∈ p.modules
  onCycle_iff : ∀ p ∈ plan.phases, ∀ m ∈ p.modules, g.OnCycle m ↔ p.isCycle = true
  component : ∀ p ∈ plan.phases, p.isCycle = true →
    ∃ c ∈ components, c.isCycle = true ∧ p.modules = c.nodes
  strong : ∀ p ∈ plan.phases, p.isCycle = true →
    ∃ u, ∀ v, v ∈ p.modules ↔ g.Reaches u v ∧ g.Reaches v u
  alone : ∀ p ∈ plan.phases, p.isCycle = true → p.canParallelize = false
  category : ∀ p ∈ plan.phases, p.isCycle = true → p.category = .cycle
  risky : ∀ p ∈ plan.phases, p.isCycle = true → RiskLevel.high.rank ≤ p.risk.rank
  cycles_eq : plan.cycles = (plan.phases.filter (·.isCycle)).map (·.modules)
  once : ∀ c ∈ components, c.isCycle = true → plan.cycles.count c.nodes = 1

variable {g : ModuleGraph} {components : List Component}
variable {ν : Type} [Measured ν] {coupling : Table ModuleId (CouplingMetrics ν)}
variable {s : Setting ν} {levels : List (List Nat)} {group : List Nat} {plan : Plan} {p q : Phase}
variable {c : Component} {i k : Nat} {m : ModuleId}

omit [Measured ν] in
theorem Setting.eq_singleton_of_isCycleGroup (h : s.isCycleGroup group = true) :
    ∃ i, group = [i] ∧ s.isCycleAt i = true := by
  unfold isCycleGroup at h
  split at h
  · exact ⟨_, rfl, h⟩
  · cases h

omit [Measured ν] in
theorem Setting.high_le_riskFor (h : s.isCycleGroup group = true) (score : Number) :
    RiskLevel.high.rank ≤ (s.riskFor group score).rank := by
  unfold riskFor
  rw [if_pos h]
  exact RiskLevel.le_atLeast _ _

namespace Made

variable (h : Made g components coupling s levels plan)
include h

theorem isCycle_eq (hk : plan.phases[k]? = some p)
    (hi : PlacedAt (levels.flatMap s.groups) i k) (hc : components[i]? = some c) :
    p.isCycle = c.isCycle := by
  obtain ⟨group, hg, hf⟩ := h.exists_group hk
  obtain ⟨group', hg', hig⟩ := hi
  obtain rfl := Option.some.inj (hg.symm.trans hg')
  rw [hf.isCycle, Setting.isCycleGroup_eq (List.mem_of_getElem? hg) hig,
    isCycleAt_eq h.condensation hc]

theorem onCycle_iff (hp : g.Partitioned components) (hm : g.Mirrored)
    (hok : g.components = .ok components) (hpp : p ∈ plan.phases) (hmp : m ∈ p.modules) :
    g.OnCycle m ↔ p.isCycle = true := by
  obtain ⟨k, i, c, hk, hi, hc, hmc⟩ := h.exists_position hpp hmp
  rw [h.isCycle_eq hk hi hc]
  exact (hp.isCycle_iff_onCycle hm hok (List.mem_of_getElem? hc) hmc).symm

theorem exists_cyclic (hpp : p ∈ plan.phases) (hcycle : p.isCycle = true) : ∃ k i,
    PlacedAt (levels.flatMap s.groups) i k ∧ s.isCycleAt i = true ∧
      Filled s (levels.flatMap s.groups) k [i] p := by
  obtain ⟨k, group, -, hg, hf⟩ := h.exists_filled hpp
  rw [hf.isCycle] at hcycle
  obtain ⟨i, rfl, hi⟩ := Setting.eq_singleton_of_isCycleGroup hcycle
  exact ⟨k, i, ⟨[i], hg, List.mem_singleton_self i⟩, hi, hf⟩

theorem exists_component (hpp : p ∈ plan.phases) (hcycle : p.isCycle = true) :
    ∃ c ∈ components, c.isCycle = true ∧ p.modules = c.nodes := by
  obtain ⟨k, i, hk, hi, hf⟩ := h.exists_cyclic hpp hcycle
  have hc := List.getElem?_eq_getElem (h.lt_length hk)
  rw [isCycleAt_eq h.condensation hc] at hi
  refine ⟨_, List.mem_of_getElem? hc, hi, ?_⟩
  rw [hf.modules]
  unfold Setting.members
  rw [List.flatMap_singleton, modulesAt_eq h.condensation hc]
  exact Component.sortIds_nodes _

theorem canParallelize_of_isCycle (hpp : p ∈ plan.phases) (hcycle : p.isCycle = true) :
    p.canParallelize = false := by
  obtain ⟨k, i, -, -, hf⟩ := h.exists_cyclic hpp hcycle
  exact hf.canParallelize

theorem category_of_isCycle (hpp : p ∈ plan.phases) (hcycle : p.isCycle = true) :
    p.category = .cycle := by
  obtain ⟨k, i, -, hi, hf⟩ := h.exists_cyclic hpp hcycle
  exact hf.category.trans (if_pos hi)

theorem high_le_risk (hpp : p ∈ plan.phases) (hcycle : p.isCycle = true) :
    RiskLevel.high.rank ≤ p.risk.rank := by
  obtain ⟨k, i, -, hi, hf⟩ := h.exists_cyclic hpp hcycle
  obtain ⟨score, -, hrisk⟩ := hf.risk
  have hgroup : s.isCycleGroup [i] = true := hi
  rw [hrisk]
  exact Setting.high_le_riskFor hgroup score

theorem cycles_eq : plan.cycles = (plan.phases.filter (·.isCycle)).map (·.modules) := by
  obtain ⟨phaseOf, hd⟩ := h.drafted
  exact hd.cycles

variable (hp : g.Partitioned components)
include hp

theorem exists_mem_modules (hpp : p ∈ plan.phases) : ∃ m, m ∈ p.modules := by
  obtain ⟨k, group, hk, hg, -⟩ := h.exists_filled hpp
  obtain ⟨i, hi⟩ := List.exists_mem_of_ne_nil group
    (s.mem_flatMap_groups (List.mem_of_getElem? hg)).1
  have hi' : PlacedAt (levels.flatMap s.groups) i k := ⟨group, hg, hi⟩
  have hc := List.getElem?_eq_getElem (h.lt_length hi')
  obtain ⟨m, hm⟩ := List.exists_mem_of_ne_nil _ (hp.nonempty _ (List.mem_of_getElem? hc))
  exact ⟨m, (h.mem_modules hk).2 ⟨i, _, hi', hc, hm⟩⟩

theorem nodup_cycles : plan.cycles.Nodup := by
  rw [h.cycles_eq]
  refine List.Nodup.map_on ?_ (h.nodup_phases.filter _)
  intro p hpf q hqf hpq
  have hpp := (List.mem_filter.1 hpf).1
  have hqp := (List.mem_filter.1 hqf).1
  obtain ⟨m, hmp⟩ := h.exists_mem_modules hp hpp
  have hmq : m ∈ q.modules := hpq ▸ hmp
  exact h.phase_unique hp hpp hqp hmp hmq Relation.ReflTransGen.refl Relation.ReflTransGen.refl

theorem count_cycles (hm : g.Mirrored) (hok : g.components = .ok components)
    (hc : c ∈ components) (hcycle : c.isCycle = true) : plan.cycles.count c.nodes = 1 := by
  refine List.count_eq_one_of_mem (h.nodup_cycles hp) ?_
  obtain ⟨m, hmc⟩ := List.exists_mem_of_ne_nil _ (hp.nonempty c hc)
  have hmn : m ∈ g.nodes := (hp.cover m).1 (List.mem_flatMap.2 ⟨c, hc, hmc⟩)
  obtain ⟨p, ⟨hpp, hmp⟩, -⟩ := h.existsUnique_phase hp hmn
  have hpc : p.isCycle = true :=
    (h.onCycle_iff hp hm hok hpp hmp).1 ((hp.isCycle_iff_onCycle hm hok hc hmc).1 hcycle)
  obtain ⟨d, hd, -, hmod⟩ := h.exists_component hpp hpc
  obtain rfl := hp.component_unique hc hd hmc (hmod ▸ hmp)
  rw [h.cycles_eq, ← hmod]
  exact List.mem_map_of_mem (List.mem_filter.2 ⟨hpp, hpc⟩)

theorem perm_cycles (hm : g.Mirrored) (hok : g.components = .ok components) :
    plan.cycles.Perm ((cyclesOf components).map Component.nodes) := by
  refine (List.perm_ext_iff_of_nodup (h.nodup_cycles hp) ?_).2 fun nodes => ?_
  · exact hp.nodup_map_nodes.sublist (List.filter_sublist.map _)
  · rw [h.cycles_eq]
    simp only [cyclesOf, List.mem_map, List.mem_filter]
    constructor
    · rintro ⟨p, ⟨hpp, hpc⟩, rfl⟩
      obtain ⟨c, hc, hcycle, hmod⟩ := h.exists_component hpp hpc
      exact ⟨c, ⟨hc, hcycle⟩, hmod.symm⟩
    · rintro ⟨c, ⟨hc, hcycle⟩, rfl⟩
      have hmem := List.count_pos_iff.1 (h.count_cycles hp hm hok hc hcycle ▸ Nat.one_pos)
      rw [h.cycles_eq] at hmem
      simpa only [List.mem_map, List.mem_filter] using hmem

theorem isolates (hm : g.Mirrored) (hok : g.components = .ok components) :
    Isolates g components plan where
  orders := h.orders_eq
  placed _ hmn := h.existsUnique_phase hp hmn
  onCycle_iff _ hpp _ hmp := h.onCycle_iff hp hm hok hpp hmp
  component _ hpp hcycle := h.exists_component hpp hcycle
  strong p hpp hcycle := by
    obtain ⟨c, hc, -, hmod⟩ := h.exists_component hpp hcycle
    obtain ⟨u, hu⟩ := List.exists_mem_of_ne_nil _ (hp.nonempty c hc)
    refine ⟨u, fun v => ?_⟩
    rw [hmod]
    exact hp.mem_iff_mutual hm hc hu
  alone _ hpp hcycle := h.canParallelize_of_isCycle hpp hcycle
  category _ hpp hcycle := h.category_of_isCycle hpp hcycle
  risky _ hpp hcycle := h.high_le_risk hpp hcycle
  cycles_eq := h.cycles_eq
  once _ hc hcycle := h.count_cycles hp hm hok hc hcycle

end Made

theorem Isolates.empty (hp : g.Partitioned components) (hg : g.nodes = []) :
    Isolates g components {} where
  orders := rfl
  placed _ hm := absurd hm (hg ▸ List.not_mem_nil)
  onCycle_iff _ hp := absurd hp List.not_mem_nil
  component _ hp := absurd hp List.not_mem_nil
  strong _ hp := absurd hp List.not_mem_nil
  alone _ hp := absurd hp List.not_mem_nil
  category _ hp := absurd hp List.not_mem_nil
  risky _ hp := absurd hp List.not_mem_nil
  cycles_eq := rfl
  once c hc _ := by
    obtain ⟨m, hm⟩ := List.exists_mem_of_ne_nil _ (hp.nonempty c hc)
    have hmn := (hp.cover m).1 (List.mem_flatMap.2 ⟨c, hc, hm⟩)
    rw [hg] at hmn
    exact absurd hmn List.not_mem_nil

/-- The plan for a graph that was read isolates the cycles of the graph: a module lies on one
exactly if its phase is marked, and every cyclic component is listed once. -/
theorem make_isolates {edges isolated : Value} {given : DependencyRanking.Setting → Value}
    {config : RankingConfig} (hg : ModuleGraph.read? edges isolated = .ok g)
    (hc : RankingConfig.check given = .ok config) :
    ∃ components, g.components = .ok components ∧
      (g.nodeCount < 2 ^ 1023 → ∃ plan, make g components
        (couplingTable g : Table ModuleId (CouplingMetrics Float)) config = .ok plan) ∧
      ∀ plan, make g components
        (couplingTable g : Table ModuleId (CouplingMetrics Float)) config = .ok plan →
          Isolates g components plan := by
  have hm := ModuleGraph.mirrored_of_read? hg
  obtain ⟨components, hok, hp, hex, hmade⟩ := exists_made hg hc
  refine ⟨components, hok, hex, ?_⟩
  intro plan hplan
  rcases hmade plan hplan with ⟨hnodes, rfl⟩ | ⟨s, levels, h⟩
  · exact Isolates.empty hp hnodes
  · exact h.isolates hp hm hok

theorem make_isolates_loop : ∃ g components plan,
    ModuleGraph.read? (.list [.tuple [.text "a", .text "b"], .tuple [.text "b", .text "a"],
      .tuple [.text "c", .text "c"]]) (.list [.text "d"]) = .ok g ∧
    RankingConfig.check DependencyRanking.Setting.default = .ok {} ∧ g.components = .ok components ∧
    make g components (couplingTable g : Table ModuleId (CouplingMetrics Float)) {} = .ok plan ∧
    Isolates g components plan ∧ ∃ p ∈ plan.phases, "c" ∈ p.modules ∧ p.isCycle = true := by
  have hg : ModuleGraph.read? (.list [.tuple [.text "a", .text "b"], .tuple [.text "b", .text "a"],
      .tuple [.text "c", .text "c"]]) (.list [.text "d"]) =
    .ok (.ofEdges [("a", "b"), ("b", "a"), ("c", "c")] ["d"]) := rfl
  obtain ⟨components, hok, hex, hall⟩ := make_isolates hg RankingConfig.check_default
  obtain ⟨plan, hplan⟩ := hex (lt_two_pow (by decide) (by decide))
  have hi := hall plan hplan
  refine ⟨_, components, plan, hg, RankingConfig.check_default, hok, hplan, hi, ?_⟩
  have hnode : "c" ∈ (ModuleGraph.ofEdges [("a", "b"), ("b", "a"), ("c", "c")] ["d"]).nodes := by
    rw [ModuleGraph.mem_nodes_ofEdges]
    exact .inr ⟨("c", "c"), by simp, .inl rfl⟩
  have hloop : (ModuleGraph.ofEdges [("a", "b"), ("b", "a"), ("c", "c")] ["d"]).OnCycle "c" := by
    apply Relation.TransGen.single
    unfold ModuleGraph.Depends
    rw [ModuleGraph.mem_outgoing_ofEdges]
    simp
  obtain ⟨p, ⟨hpp, hmp⟩, -⟩ := hi.placed "c" hnode
  exact ⟨p, hpp, hmp, (hi.onCycle_iff p hpp "c" hmp).1 hloop⟩

end DependencyRanking.Plan
