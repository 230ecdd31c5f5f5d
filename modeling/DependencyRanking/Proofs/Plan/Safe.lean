import DependencyRanking.Proofs.Plan.Make
import DependencyRanking.Proofs.Settings.Check

/-!
# The order of a plan is safe

Every module stands in exactly one phase, and paths lead from later phases to earlier ones or stay
within a phase: along a path the position of a module stays the same or its phase gets smaller.
-/
namespace DependencyRanking.Plan

/-- A plan that takes up every module once, after all that it depends on. -/
structure Safe (g : ModuleGraph) (plan : Plan) : Prop where
  orders : plan.phases.map Phase.order = List.range' 1 plan.phases.length
  placed : ∀ m ∈ g.nodes, ∃! p, p ∈ plan.phases ∧ m ∈ p.modules
  listed : ∀ p ∈ plan.phases, p.modules.Nodup ∧ ∀ m ∈ p.modules, m ∈ g.nodes
  earlier : ∀ p ∈ plan.phases, ∀ q ∈ plan.phases, ∀ u ∈ p.modules, ∀ v ∈ q.modules,
    g.Reaches u v → ¬ g.Reaches v u → q.order < p.order
  together : ∀ p ∈ plan.phases, ∀ q ∈ plan.phases, ∀ u ∈ p.modules, ∀ v ∈ q.modules,
    g.Reaches u v → g.Reaches v u → p = q
  independent : ∀ p ∈ plan.phases, p.canParallelize = true →
    ∀ u ∈ p.modules, ∀ v ∈ p.modules, u ≠ v → ¬ g.Reaches u v
  parallel_iff : ∀ p ∈ plan.phases, p.canParallelize = true ↔
    p.isCycle = false ∧ 2 ≤ p.modules.length

variable {g : ModuleGraph} {components : List Component}
variable {ν : Type} [Measured ν] {coupling : Table ModuleId (CouplingMetrics ν)}
variable {s : Setting ν} {levels : List (List Nat)} {group : List Nat} {plan : Plan} {p : Phase}
variable {c d : Component} {i j k l : Nat} {u v m : ModuleId}

namespace Made

variable (h : Made g components coupling s levels plan)
include h

theorem filled (hg : (levels.flatMap s.groups)[k]? = some group) :
    ∃ p, plan.phases[k]? = some p ∧ Filled s (levels.flatMap s.groups) k group p := by
  obtain ⟨phaseOf, hd⟩ := h.drafted
  exact hd.filled k group hg

theorem exists_group (hp : plan.phases[k]? = some p) : ∃ group,
    (levels.flatMap s.groups)[k]? = some group ∧
      Filled s (levels.flatMap s.groups) k group p := by
  obtain ⟨phaseOf, hd⟩ := h.drafted
  have hk : k < (levels.flatMap s.groups).length := by
    rw [← hd.length]
    exact (List.getElem?_eq_some_iff.1 hp).1
  obtain ⟨q, hq, hf⟩ := hd.filled k _ (List.getElem?_eq_getElem hk)
  cases hp.symm.trans hq
  exact ⟨_, List.getElem?_eq_getElem hk, hf⟩

theorem exists_filled (hpp : p ∈ plan.phases) : ∃ k group, plan.phases[k]? = some p ∧
    (levels.flatMap s.groups)[k]? = some group ∧
      Filled s (levels.flatMap s.groups) k group p := by
  obtain ⟨k, hk⟩ := List.mem_iff_getElem?.1 hpp
  obtain ⟨group, hg, hf⟩ := h.exists_group hk
  exact ⟨k, group, hk, hg, hf⟩

theorem nodup_flatten : (levels.flatMap s.groups).flatten.Nodup :=
  (s.perm_flatMap_groups levels).nodup_iff.2 h.levelled.peeled.nodup_flatten

theorem levelled_condense : Levelled (g.condense components).successors [] levels := by
  rw [← h.condensation]
  exact h.levelled

theorem scheduled : Scheduled (g.condense components).successors [] (levels.flatMap s.groups) :=
  s.scheduled_groups h.levelled_condense

theorem mem_modules (hp : plan.phases[k]? = some p) : m ∈ p.modules ↔ ∃ (i : Nat) (c : Component),
    PlacedAt (levels.flatMap s.groups) i k ∧ components[i]? = some c ∧ m ∈ c.nodes := by
  obtain ⟨group, hg, hf⟩ := h.exists_group hp
  rw [hf.modules, mem_members h.condensation]
  constructor
  · rintro ⟨i, hi, c, hc, hm⟩
    exact ⟨i, c, ⟨group, hg, hi⟩, hc, hm⟩
  · rintro ⟨i, c, ⟨group', hg', hi⟩, hc, hm⟩
    cases hg.symm.trans hg'
    exact ⟨i, hi, c, hc, hm⟩

theorem lt_length (hk : PlacedAt (levels.flatMap s.groups) i k) : i < components.length := by
  have hi := PlacedAt.exists_iff.1 ⟨k, hk⟩
  rw [(s.perm_flatMap_groups levels).mem_iff] at hi
  have hlt := h.levelled_condense.peeled.lt_length i hi
  rw [g.length_successors] at hlt
  exact hlt

variable (hp : g.Partitioned components)
include hp

theorem placedAt (hi : i < components.length) : ∃ k, PlacedAt (levels.flatMap s.groups) i k := by
  rw [PlacedAt.exists_iff, (s.perm_flatMap_groups levels).mem_iff]
  refine h.levelled_condense.peeled.mem_flatten_of_lt (fun i j hj => hp.successor_lt hj) ?_
  rw [g.length_successors]
  exact hi

theorem position_or_earlier (hm : g.Mirrored) (hr : g.Reaches u v)
    (hc : components[i]? = some c) (hu : u ∈ c.nodes) (hd : components[j]? = some d)
    (hv : v ∈ d.nodes) (hk : PlacedAt (levels.flatMap s.groups) i k)
    (hl : PlacedAt (levels.flatMap s.groups) j l) : i = j ∨ l < k := by
  refine hp.position_or_earlier hm h.scheduled h.nodup_flatten ?_ hr hc hu hd hv hk hl
  exact fun n hn => PlacedAt.exists_iff.1 (h.placedAt hp hn)

theorem length_modulesAt (hi : i < components.length) (hc : s.isCycleAt i = false) :
    (s.modulesAt i).length = 1 := by
  have hget := List.getElem?_eq_getElem hi
  have hne := List.length_pos_of_ne_nil (hp.nonempty _ (List.mem_of_getElem? hget))
  rw [isCycleAt_eq h.condensation hget] at hc
  rw [modulesAt_eq h.condensation hget]
  refine Nat.le_antisymm (Nat.le_of_not_lt fun hlt => ?_) hne
  simp [Component.isCycle, Component.size, hlt] at hc

theorem length_members (hg : (levels.flatMap s.groups)[k]? = some group)
    (hc : ∀ i ∈ group, s.isCycleAt i = false) : (s.members group).length = group.length := by
  have hone : ∀ i ∈ group, (s.modulesAt i).length = 1 := fun i hi =>
    h.length_modulesAt hp (h.lt_length ⟨group, hg, hi⟩) (hc i hi)
  unfold Setting.members
  rw [(sortIds_perm _).length_eq, List.length_flatMap, List.map_congr_left hone]
  simp

theorem nodup_members (hg : (levels.flatMap s.groups)[k]? = some group) :
    (s.members group).Nodup := by
  have hn : group.Nodup := (List.nodup_flatten.1 h.nodup_flatten).1 _ (List.mem_of_getElem? hg)
  refine nodup_sortIds (List.nodup_flatMap.2 ⟨fun i hi => ?_, hn.imp fun {i j} hij => ?_⟩)
  · have hget := List.getElem?_eq_getElem (h.lt_length ⟨group, hg, hi⟩)
    rw [modulesAt_eq h.condensation hget]
    exact Component.nodup _
  · intro m hmi hmj
    obtain ⟨c, hc, hmc⟩ := (mem_modulesAt h.condensation).1 hmi
    obtain ⟨d, hd, hmd⟩ := (mem_modulesAt h.condensation).1 hmj
    exact hij (hp.position_unique hc hd hmc hmd)

theorem parallel_iff (hg : (levels.flatMap s.groups)[k]? = some group) :
    1 < group.length ↔ s.isCycleGroup group = false ∧ 2 ≤ (s.members group).length := by
  obtain ⟨hne, hgroup⟩ := s.mem_flatMap_groups (List.mem_of_getElem? hg)
  rcases hgroup with hc | ⟨i, rfl, hc⟩
  · obtain ⟨i, hi⟩ := List.exists_mem_of_ne_nil group hne
    rw [h.length_members hp hg hc, Setting.isCycleGroup_eq (List.mem_of_getElem? hg) hi]
    exact ⟨fun hlt => ⟨hc i hi, hlt⟩, fun hlt => hlt.2⟩
  · refine ⟨fun hlt => absurd hlt (by simp), fun hlt => absurd hlt.1 ?_⟩
    change ¬ s.isCycleAt i = false
    simp [hc]

omit hp in
theorem exists_position (hpp : p ∈ plan.phases) (hu : u ∈ p.modules) :
    ∃ (k i : Nat) (c : Component), plan.phases[k]? = some p ∧
      PlacedAt (levels.flatMap s.groups) i k ∧ components[i]? = some c ∧ u ∈ c.nodes := by
  obtain ⟨k, hk⟩ := List.mem_iff_getElem?.1 hpp
  obtain ⟨i, c, hi, hc, huc⟩ := (h.mem_modules hk).1 hu
  exact ⟨k, i, c, hk, hi, hc, huc⟩

omit hp in
theorem order_eq (hk : plan.phases[k]? = some p) : p.order = k + 1 := by
  obtain ⟨group, -, hf⟩ := h.exists_group hk
  exact hf.order

omit hp in
theorem orders_eq : plan.phases.map Phase.order = List.range' 1 plan.phases.length := by
  refine List.ext_getElem? fun k => ?_
  rw [List.getElem?_map]
  cases hk : plan.phases[k]? with
  | none =>
    have hle := List.getElem?_eq_none_iff.1 hk
    rw [List.getElem?_eq_none (by simpa using hle)]
    rfl
  | some p =>
    have hlt := (List.getElem?_eq_some_iff.1 hk).1
    rw [List.getElem?_range' hlt, Option.map_some, h.order_eq hk, Nat.one_mul, Nat.add_comm]

omit hp in
theorem nodup_phases : plan.phases.Nodup := by
  refine List.Nodup.of_map Phase.order ?_
  rw [h.orders_eq]
  exact List.nodup_range'

theorem existsUnique_phase (hm : m ∈ g.nodes) : ∃! p, p ∈ plan.phases ∧ m ∈ p.modules := by
  obtain ⟨i, c, hc, hmc⟩ := hp.exists_position hm
  obtain ⟨k, hk⟩ := h.placedAt hp (List.getElem?_eq_some_iff.1 hc).1
  obtain ⟨group, hg, -⟩ := id hk
  obtain ⟨p, hkp, -⟩ := h.filled hg
  refine ⟨p, ⟨List.mem_of_getElem? hkp, (h.mem_modules hkp).2 ⟨i, c, hk, hc, hmc⟩⟩, ?_⟩
  rintro q ⟨hq, hmq⟩
  obtain ⟨l, j, d, hl, hj, hd, hmd⟩ := h.exists_position hq hmq
  obtain rfl := hp.position_unique hc hd hmc hmd
  obtain rfl := hk.unique h.nodup_flatten hj
  exact Option.some.inj (hl.symm.trans hkp)

theorem nodup_modules (hpp : p ∈ plan.phases) : p.modules.Nodup := by
  obtain ⟨k, group, -, hg, hf⟩ := h.exists_filled hpp
  rw [hf.modules]
  exact h.nodup_members hp hg

theorem mem_nodes (hpp : p ∈ plan.phases) (hu : u ∈ p.modules) : u ∈ g.nodes := by
  obtain ⟨k, i, c, -, -, hc, huc⟩ := h.exists_position hpp hu
  exact (hp.cover u).1 (List.mem_flatMap.2 ⟨c, List.mem_of_getElem? hc, huc⟩)

theorem order_lt (hm : g.Mirrored) {q : Phase} (hpp : p ∈ plan.phases) (hqp : q ∈ plan.phases)
    (hu : u ∈ p.modules) (hv : v ∈ q.modules) (huv : g.Reaches u v) (hvu : ¬ g.Reaches v u) :
    q.order < p.order := by
  obtain ⟨k, i, c, hk, hi, hc, huc⟩ := h.exists_position hpp hu
  obtain ⟨l, j, d, hl, hj, hd, hvd⟩ := h.exists_position hqp hv
  rcases h.position_or_earlier hp hm huv hc huc hd hvd hi hj with rfl | hlt
  · obtain rfl := Option.some.inj (hc.symm.trans hd)
    exact absurd (hp.joined c (List.mem_of_getElem? hc) v hvd u huc) hvu
  · rw [h.order_eq hk, h.order_eq hl]
    exact Nat.succ_lt_succ hlt

theorem phase_unique {q : Phase} (hpp : p ∈ plan.phases) (hqp : q ∈ plan.phases)
    (hu : u ∈ p.modules) (hv : v ∈ q.modules) (huv : g.Reaches u v) (hvu : g.Reaches v u) :
    p = q := by
  obtain ⟨k, i, c, hk, hi, hc, huc⟩ := h.exists_position hpp hu
  obtain ⟨l, j, d, hl, hj, hd, hvd⟩ := h.exists_position hqp hv
  obtain rfl : i = j := Nat.le_antisymm (hp.backward j i d c hd hc v hvd u huc hvu)
    (hp.backward i j c d hc hd u huc v hvd huv)
  obtain rfl := hi.unique h.nodup_flatten hj
  exact Option.some.inj (hk.symm.trans hl)

theorem perm_modules : (plan.phases.flatMap Phase.modules).Perm g.nodes := by
  refine (List.perm_ext_iff_of_nodup ?_ g.nodup_nodes).2 fun m => ?_
  · refine List.nodup_flatMap.2 ⟨fun p hpp => h.nodup_modules hp hpp, ?_⟩
    refine h.nodup_phases.imp_of_mem fun {p q} hpp hqp hpq m hmp hmq => hpq ?_
    exact h.phase_unique hp hpp hqp hmp hmq .refl .refl
  · rw [List.mem_flatMap]
    constructor
    · rintro ⟨p, hpp, hmp⟩
      exact h.mem_nodes hp hpp hmp
    · intro hm
      obtain ⟨p, ⟨hpp, hmp⟩, -⟩ := h.existsUnique_phase hp hm
      exact ⟨p, hpp, hmp⟩

theorem not_reaches (hm : g.Mirrored) (hpp : p ∈ plan.phases) (hpar : p.canParallelize = true)
    (hu : u ∈ p.modules) (hv : v ∈ p.modules) (hne : u ≠ v) : ¬ g.Reaches u v := by
  intro hr
  obtain ⟨k, group, hk, hg, hf⟩ := h.exists_filled hpp
  rw [hf.canParallelize, decide_eq_true_eq] at hpar
  obtain ⟨i, c, hi, hc, huc⟩ := (h.mem_modules hk).1 hu
  obtain ⟨j, d, hj, hd, hvd⟩ := (h.mem_modules hk).1 hv
  obtain rfl := (h.position_or_earlier hp hm hr hc huc hd hvd hi hj).resolve_right
    (Nat.lt_irrefl k)
  obtain rfl := Option.some.inj (hc.symm.trans hd)
  obtain ⟨group', hg', hig⟩ := hi
  obtain rfl := Option.some.inj (hg.symm.trans hg')
  -- both stand in one component of a group that holds several, so the component is no cycle
  rcases (s.mem_flatMap_groups (List.mem_of_getElem? hg)).2 with hcy | ⟨n, rfl, -⟩
  · have hone := h.length_modulesAt hp (List.getElem?_eq_some_iff.1 hc).1 (hcy i hig)
    rw [modulesAt_eq h.condensation hc] at hone
    obtain ⟨w, hw⟩ := List.length_eq_one_iff.1 hone
    rw [hw, List.mem_singleton] at huc hvd
    exact hne (huc.trans hvd.symm)
  · exact absurd hpar (by simp)

theorem canParallelize_iff (hpp : p ∈ plan.phases) :
    p.canParallelize = true ↔ p.isCycle = false ∧ 2 ≤ p.modules.length := by
  obtain ⟨k, group, -, hg, hf⟩ := h.exists_filled hpp
  rw [hf.canParallelize, decide_eq_true_eq, hf.isCycle, hf.modules]
  exact h.parallel_iff hp hg

theorem safe (hm : g.Mirrored) : Safe g plan where
  orders := h.orders_eq
  placed _ hmn := h.existsUnique_phase hp hmn
  listed _ hpp := ⟨h.nodup_modules hp hpp, fun _ hu => h.mem_nodes hp hpp hu⟩
  earlier _ hpp _ hqp _ hu _ hv := h.order_lt hp hm hpp hqp hu hv
  together _ hpp _ hqp _ hu _ hv := h.phase_unique hp hpp hqp hu hv
  independent _ hpp hpar _ hu _ hv := h.not_reaches hp hm hpp hpar hu hv
  parallel_iff _ hpp := h.canParallelize_iff hp hpp

end Made

theorem Safe.empty (hg : g.nodes = []) : Safe g {} where
  orders := rfl
  placed _ hm := absurd hm (hg ▸ List.not_mem_nil)
  listed _ hp := absurd hp List.not_mem_nil
  earlier _ hp := absurd hp List.not_mem_nil
  together _ hp := absurd hp List.not_mem_nil
  independent _ hp := absurd hp List.not_mem_nil
  parallel_iff _ hp := absurd hp List.not_mem_nil

theorem get?_couplingTable (hm : m ∈ g.nodes) :
    (couplingTable g : Table ModuleId (CouplingMetrics Float)).get? m =
      some (couplingOf g (maxInDegree g) m) := by
  unfold couplingTable
  rw [Table.get?_ofKeys, if_pos hm]

theorem lt_two_pow {n b : Nat} (hn : n < 2 ^ 3) (hb : 3 ≤ b) : n < 2 ^ b :=
  hn.trans_le (Nat.pow_le_pow_right (by decide) hb)

theorem Composed.zip_metrics {config : RankingConfig} {metrics : List (CouplingMetrics Float)}
    (h : Composed g components (couplingTable g) config metrics levels plan) :
    g.nodes.zip metrics = g.nodes.map fun m => (m, couplingOf g (maxInDegree g) m) := by
  have hmapped : g.nodes.mapM (metricsOf (couplingTable g)) =
      .ok (g.nodes.map (couplingOf g (maxInDegree g))) :=
    Outcome.mapM_of_eq_ok fun m hm => by rw [metricsOf, get?_couplingTable hm]
  rw [Except.ok.inj (h.measured.symm.trans hmapped), List.map_prod_left_eq_zip]

theorem exists_composed {edges isolated : Value} {given : DependencyRanking.Setting → Value}
    {config : RankingConfig} (hg : ModuleGraph.read? edges isolated = .ok g)
    (hc : RankingConfig.check given = .ok config) :
    ∃ components, g.components = .ok components ∧ g.Partitioned components ∧
      (g.nodeCount < 2 ^ 1023 → ∃ plan, make g components
        (couplingTable g : Table ModuleId (CouplingMetrics Float)) config = .ok plan) ∧
      ∀ plan, make g components
        (couplingTable g : Table ModuleId (CouplingMetrics Float)) config = .ok plan →
          (g.nodes = [] ∧ plan = {}) ∨ ∃ (metrics : List (CouplingMetrics Float)) (levels : _),
            Composed g components (couplingTable g) config metrics levels plan := by
  have hm := ModuleGraph.mirrored_of_read? hg
  obtain ⟨components, hok, hp⟩ := ModuleGraph.partitioned_components hm
  refine ⟨components, hok, hp, ?_, ?_⟩
  · intro hsmall
    obtain ⟨q, hq, h0, h1⟩ := Number.nearest_unit (RankingConfig.coreQuantile_unit hc)
    refine make_ok hp (Nat.le_refl 1023) (fun m hmn => ⟨_, get?_couplingTable hmn, ?_⟩) hq h0 h1
    exact (hm.inDegree_le m).trans_lt hsmall
  · intro plan hplan
    by_cases hne : g.nodes = []
    · unfold make at hplan
      dsimp only at hplan
      rw [if_pos hne] at hplan
      cases hplan
      exact .inl ⟨hne, rfl⟩
    · exact .inr (composed_of_eq_ok hp (fun m hmn => ⟨_, get?_couplingTable hmn⟩) hne hplan)

theorem exists_made {edges isolated : Value} {given : DependencyRanking.Setting → Value}
    {config : RankingConfig} (hg : ModuleGraph.read? edges isolated = .ok g)
    (hc : RankingConfig.check given = .ok config) :
    ∃ components, g.components = .ok components ∧ g.Partitioned components ∧
      (g.nodeCount < 2 ^ 1023 → ∃ plan, make g components
        (couplingTable g : Table ModuleId (CouplingMetrics Float)) config = .ok plan) ∧
      ∀ plan, make g components
        (couplingTable g : Table ModuleId (CouplingMetrics Float)) config = .ok plan →
          (g.nodes = [] ∧ plan = {}) ∨ ∃ (s : Setting Float) (levels : List (List Nat)),
            Made g components (couplingTable g) s levels plan := by
  obtain ⟨components, hok, hp, hex, hall⟩ := exists_composed hg hc
  refine ⟨components, hok, hp, hex, fun plan hplan => (hall plan hplan).imp_right ?_⟩
  rintro ⟨metrics, levels, h⟩
  exact ⟨_, levels, h.made⟩

/-- The plan for a graph that was read and a configuration that was checked is safe. The number of
modules is bounded only where counts of dependents would have no double. -/
theorem make_safe {edges isolated : Value} {given : DependencyRanking.Setting → Value}
    {config : RankingConfig} (hg : ModuleGraph.read? edges isolated = .ok g)
    (hc : RankingConfig.check given = .ok config) :
    ∃ components, g.components = .ok components ∧
      (g.nodeCount < 2 ^ 1023 → ∃ plan, make g components
        (couplingTable g : Table ModuleId (CouplingMetrics Float)) config = .ok plan) ∧
      ∀ plan, make g components
        (couplingTable g : Table ModuleId (CouplingMetrics Float)) config = .ok plan →
          Safe g plan := by
  obtain ⟨components, hok, hp, hex, hall⟩ := exists_made hg hc
  refine ⟨components, hok, hex, fun plan hplan => ?_⟩
  obtain ⟨hnone, rfl⟩ | ⟨s, levels, hmade⟩ := hall plan hplan
  · exact Safe.empty hnone
  · exact hmade.safe hp (ModuleGraph.mirrored_of_read? hg)

theorem make_safe_cycles : ∃ g components plan,
    ModuleGraph.read? (.list [.tuple [.text "a", .text "b"], .tuple [.text "b", .text "c"],
      .tuple [.text "c", .text "b"], .tuple [.text "c", .text "d"],
      .tuple [.text "d", .text "d"]]) (.list [.text "e", .text "f"]) = .ok g ∧
    RankingConfig.check DependencyRanking.Setting.default = .ok {} ∧ g.components = .ok components ∧
    make g components (couplingTable g : Table ModuleId (CouplingMetrics Float)) {} = .ok plan ∧
    Safe g plan := by
  have hg : ModuleGraph.read? (.list [.tuple [.text "a", .text "b"], .tuple [.text "b", .text "c"],
      .tuple [.text "c", .text "b"], .tuple [.text "c", .text "d"],
      .tuple [.text "d", .text "d"]]) (.list [.text "e", .text "f"]) =
    .ok (.ofEdges [("a", "b"), ("b", "c"), ("c", "b"), ("c", "d"), ("d", "d")] ["e", "f"]) := rfl
  obtain ⟨components, hok, hex, hall⟩ := make_safe hg RankingConfig.check_default
  obtain ⟨plan, hplan⟩ := hex (lt_two_pow (by decide) (by decide))
  exact ⟨_, components, plan, hg, RankingConfig.check_default, hok, hplan, hall plan hplan⟩

end DependencyRanking.Plan
