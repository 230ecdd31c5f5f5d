import DependencyRanking.Proofs.Graph.Depth
import DependencyRanking.Proofs.Plan.Safe

/-!
# A plan is as early as possible

The levels of a plan are the depths of its modules, so nothing waits for a round longer than its
dependencies demand. Of one depth, the modules on no cycle come first, in one phase.
-/
namespace DependencyRanking.Plan

/-- A plan whose phases follow the depth of the modules. -/
structure Earliest (g : ModuleGraph) (plan : Plan) : Prop where
  placed : ∀ m ∈ g.nodes, ∃! p, p ∈ plan.phases ∧ m ∈ p.modules
  hasDepth : ∀ m ∈ g.nodes, ∃ n, g.HasDepth m n
  shared_iff : ∀ p ∈ plan.phases, ∀ q ∈ plan.phases, ∀ u ∈ p.modules, ∀ v ∈ q.modules,
    ¬ g.OnCycle u → ¬ g.OnCycle v → ∀ m n, g.HasDepth u m → g.HasDepth v n → (p = q ↔ m = n)
  shallow_first : ∀ p ∈ plan.phases, ∀ q ∈ plan.phases, ∀ u ∈ p.modules, ∀ v ∈ q.modules,
    ∀ m n, g.HasDepth u m → g.HasDepth v n → m < n → p.order < q.order
  cycles_last : ∀ p ∈ plan.phases, ∀ q ∈ plan.phases, ∀ u ∈ p.modules, ∀ v ∈ q.modules,
    ∀ n, g.HasDepth u n → g.HasDepth v n → ¬ g.OnCycle u → g.OnCycle v → p.order < q.order
  longest : (∀ m ∈ g.nodes, ¬ g.OnCycle m) →
    IsGreatest {n | ∃ ms, g.IsDependencyChain ms ∧ ms.length = n} plan.phases.length

variable {g : ModuleGraph} {components : List Component}
variable {ν : Type} [Measured ν] {coupling : Table ModuleId (CouplingMetrics ν)}
variable {s : Setting ν} {levels : List (List Nat)} {plan : Plan} {p q : Phase}
variable {c : Component} {i j k l m n : Nat} {u v : ModuleId}

structure Place (g : ModuleGraph) (s : Setting ν) (levels : List (List Nat)) (plan : Plan)
    (p : Phase) (u : ModuleId) (k i n : Nat) : Prop where
  phase : plan.phases[k]? = some p
  group : PlacedAt (levels.flatMap s.groups) i k
  level : PlacedAt levels i n
  depth : g.HasDepth u n
  onCycle : g.OnCycle u ↔ s.isCycleAt i = true

omit [Measured ν] in
theorem Place.acyclic (h : Place g s levels plan p u k i n) (hu : ¬ g.OnCycle u) :
    s.isCycleAt i = false := by
  simpa [h.onCycle] using hu

namespace Made

variable (h : Made g components coupling s levels plan)
include h

theorem length_phases : plan.phases.length = (levels.flatMap s.groups).length := by
  obtain ⟨phaseOf, hd⟩ := h.drafted
  exact hd.length

theorem order_lt_of_lt (hu : Place g s levels plan p u k i m) (hv : Place g s levels plan q v l j n)
    (hkl : k < l) : p.order < q.order := by
  rw [h.order_eq hu.phase, h.order_eq hv.phase]
  exact Nat.succ_lt_succ hkl

theorem lt_of_depth_lt (hu : Place g s levels plan p u k i m)
    (hv : Place g s levels plan q v l j n) (hlt : m < n) : k < l :=
  s.lt_of_level_lt h.levelled.peeled.nodup_flatten hu.level hv.level hlt hu.group hv.group

theorem eq_of_acyclic (hu : Place g s levels plan p u k i n) (hv : Place g s levels plan q v l j n)
    (huc : ¬ g.OnCycle u) (hvc : ¬ g.OnCycle v) : k = l := by
  obtain ⟨level, a, -, ha, rfl⟩ :=
    s.exists_group_of_level h.levelled.peeled.nodup_flatten hu.level hu.group
  obtain ⟨level', b, -, hb, rfl⟩ :=
    s.exists_group_of_level h.levelled.peeled.nodup_flatten hv.level hv.group
  rw [s.eq_zero_of_acyclic ha (hu.acyclic huc), s.eq_zero_of_acyclic hb (hv.acyclic hvc)]

theorem lt_of_cycle (hu : Place g s levels plan p u k i n) (hv : Place g s levels plan q v l j n)
    (huc : ¬ g.OnCycle u) (hvc : g.OnCycle v) : k < l := by
  obtain ⟨level, a, hlevel, ha, rfl⟩ :=
    s.exists_group_of_level h.levelled.peeled.nodup_flatten hu.level hu.group
  obtain ⟨level', b, hlevel', hb, rfl⟩ :=
    s.exists_group_of_level h.levelled.peeled.nodup_flatten hv.level hv.group
  obtain rfl := Option.some.inj (hlevel.symm.trans hlevel')
  have hi : i ∈ level := (s.perm_groups level).mem_iff.1 (PlacedAt.exists_iff.1 ⟨a, ha⟩)
  have hpos := s.pos_of_cycle hb (hv.onCycle.1 hvc) hi (hu.acyclic huc)
  rw [s.eq_zero_of_acyclic ha (hu.acyclic huc)]
  omega

variable (hp : g.Partitioned components) (hm : g.Mirrored)
include hp hm

section Places

variable (hok : g.components = .ok components)
include hok

theorem exists_place (hpp : p ∈ plan.phases) (hu : u ∈ p.modules) :
    ∃ k i n, Place g s levels plan p u k i n := by
  obtain ⟨k, i, c, hk, hi, hc, huc⟩ := h.exists_position hpp hu
  have hmem := PlacedAt.exists_iff.1 ⟨k, hi⟩
  rw [(s.perm_flatMap_groups levels).mem_iff] at hmem
  obtain ⟨n, hn⟩ := PlacedAt.exists_iff.2 hmem
  refine ⟨k, i, n, hk, hi, hn, hp.hasDepth hm h.levelled_condense hn hc huc, ?_⟩
  rw [isCycleAt_eq h.condensation hc]
  exact (hp.isCycle_iff_onCycle hm hok (List.mem_of_getElem? hc) huc).symm

theorem exists_place_of_depth (hpp : p ∈ plan.phases) (hu : u ∈ p.modules)
    (hn : g.HasDepth u n) : ∃ k i, Place g s levels plan p u k i n := by
  obtain ⟨k, i, n', hplace⟩ := h.exists_place hp hm hok hpp hu
  obtain rfl := hplace.depth.unique hn
  exact ⟨k, i, hplace⟩

theorem exists_place_of_mem (hu : u ∈ g.nodes) : ∃ p k i n, Place g s levels plan p u k i n := by
  obtain ⟨p, ⟨hpp, hup⟩, -⟩ := h.existsUnique_phase hp hu
  exact ⟨p, h.exists_place hp hm hok hpp hup⟩

theorem shared_iff (hpp : p ∈ plan.phases) (hqp : q ∈ plan.phases) (hu : u ∈ p.modules)
    (hv : v ∈ q.modules) (huc : ¬ g.OnCycle u) (hvc : ¬ g.OnCycle v) (hum : g.HasDepth u m)
    (hvn : g.HasDepth v n) : p = q ↔ m = n := by
  obtain ⟨k, i, hpu⟩ := h.exists_place_of_depth hp hm hok hpp hu hum
  obtain ⟨l, j, hqv⟩ := h.exists_place_of_depth hp hm hok hqp hv hvn
  constructor
  · rintro rfl
    rcases Nat.lt_trichotomy m n with hlt | heq | hlt
    · exact absurd (h.order_lt_of_lt hpu hqv (h.lt_of_depth_lt hpu hqv hlt)) (Nat.lt_irrefl _)
    · exact heq
    · exact absurd (h.order_lt_of_lt hqv hpu (h.lt_of_depth_lt hqv hpu hlt)) (Nat.lt_irrefl _)
  · rintro rfl
    obtain rfl := h.eq_of_acyclic hpu hqv huc hvc
    exact Option.some.inj (hpu.phase.symm.trans hqv.phase)

theorem shallow_first (hpp : p ∈ plan.phases) (hqp : q ∈ plan.phases) (hu : u ∈ p.modules)
    (hv : v ∈ q.modules) (hum : g.HasDepth u m) (hvn : g.HasDepth v n) (hlt : m < n) :
    p.order < q.order := by
  obtain ⟨k, i, hpu⟩ := h.exists_place_of_depth hp hm hok hpp hu hum
  obtain ⟨l, j, hqv⟩ := h.exists_place_of_depth hp hm hok hqp hv hvn
  exact h.order_lt_of_lt hpu hqv (h.lt_of_depth_lt hpu hqv hlt)

theorem cycles_last (hpp : p ∈ plan.phases) (hqp : q ∈ plan.phases) (hu : u ∈ p.modules)
    (hv : v ∈ q.modules) (hun : g.HasDepth u n) (hvn : g.HasDepth v n) (huc : ¬ g.OnCycle u)
    (hvc : g.OnCycle v) : p.order < q.order := by
  obtain ⟨k, i, hpu⟩ := h.exists_place_of_depth hp hm hok hpp hu hun
  obtain ⟨l, j, hqv⟩ := h.exists_place_of_depth hp hm hok hqp hv hvn
  exact h.order_lt_of_lt hpu hqv (h.lt_of_cycle hpu hqv huc hvc)

end Places

section Acyclic

variable (hok : g.components = .ok components) (hacyclic : ∀ m, ¬ g.OnCycle m)
include hok hacyclic

theorem length_phases_of_acyclic : plan.phases.length = levels.length := by
  rw [h.length_phases, s.flatMap_groups_of_acyclic h.levelled.ne_nil]
  intro i hi
  obtain ⟨k, hk⟩ := PlacedAt.exists_iff.2 ((s.perm_flatMap_groups levels).mem_iff.2 hi)
  have hc := List.getElem?_eq_getElem (h.lt_length hk)
  have hmem := List.mem_of_getElem? hc
  obtain ⟨u, hu⟩ := List.exists_mem_of_ne_nil _ (hp.nonempty _ hmem)
  rw [isCycleAt_eq h.condensation hc, ← Bool.not_eq_true, hp.isCycle_iff_onCycle hm hok hmem hu]
  exact hacyclic u

theorem length_le_of_chain {ms : List ModuleId} (hms : g.IsDependencyChain ms) :
    ms.length ≤ levels.length := by
  obtain ⟨hchain, hnodes⟩ := hms
  cases ms with
  | nil => exact Nat.zero_le _
  | cons u ms =>
    have hdesc := ModuleGraph.descends_of_isChain hacyclic hchain
    obtain ⟨p, k, i, n, hplace⟩ := h.exists_place_of_mem hp hm hok (hnodes u List.mem_cons_self)
    have hle : ms.length ≤ n := hplace.depth.2 hdesc
    exact Nat.succ_le_of_lt (hle.trans_lt hplace.level.lt_length)

theorem exists_longest_chain : ∃ ms, g.IsDependencyChain ms ∧ ms.length = levels.length := by
  rcases Nat.eq_zero_or_pos levels.length with hzero | hpos
  · exact ⟨[], ⟨List.IsChain.nil, fun m hm => absurd hm List.not_mem_nil⟩, hzero.symm⟩
  · have hlast := List.getElem?_eq_getElem (Nat.sub_lt hpos Nat.one_pos)
    obtain ⟨i, hi⟩ := List.exists_mem_of_ne_nil _ (h.levelled.ne_nil _ (List.mem_of_getElem? hlast))
    have hlevel : PlacedAt levels i (levels.length - 1) := ⟨_, hlast, hi⟩
    have hlt := h.levelled_condense.peeled.lt_length i (PlacedAt.exists_iff.1 ⟨_, hlevel⟩)
    rw [g.length_successors] at hlt
    have hc := List.getElem?_eq_getElem hlt
    obtain ⟨u, hu⟩ := List.exists_mem_of_ne_nil _ (hp.nonempty _ (List.mem_of_getElem? hc))
    have hun := (hp.cover u).1 (List.mem_flatMap.2 ⟨_, List.mem_of_getElem? hc, hu⟩)
    have hdepth := hp.hasDepth hm h.levelled_condense hlevel hc hu
    obtain ⟨ms, hms, hle⟩ := ModuleGraph.exists_isChain hdepth.1
    have hchain : g.IsDependencyChain (u :: ms) :=
      ⟨hms, ModuleGraph.mem_nodes_of_isChain hm hun hms⟩
    have hge := h.length_le_of_chain hp hm hok hacyclic hchain
    refine ⟨u :: ms, hchain, ?_⟩
    rw [List.length_cons] at hge ⊢
    omega

theorem longest :
    IsGreatest {n | ∃ ms, g.IsDependencyChain ms ∧ ms.length = n} plan.phases.length := by
  rw [h.length_phases_of_acyclic hp hm hok hacyclic]
  refine ⟨h.exists_longest_chain hp hm hok hacyclic, ?_⟩
  rintro n ⟨ms, hms, rfl⟩
  exact h.length_le_of_chain hp hm hok hacyclic hms

end Acyclic

theorem earliest (hok : g.components = .ok components) : Earliest g plan where
  placed _ hmn := h.existsUnique_phase hp hmn
  hasDepth m hmn := by
    obtain ⟨p, k, i, n, hplace⟩ := h.exists_place_of_mem hp hm hok hmn
    exact ⟨n, hplace.depth⟩
  shared_iff _ hpp _ hqp _ hu _ hv huc hvc _ _ := h.shared_iff hp hm hok hpp hqp hu hv huc hvc
  shallow_first _ hpp _ hqp _ hu _ hv _ _ := h.shallow_first hp hm hok hpp hqp hu hv
  cycles_last _ hpp _ hqp _ hu _ hv _ := h.cycles_last hp hm hok hpp hqp hu hv
  longest hacyclic := h.longest hp hm hok fun u hu => hacyclic u (hm.mem_nodes_of_onCycle hu) hu

end Made

theorem Earliest.empty (hg : g.nodes = []) : Earliest g {} where
  placed _ hm := absurd hm (hg ▸ List.not_mem_nil)
  hasDepth _ hm := absurd hm (hg ▸ List.not_mem_nil)
  shared_iff _ hp := absurd hp List.not_mem_nil
  shallow_first _ hp := absurd hp List.not_mem_nil
  cycles_last _ hp := absurd hp List.not_mem_nil
  longest _ := by
    refine ⟨⟨[], ⟨List.IsChain.nil, fun m hm => absurd hm List.not_mem_nil⟩, rfl⟩, ?_⟩
    rintro n ⟨ms, ⟨-, hnodes⟩, rfl⟩
    cases ms with
    | nil => exact Nat.le_refl 0
    | cons u ms => exact absurd (hnodes u List.mem_cons_self) (hg ▸ List.not_mem_nil)

/-- The plan for a graph that was read takes up every module as early as its depth allows. -/
theorem make_earliest {edges isolated : Value} {given : DependencyRanking.Setting → Value}
    {config : RankingConfig} (hg : ModuleGraph.read? edges isolated = .ok g)
    (hc : RankingConfig.check given = .ok config) :
    ∃ components, g.components = .ok components ∧
      (g.nodeCount < 2 ^ 1023 → ∃ plan, make g components
        (couplingTable g : Table ModuleId (CouplingMetrics Float)) config = .ok plan) ∧
      ∀ plan, make g components
        (couplingTable g : Table ModuleId (CouplingMetrics Float)) config = .ok plan →
          Earliest g plan := by
  have hm := ModuleGraph.mirrored_of_read? hg
  obtain ⟨components, hok, hp, hex, hmade⟩ := exists_made hg hc
  refine ⟨components, hok, hex, ?_⟩
  intro plan hplan
  rcases hmade plan hplan with ⟨hnodes, rfl⟩ | ⟨s, levels, h⟩
  · exact Earliest.empty hnodes
  · exact h.earliest hp hm hok

theorem make_earliest_shortcut : ∃ g components plan,
    ModuleGraph.read? (.list [.tuple [.text "a", .text "b"], .tuple [.text "b", .text "c"],
      .tuple [.text "d", .text "c"]]) (.list []) = .ok g ∧
    RankingConfig.check DependencyRanking.Setting.default = .ok {} ∧ g.components = .ok components ∧
    make g components (couplingTable g : Table ModuleId (CouplingMetrics Float)) {} = .ok plan ∧
    Earliest g plan := by
  have hg : ModuleGraph.read? (.list [.tuple [.text "a", .text "b"], .tuple [.text "b", .text "c"],
      .tuple [.text "d", .text "c"]]) (.list []) =
    .ok (.ofEdges [("a", "b"), ("b", "c"), ("d", "c")] []) := rfl
  obtain ⟨components, hok, hex, hall⟩ := make_earliest hg RankingConfig.check_default
  obtain ⟨plan, hplan⟩ := hex (lt_two_pow (by decide) (by decide))
  exact ⟨_, components, plan, hg, RankingConfig.check_default, hok, hplan, hall plan hplan⟩

end DependencyRanking.Plan
