import DependencyRanking.Proofs.Plan.Cycles
import DependencyRanking.Proofs.Plan.Earliest
import DependencyRanking.Proofs.Plan.Prerequisites
import Mathlib.Data.List.Sort

/-!
# Leaves come first

The leaves of a plan are read off the coupling, its first phase off the levels of the components.
Both are the same modules: what depends on nothing has depth zero and lies on no cycle, and in the
first phase a module on no cycle has no earlier phase to depend on.
-/
namespace DependencyRanking

/-- A plan that starts with what depends on nothing, if there is anything like that. -/
structure Plan.LeavesFirst (g : ModuleGraph) (plan : Plan) : Prop where
  ascending : plan.leaves.Pairwise (· < ·)
  mem_leaves : ∀ m, m ∈ plan.leaves ↔ m ∈ g.nodes ∧ ∀ v, ¬ g.Depends m v
  first : plan.leaves ≠ [] → ∃ p, plan.phases.head? = some p ∧ p.order = 1 ∧
    p.modules = plan.leaves ∧ p.category = .leaf ∧ p.prerequisites = []
  only : ∀ p ∈ plan.phases, p.category = .leaf → plan.leaves ≠ [] ∧ p.order = 1

namespace ModuleGraph

variable {g : ModuleGraph} {m : ModuleId}

theorem not_onCycle_of_leaf (hm : ∀ v, ¬ g.Depends m v) : ¬ g.OnCycle m := by
  intro hcycle
  obtain ⟨v, hv, -⟩ := Relation.TransGen.head'_iff.1 hcycle
  exact hm v hv

theorem hasDepth_zero_of_leaf (hm : ∀ v, ¬ g.Depends m v) : g.HasDepth m 0 := by
  refine ⟨.stay m, fun k hk => ?_⟩
  cases hk with
  | stay => exact Nat.le_refl 0
  | within edge => exact absurd edge (hm _)
  | across edge => exact absurd edge (hm _)

end ModuleGraph

namespace Plan

variable {g : ModuleGraph} {components : List Component} {config : RankingConfig}
variable {ν : Type} [Measured ν] {coupling : Table ModuleId (CouplingMetrics ν)}
variable {s : Setting ν} {levels : List (List Nat)} {plan : Plan} {p : Phase}
variable {modules : List ModuleId} {k : Nat} {m : ModuleId}

omit [Measured ν] in
theorem Setting.categoryOf_eq_leaf {isCycle : Bool} :
    s.categoryOf isCycle modules = .leaf ↔ isCycle = false ∧ ∀ m ∈ modules, m ∈ s.leaves := by
  unfold Setting.categoryOf
  cases isCycle with
  | true => simp
  | false =>
    by_cases hall : modules.all (· ∈ s.leaves) = true
    · rw [if_neg Bool.false_ne_true, if_pos hall]
      simpa using hall
    · rw [if_neg Bool.false_ne_true, if_neg hall]
      refine iff_of_false (fun hleaf => ?_) fun hmem => hall (by simpa using hmem.2)
      split at hleaf <;> cases hleaf

namespace Made

variable (h : Made g components coupling s levels plan)
variable (hp : g.Partitioned components) (hm : g.Mirrored)
include h hp

theorem prerequisites_first (hfirst : plan.phases[0]? = some p) : p.prerequisites = [] := by
  refine List.eq_nil_iff_forall_not_mem.2 fun n hn => ?_
  obtain ⟨l, hl, -⟩ := h.exists_prerequisite hp hfirst hn
  exact absurd hl (Nat.not_lt_zero l)

theorem ascending_modules (hpp : p ∈ plan.phases) : p.modules.Pairwise (· < ·) := by
  obtain ⟨k, group, -, hg, hf⟩ := h.exists_filled hpp
  have hn := h.nodup_modules hp hpp
  rw [hf.modules] at hn ⊢
  unfold Setting.members at hn ⊢
  exact ascending_sortIds ((sortIds_perm _).nodup_iff.1 hn)

include hm

theorem leaf_of_first (hfirst : plan.phases[0]? = some p) (hmp : m ∈ p.modules)
    (hcycle : ¬ g.OnCycle m) : ∀ v, ¬ g.Depends m v := by
  intro v hv
  have hpp := List.mem_of_getElem? hfirst
  obtain ⟨q, ⟨hqp, hvq⟩, -⟩ := h.existsUnique_phase hp (hm.target_mem m v hv)
  have hback : ¬ g.Reaches v m := fun hr => hcycle (Relation.TransGen.head' hv hr)
  have hlt := h.order_lt hp hm hpp hqp hmp hvq (.single hv) hback
  obtain ⟨k, hk⟩ := List.mem_iff_getElem?.1 hqp
  rw [h.order_eq hfirst, h.order_eq hk] at hlt
  omega

variable (hok : g.components = .ok components)
include hok

theorem first_of_leaf (hmn : m ∈ g.nodes) (hleaf : ∀ v, ¬ g.Depends m v) :
    ∃ p, plan.phases[0]? = some p ∧ m ∈ p.modules := by
  obtain ⟨p, ⟨hpp, hmp⟩, -⟩ := h.existsUnique_phase hp hmn
  obtain ⟨k, i, hplace⟩ := h.exists_place_of_depth hp hm hok hpp hmp
    (ModuleGraph.hasDepth_zero_of_leaf hleaf)
  obtain ⟨level, l, -, hl, rfl⟩ :=
    s.exists_group_of_level h.levelled.peeled.nodup_flatten hplace.level hplace.group
  -- no group comes before those of the first level, and there the acyclic one is the first
  obtain rfl := s.eq_zero_of_acyclic hl
    (hplace.acyclic (ModuleGraph.not_onCycle_of_leaf hleaf))
  exact ⟨p, hplace.phase, hmp⟩

theorem mem_first_iff (hfirst : plan.phases[0]? = some p) (hcycle : p.isCycle = false) :
    m ∈ p.modules ↔ m ∈ g.nodes ∧ ∀ v, ¬ g.Depends m v := by
  have hpp := List.mem_of_getElem? hfirst
  constructor
  · intro hmp
    refine ⟨h.mem_nodes hp hpp hmp, h.leaf_of_first hp hm hfirst hmp fun hc => ?_⟩
    rw [h.onCycle_iff hp hm hok hpp hmp, hcycle] at hc
    cases hc
  · rintro ⟨hmn, hleaf⟩
    obtain ⟨q, hq, hmq⟩ := h.first_of_leaf hp hm hok hmn hleaf
    obtain rfl := Option.some.inj (hfirst.symm.trans hq)
    exact hmq

end Made

namespace Composed

variable {metrics : List (CouplingMetrics Float)}
variable (h : Composed g components (couplingTable g) config metrics levels plan)
include h

theorem leaves_eq : plan.leaves = g.nodes.filter fun m => g.outDegree m = 0 := by
  rw [h.leaves]
  unfold settingOf
  dsimp only
  rw [h.zip_metrics, List.filter_map, List.map_map]
  have hout : ∀ m, (couplingOf g (maxInDegree g) m : CouplingMetrics Float).efferent =
      g.outDegree m := fun m => rfl
  simp [Function.comp_def, hout]

theorem mem_leaves : m ∈ plan.leaves ↔ m ∈ g.nodes ∧ ∀ v, ¬ g.Depends m v := by
  rw [h.leaves_eq, List.mem_filter, decide_eq_true_eq, ModuleGraph.outDegree_eq_zero]

theorem ascending_leaves : plan.leaves.Pairwise (· < ·) := by
  rw [h.leaves_eq]
  exact (ascending_sortIds g.adjacency.nodup_keys).filter _

theorem category_eq_leaf (hpp : p ∈ plan.phases) :
    p.category = .leaf ↔ p.isCycle = false ∧ ∀ m ∈ p.modules, m ∈ plan.leaves := by
  obtain ⟨k, group, -, -, hf⟩ := h.made.exists_filled hpp
  rw [hf.category, Setting.categoryOf_eq_leaf, ← hf.isCycle, ← hf.modules, h.leaves]

variable (hp : g.Partitioned components) (hm : g.Mirrored) (hok : g.components = .ok components)
include hp hm hok

theorem first_of_mem_leaves (hmem : m ∈ plan.leaves) :
    ∃ p, plan.phases[0]? = some p ∧ m ∈ p.modules ∧ p.isCycle = false := by
  obtain ⟨hmn, hleaf⟩ := h.mem_leaves.1 hmem
  obtain ⟨p, hfirst, hmp⟩ := h.made.first_of_leaf hp hm hok hmn hleaf
  refine ⟨p, hfirst, hmp, ?_⟩
  rw [← Bool.not_eq_true, ← h.made.onCycle_iff hp hm hok (List.mem_of_getElem? hfirst) hmp]
  exact ModuleGraph.not_onCycle_of_leaf hleaf

theorem leavesFirst : LeavesFirst g plan where
  ascending := h.ascending_leaves
  mem_leaves _ := h.mem_leaves
  first hne := by
    obtain ⟨m, hmem⟩ := List.exists_mem_of_ne_nil _ hne
    obtain ⟨p, hfirst, -, hcycle⟩ := h.first_of_mem_leaves hp hm hok hmem
    have hpp := List.mem_of_getElem? hfirst
    have hmodules : p.modules = plan.leaves := by
      refine (h.made.ascending_modules hp hpp).eq_of_mem_iff h.ascending_leaves fun m => ?_
      rw [h.made.mem_first_iff hp hm hok hfirst hcycle, h.mem_leaves]
    refine ⟨p, List.head?_eq_getElem?.trans hfirst, h.made.order_eq hfirst, hmodules, ?_,
      h.made.prerequisites_first hp hfirst⟩
    exact (h.category_eq_leaf hpp).2 ⟨hcycle, fun m hm => hmodules ▸ hm⟩
  only p hpp hcategory := by
    obtain ⟨-, hall⟩ := (h.category_eq_leaf hpp).1 hcategory
    obtain ⟨m, hmp⟩ := h.made.exists_mem_modules hp hpp
    obtain ⟨q, hfirst, hmq, -⟩ := h.first_of_mem_leaves hp hm hok (hall m hmp)
    have hqp := List.mem_of_getElem? hfirst
    obtain rfl := h.made.phase_unique hp hpp hqp hmp hmq .refl .refl
    exact ⟨List.ne_nil_of_mem (hall m hmp), h.made.order_eq hfirst⟩

end Composed

theorem LeavesFirst.empty (hg : g.nodes = []) : LeavesFirst g {} where
  ascending := .nil
  mem_leaves _ := by simp [hg]
  first hne := absurd rfl hne
  only _ hp := absurd hp List.not_mem_nil

/-- The plan for a graph that was read starts with the modules that depend on nothing, and no other
phase is called a leaf. -/
theorem make_leavesFirst {edges isolated : Value} {given : DependencyRanking.Setting → Value}
    (hg : ModuleGraph.read? edges isolated = .ok g) (hc : RankingConfig.check given = .ok config) :
    ∃ components, g.components = .ok components ∧
      (g.nodeCount < 2 ^ 1023 → ∃ plan, make g components
        (couplingTable g : Table ModuleId (CouplingMetrics Float)) config = .ok plan) ∧
      ∀ plan, make g components
        (couplingTable g : Table ModuleId (CouplingMetrics Float)) config = .ok plan →
          LeavesFirst g plan := by
  have hm := ModuleGraph.mirrored_of_read? hg
  obtain ⟨components, hok, hp, hex, hall⟩ := exists_composed hg hc
  refine ⟨components, hok, hex, fun plan hplan => ?_⟩
  rcases hall plan hplan with ⟨hnodes, rfl⟩ | ⟨metrics, levels, h⟩
  · exact LeavesFirst.empty hnodes
  · exact h.leavesFirst hp hm hok

theorem make_leavesFirst_loop : ∃ g components plan,
    ModuleGraph.read? (.list [.tuple [.text "a", .text "a"], .tuple [.text "b", .text "a"],
      .tuple [.text "b", .text "c"]]) (.list [.text "d"]) = .ok g ∧
    RankingConfig.check DependencyRanking.Setting.default = .ok {} ∧ g.components = .ok components ∧
    make g components (couplingTable g : Table ModuleId (CouplingMetrics Float)) {} = .ok plan ∧
    LeavesFirst g plan ∧ ∃ p, plan.phases.head? = some p ∧ "d" ∈ p.modules ∧ p.category = .leaf := by
  have hg : ModuleGraph.read? (.list [.tuple [.text "a", .text "a"],
      .tuple [.text "b", .text "a"], .tuple [.text "b", .text "c"]]) (.list [.text "d"]) =
    .ok (.ofEdges [("a", "a"), ("b", "a"), ("b", "c")] ["d"]) := rfl
  obtain ⟨components, hok, hex, hall⟩ := make_leavesFirst hg RankingConfig.check_default
  obtain ⟨plan, hplan⟩ := hex (lt_two_pow (by decide) (by decide))
  have hl := hall plan hplan
  have hleaf : "d" ∈ plan.leaves := by
    rw [hl.mem_leaves, ModuleGraph.mem_nodes_ofEdges]
    refine ⟨.inl (by decide), fun v => ?_⟩
    simp [ModuleGraph.depends_ofEdges]
  obtain ⟨p, hfirst, -, hmodules, hcategory, -⟩ := hl.first (List.ne_nil_of_mem hleaf)
  exact ⟨_, components, plan, hg, RankingConfig.check_default, hok, hplan, hl, p, hfirst,
    hmodules ▸ hleaf, hcategory⟩

end Plan

end DependencyRanking
