import DependencyRanking.Proofs.Graph.SameEdges
import DependencyRanking.Proofs.Plan.Draft

/-!
# Plans for graphs with the same edges

The order of the dependencies of a module reaches a plan in one place only, where the phases of the
dependencies of a group are looked up. They are sorted afterwards, and a missing one is the same
error wherever it stands, so the plan is the same.
-/
namespace DependencyRanking

variable {ν : Type} {g h : ModuleGraph} {s t : Plan.Setting ν} {phaseOf : Table Nat Nat}
variable {components : List Component} {group : List Nat}

namespace Plan.Setting

theorem prerequisites_missing
    (h : ∃ i ∈ group, ∃ j ∈ s.condensation.successors.getD i [], phaseOf.get? j = none) :
    s.prerequisites phaseOf group = .error .missingEntry := by
  unfold prerequisites
  rw [Outcome.mapM_eq_error (e := RankingError.missingEntry)]
  · rfl
  · obtain ⟨i, hi, j, hj, hnone⟩ := h
    refine ⟨j, List.mem_flatMap.2 ⟨i, hi, hj⟩, ?_⟩
    simp only [hnone]
  · intro j _ e hfail
    split at hfail
    · cases hfail
    · cases hfail
      rfl

theorem groups_condense (g h : ModuleGraph) (components : List Component)
    (coupling : Table ModuleId (CouplingMetrics ν)) (risks : RiskCutoffs)
    (leaves core : List ModuleId) :
    (⟨g.condense components, coupling, risks, leaves, core⟩ : Setting ν).groups =
      (⟨h.condense components, coupling, risks, leaves, core⟩ : Setting ν).groups := rfl

end Plan.Setting

namespace ModuleGraph.SameEdges

variable (he : g.SameEdges h)
include he

theorem prerequisites_eq (hs : s.condensation = g.condense components)
    (ht : t.condensation = h.condense components) (phaseOf : Table Nat Nat) (group : List Nat) :
    s.prerequisites phaseOf group = t.prerequisites phaseOf group := by
  have hmem : ∀ i j, j ∈ s.condensation.successors.getD i [] ↔
      j ∈ t.condensation.successors.getD i [] := by
    intro i j
    rw [hs, ht]
    exact he.mem_successors_iff components i j
  by_cases hall : ∀ i ∈ group, ∀ j ∈ s.condensation.successors.getD i [],
      ∃ n, phaseOf.get? j = some n
  · have hall' : ∀ i ∈ group, ∀ j ∈ t.condensation.successors.getD i [],
        ∃ n, phaseOf.get? j = some n := fun i hi j hj => hall i hi j ((hmem i j).2 hj)
    obtain ⟨orders, hok, hasc, horders⟩ := Plan.Setting.prerequisites_ok hall
    obtain ⟨orders', hok', hasc', horders'⟩ := Plan.Setting.prerequisites_ok hall'
    rw [hok, hok']
    congr 1
    apply hasc.eq_of_mem_iff hasc'
    intro n
    simp only [horders, horders', hmem]
  · simp only [not_forall, not_exists, ← Option.eq_none_iff_forall_ne_some] at hall
    obtain ⟨i, hi, j, hj, hnone⟩ := hall
    rw [Plan.Setting.prerequisites_missing ⟨i, hi, j, hj, hnone⟩,
      Plan.Setting.prerequisites_missing ⟨i, hi, j, (hmem i j).1 hj, hnone⟩]

variable [Measured ν]

theorem addPhase_eq (components : List Component) (coupling : Table ModuleId (CouplingMetrics ν))
    (risks : RiskCutoffs) (leaves core : List ModuleId) :
    (⟨g.condense components, coupling, risks, leaves, core⟩ : Plan.Setting ν).addPhase =
      (⟨h.condense components, coupling, risks, leaves, core⟩ : Plan.Setting ν).addPhase := by
  funext d group
  unfold Plan.Setting.addPhase
  rw [he.prerequisites_eq (t := ⟨h.condense components, coupling, risks, leaves, core⟩) rfl rfl]
  rfl

theorem make_eq (components : List Component) (coupling : Table ModuleId (CouplingMetrics ν))
    (config : RankingConfig) :
    Plan.make g components coupling config = Plan.make h components coupling config := by
  unfold Plan.make
  dsimp only
  simp only [he.nodes, he.levels_eq, he.addPhase_eq, Plan.Setting.groups_condense g h]

end ModuleGraph.SameEdges

end DependencyRanking
