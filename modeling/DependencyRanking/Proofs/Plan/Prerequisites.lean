import DependencyRanking.Proofs.Plan.Safe

/-!
# The prerequisites of a phase

A phase names exactly the other phases that hold a direct dependency of one of its modules. They
stand before it, so the names are smaller than its own.
-/
namespace DependencyRanking.Plan

/-- A plan whose phases name as prerequisites the phases that they depend on directly. -/
structure Guarded (g : ModuleGraph) (plan : Plan) : Prop where
  ascending : ∀ p ∈ plan.phases, p.prerequisites.Pairwise (· < ·)
  smaller : ∀ p ∈ plan.phases, ∀ n ∈ p.prerequisites, n < p.order
  mem_iff : ∀ p ∈ plan.phases, ∀ n, n ∈ p.prerequisites ↔
    ∃ q ∈ plan.phases, q ≠ p ∧ q.order = n ∧ ∃ u ∈ p.modules, ∃ v ∈ q.modules, g.Depends u v

variable {g : ModuleGraph} {components : List Component}
variable {ν : Type} [Measured ν] {coupling : Table ModuleId (CouplingMetrics ν)}
variable {s : Setting ν} {levels : List (List Nat)} {plan : Plan} {p q : Phase}
variable {k n : Nat} {u v : ModuleId}

theorem Guarded.empty (g : ModuleGraph) : Guarded g {} where
  ascending _ hp := absurd hp List.not_mem_nil
  smaller _ hp := absurd hp List.not_mem_nil
  mem_iff _ hp := absurd hp List.not_mem_nil

namespace Made

variable (h : Made g components coupling s levels plan)
include h

theorem exists_prerequisite (hp : g.Partitioned components) (hk : plan.phases[k]? = some p)
    (hn : n ∈ p.prerequisites) : ∃ l < k, ∃ q, plan.phases[l]? = some q ∧ q.order = n ∧
      ∃ u ∈ p.modules, ∃ v ∈ q.modules, g.Depends u v := by
  obtain ⟨group, hg, hf⟩ := h.exists_group hk
  obtain ⟨i, hi, j, hj, l, hl, rfl⟩ := (hf.mem_prerequisites n).1 hn
  have hik : PlacedAt (levels.flatMap s.groups) i k := ⟨group, hg, hi⟩
  rw [h.condensation] at hj
  obtain ⟨l', hlk, hl'⟩ := (h.scheduled.earlier hik hj).resolve_left List.not_mem_nil
  obtain rfl := hl.unique h.nodup_flatten hl'
  obtain ⟨group', hg', -⟩ := id hl
  obtain ⟨q, hq, -⟩ := h.filled hg'
  obtain ⟨-, c, hc, u, hu, v, huv, hvj⟩ := ModuleGraph.mem_successors.1 hj
  obtain ⟨d, hd, hv⟩ := (membershipOf_of_disjoint hp.disjoint).1 hvj
  refine ⟨l, hlk, q, hq, h.order_eq hq, u, ?_, v, ?_, huv⟩
  · exact (h.mem_modules hk).2 ⟨i, c, hik, hc, hu⟩
  · exact (h.mem_modules hq).2 ⟨j, d, hl, hd, hv⟩

theorem mem_prerequisites_of_depends (hp : g.Partitioned components) (hpp : p ∈ plan.phases)
    (hqp : q ∈ plan.phases) (hne : q ≠ p) (hu : u ∈ p.modules) (hv : v ∈ q.modules)
    (huv : g.Depends u v) : q.order ∈ p.prerequisites := by
  obtain ⟨k, i, c, hk, hi, hc, huc⟩ := h.exists_position hpp hu
  obtain ⟨l, j, d, hl, hj, hd, hvd⟩ := h.exists_position hqp hv
  have hij : j ≠ i := by
    rintro rfl
    obtain rfl := hi.unique h.nodup_flatten hj
    exact hne (Option.some.inj (hl.symm.trans hk))
  have hs := hp.mem_successors_of_depends hc hd huc hvd hij huv
  rw [← h.condensation] at hs
  obtain ⟨group, hg, hf⟩ := h.exists_group hk
  obtain ⟨group', hg', hig⟩ := hi
  obtain rfl := Option.some.inj (hg.symm.trans hg')
  exact (hf.mem_prerequisites _).2 ⟨i, hig, j, hs, l, hj, h.order_eq hl⟩

theorem ascending_prerequisites (hpp : p ∈ plan.phases) : p.prerequisites.Pairwise (· < ·) := by
  obtain ⟨k, group, -, -, hf⟩ := h.exists_filled hpp
  exact hf.ascending

theorem guarded (hp : g.Partitioned components) : Guarded g plan where
  ascending p hpp := h.ascending_prerequisites hpp
  smaller p hpp n hn := by
    obtain ⟨k, hk⟩ := List.mem_iff_getElem?.1 hpp
    obtain ⟨l, hlk, q, hq, rfl, -⟩ := h.exists_prerequisite hp hk hn
    rw [h.order_eq hq, h.order_eq hk]
    omega
  mem_iff p hpp n := by
    constructor
    · intro hn
      obtain ⟨k, hk⟩ := List.mem_iff_getElem?.1 hpp
      obtain ⟨l, hlk, q, hq, hqn, hdep⟩ := h.exists_prerequisite hp hk hn
      refine ⟨q, List.mem_of_getElem? hq, ?_, hqn, hdep⟩
      rintro rfl
      have hlq := h.order_eq hq
      have hkq := h.order_eq hk
      omega
    · rintro ⟨q, hqp, hne, rfl, u, hu, v, hv, huv⟩
      exact h.mem_prerequisites_of_depends hp hpp hqp hne hu hv huv

end Made

end DependencyRanking.Plan
