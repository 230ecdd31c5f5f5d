import DependencyRanking.Proofs.Graph.Condensation
import DependencyRanking.Proofs.Sorting

/-!
# Modules on cycles

Whether a component is a cycle is read off its size and the number of edges inside it. This is the
same for every module of the component: the component is a cycle exactly if the module lies on a
directed cycle, which may be its dependency on itself.
-/
namespace DependencyRanking.ModuleGraph

variable {g : ModuleGraph} {components : List Component} {nodes : List ModuleId}
variable {c d : Component} {u v m : ModuleId}

def OnCycle (g : ModuleGraph) (m : ModuleId) : Prop := Relation.TransGen g.Depends m m

theorem edgesWithin_pos :
    0 < g.edgesWithin nodes ↔ ∃ u ∈ nodes, ∃ v ∈ nodes, g.Depends u v := by
  unfold edgesWithin
  simp only [tally_pos, List.countP_pos_iff, decide_eq_true_eq]
  refine exists_congr fun u => and_congr_right fun _ => exists_congr fun v => ?_
  exact and_comm

theorem exists_ofNodes (hok : g.components = .ok components) (hc : c ∈ components) :
    ∃ nodes, Component.ofNodes nodes (g.edgesWithin nodes) = c := by
  obtain ⟨groups, -, hok⟩ := Outcome.bind_eq_ok.1 hok
  cases hok
  obtain ⟨nodes, -, hc⟩ := List.mem_map.1 hc
  exact ⟨nodes, hc⟩

theorem isCycle_iff_of_components (hok : g.components = .ok components) (hc : c ∈ components) :
    c.isCycle = true ↔ 1 < c.size ∨ ∃ u ∈ c.nodes, ∃ v ∈ c.nodes, g.Depends u v := by
  obtain ⟨nodes, rfl⟩ := exists_ofNodes hok hc
  have hmem : ∀ x, x ∈ (Component.ofNodes nodes (g.edgesWithin nodes)).nodes ↔ x ∈ nodes :=
    fun x => mem_idSet
  simp only [hmem, ← edgesWithin_pos]
  unfold Component.isCycle
  rw [Bool.or_eq_true, decide_eq_true_eq, decide_eq_true_eq]
  exact or_congr_right Int.natCast_pos

theorem Mirrored.mem_nodes_of_reaches (hm : g.Mirrored) (hr : g.Reaches u v) (hu : u ∈ g.nodes) :
    v ∈ g.nodes := by
  induction hr with
  | refl => exact hu
  | tail _ hwv _ => exact hm.target_mem _ _ hwv

theorem Mirrored.mem_nodes_of_reaches_ne (hm : g.Mirrored) (hr : g.Reaches u v) (hne : u ≠ v) :
    u ∈ g.nodes := by
  obtain rfl | ⟨w, huw, -⟩ := Relation.ReflTransGen.cases_head hr
  · exact absurd rfl hne
  · exact hm.source_mem u w huw

theorem Mirrored.mem_nodes_of_onCycle (hm : g.Mirrored) (hu : g.OnCycle u) : u ∈ g.nodes := by
  obtain ⟨w, huw, -⟩ := Relation.TransGen.head'_iff.1 hu
  exact hm.source_mem u w huw

theorem Reaches.transGen_of_ne (hr : g.Reaches u v) (hne : u ≠ v) :
    Relation.TransGen g.Depends u v := by
  rcases Relation.reflTransGen_iff_eq_or_transGen.1 hr with heq | ht
  · exact absurd heq.symm hne
  · exact ht

namespace Partitioned

variable (h : g.Partitioned components)
include h

theorem component_unique (hc : c ∈ components) (hd : d ∈ components) (hmc : m ∈ c.nodes)
    (hmd : m ∈ d.nodes) : c = d := by
  obtain ⟨i, hi⟩ := List.mem_iff_getElem?.1 hc
  obtain ⟨j, hj⟩ := List.mem_iff_getElem?.1 hd
  obtain rfl := h.position_unique hi hj hmc hmd
  exact Option.some.inj (hi.symm.trans hj)

theorem nodup_map_nodes : (components.map Component.nodes).Nodup := by
  refine List.pairwise_map.2 (h.disjoint.imp_of_mem fun {c d} hc _ hcd heq => ?_)
  obtain ⟨m, hm⟩ := List.exists_mem_of_ne_nil _ (h.nonempty c hc)
  exact hcd hm (heq ▸ hm)

theorem mem_iff_mutual (hm : g.Mirrored) (hc : c ∈ components) (hu : u ∈ c.nodes) :
    v ∈ c.nodes ↔ g.Reaches u v ∧ g.Reaches v u := by
  constructor
  · intro hv
    exact ⟨h.joined c hc u hu v hv, h.joined c hc v hv u hu⟩
  · intro ⟨huv, hvu⟩
    have hun : u ∈ g.nodes := (h.cover u).1 (List.mem_flatMap.2 ⟨c, hc, hu⟩)
    have hvn : v ∈ g.nodes := hm.mem_nodes_of_reaches huv hun
    obtain ⟨d, hd, hvd⟩ := List.mem_flatMap.1 ((h.cover v).2 hvn)
    obtain ⟨i, hi⟩ := List.mem_iff_getElem?.1 hc
    obtain ⟨j, hj⟩ := List.mem_iff_getElem?.1 hd
    obtain rfl : i = j := Nat.le_antisymm (h.backward j i d c hj hi v hvd u hu hvu)
      (h.backward i j c d hi hj u hu v hvd huv)
    cases hi.symm.trans hj
    exact hvd

theorem isCycle_iff_onCycle (hm : g.Mirrored) (hok : g.components = .ok components)
    (hc : c ∈ components) (hmc : m ∈ c.nodes) : c.isCycle = true ↔ g.OnCycle m := by
  rw [isCycle_iff_of_components hok hc]
  constructor
  · rintro (hsize | ⟨u, hu, v, hv, huv⟩)
    · -- a second module closes the cycle
      obtain ⟨v, hv, hne⟩ : ∃ v ∈ c.nodes, v ≠ m := by
        by_contra hall
        simp only [not_exists, not_and, not_not] at hall
        have hle := (List.subperm_of_subset c.nodup fun v hv =>
          List.mem_singleton.2 (hall v hv)).length_le
        exact absurd hle (by simpa [Component.size] using hsize)
      have hmv := h.joined c hc m hmc v hv
      exact Relation.TransGen.trans_left (hmv.transGen_of_ne hne.symm) (h.joined c hc v hv m hmc)
    · have hmu := h.joined c hc m hmc u hu
      exact Relation.TransGen.trans_left (Relation.TransGen.tail' hmu huv)
        (h.joined c hc v hv m hmc)
  · intro hcycle
    obtain ⟨w, hmw, hwm⟩ := Relation.TransGen.head'_iff.1 hcycle
    have hw : w ∈ c.nodes := (h.mem_iff_mutual hm hc hmc).2 ⟨Relation.ReflTransGen.single hmw, hwm⟩
    exact .inr ⟨m, hmc, w, hw, hmw⟩

end Partitioned

end DependencyRanking.ModuleGraph
