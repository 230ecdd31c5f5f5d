import DependencyRanking.Graph.Component
import DependencyRanking.Proofs.Graph.Build
import DependencyRanking.Proofs.Search.Components
import Mathlib.Data.List.Perm.Basic

/-!
# The components of a graph

The components are the classes of modules that reach each other, and no dependency leads from a
component to a later one.
-/
namespace DependencyRanking.ModuleGraph

variable {g : ModuleGraph} {components : List Component} {u v m : ModuleId}

def Depends (g : ModuleGraph) (u v : ModuleId) : Prop := v ∈ g.outgoing u

def Reaches (g : ModuleGraph) : ModuleId → ModuleId → Prop := Relation.ReflTransGen g.Depends

theorem depends_ofEdges (edges : List (ModuleId × ModuleId)) (isolated : List ModuleId) :
    (ofEdges edges isolated).Depends u v ↔ (u, v) ∈ edges :=
  mem_outgoing_ofEdges edges isolated

theorem outDegree_eq_zero : g.outDegree m = 0 ↔ ∀ v, ¬ g.Depends m v := by
  unfold outDegree
  rw [List.length_eq_zero_iff, List.eq_nil_iff_forall_not_mem]
  rfl

theorem Mirrored.inDegree_eq_zero (hg : g.Mirrored) :
    g.inDegree m = 0 ↔ ∀ u, ¬ g.Depends u m := by
  unfold inDegree
  rw [List.length_eq_zero_iff, List.eq_nil_iff_forall_not_mem]
  exact forall_congr' fun u => not_congr (hg.mem_incoming u m)

theorem Mirrored.inDegree_pos (hg : g.Mirrored) (hu : g.Depends u m) : 0 < g.inDegree m :=
  List.length_pos_of_mem ((hg.mem_incoming u m).2 hu)

theorem leads_eq_depends (hg : g.Mirrored) :
    Leads g.nodes (fun m => sortIds (g.outgoing m)) = g.Depends := by
  funext u v
  refine propext ⟨fun h => mem_sortIds.1 h.1, fun h => ⟨mem_sortIds.2 h, ?_⟩⟩
  exact hg.target_mem u v h

theorem reaches_iff (hg : g.Mirrored) :
    DependencyRanking.Reaches g.nodes (fun m => sortIds (g.outgoing m)) u v ↔ g.Reaches u v := by
  unfold DependencyRanking.Reaches Reaches
  rw [leads_eq_depends hg]

/-- Disjoint components that cover the modules, each of them joined by paths. Of two connected
components the one that is reached stands first. -/
structure Partitioned (g : ModuleGraph) (components : List Component) : Prop where
  disjoint : components.Pairwise fun c d => c.nodes.Disjoint d.nodes
  cover : ∀ m, m ∈ components.flatMap Component.nodes ↔ m ∈ g.nodes
  nonempty : ∀ c ∈ components, c.nodes ≠ []
  joined : ∀ c ∈ components, ∀ u ∈ c.nodes, ∀ v ∈ c.nodes, g.Reaches u v
  backward : ∀ (i j : Nat) (c d : Component), components[i]? = some c → components[j]? = some d →
    ∀ u ∈ c.nodes, ∀ v ∈ d.nodes, g.Reaches u v → j ≤ i

def componentsOf (g : ModuleGraph) (groups : List (List ModuleId)) : List Component :=
  groups.map fun nodes => .ofNodes nodes (g.edgesWithin nodes)

theorem componentsOf_getElem? {groups : List (List ModuleId)} {i : Nat} {c : Component}
    (hc : (g.componentsOf groups)[i]? = some c) :
    ∃ group, groups[i]? = some group ∧ ∀ m, m ∈ c.nodes ↔ m ∈ group := by
  unfold componentsOf at hc
  rw [List.getElem?_map, Option.map_eq_some_iff] at hc
  obtain ⟨group, hg, rfl⟩ := hc
  exact ⟨group, hg, fun m => mem_idSet⟩

theorem mem_nodes_componentsOf {groups : List (List ModuleId)} :
    m ∈ (g.componentsOf groups).flatMap Component.nodes ↔ m ∈ groups.flatten := by
  unfold componentsOf
  simp [Component.ofNodes, List.mem_flatMap]

theorem disjoint_componentsOf {groups : List (List ModuleId)} (hn : groups.flatten.Nodup) :
    (g.componentsOf groups).Pairwise fun c d => c.nodes.Disjoint d.nodes := by
  refine List.pairwise_map.2 ((List.nodup_flatten.1 hn).2.imp fun hdisjoint m hm hm' => ?_)
  exact hdisjoint (mem_idSet.1 hm) (mem_idSet.1 hm')

theorem emitted_components (g : ModuleGraph) :
    ∃ cs, g.components = .ok (g.componentsOf cs) ∧
      Search.Emitted g.nodes (fun m => sortIds (g.outgoing m)) cs ∧ cs.flatten.Nodup ∧
      ∀ m, m ∈ cs.flatten ↔ m ∈ g.nodes := by
  obtain ⟨cs, hok, he, hn, hcover⟩ :=
    strongComponents_emitted g.nodes fun m => sortIds (g.outgoing m)
  refine ⟨cs, ?_, he, hn, hcover⟩
  unfold components
  rw [hok]
  rfl

theorem ne_nil_of_mem_componentsOf {cs : List (List ModuleId)} {c : Component}
    (he : Search.Emitted g.nodes (fun m => sortIds (g.outgoing m)) cs)
    (hc : c ∈ g.componentsOf cs) : c.nodes ≠ [] := by
  obtain ⟨group, hgroup, rfl⟩ := List.mem_map.1 hc
  obtain ⟨m, hm⟩ := List.exists_mem_of_ne_nil group fun h => he.nonempty (h ▸ hgroup)
  exact List.ne_nil_of_mem (mem_idSet.2 hm)

theorem partitioned_components (hg : g.Mirrored) :
    ∃ components, g.components = .ok components ∧ g.Partitioned components := by
  obtain ⟨cs, hok, he, hn, hcover⟩ := g.emitted_components
  refine ⟨g.componentsOf cs, hok, disjoint_componentsOf hn,
    fun m => mem_nodes_componentsOf.trans (hcover m),
    fun c hc => ne_nil_of_mem_componentsOf he hc, ?_, ?_⟩
  · intro c hc u hu v hv
    obtain ⟨i, hi⟩ := List.mem_iff_getElem?.1 hc
    obtain ⟨d, hd, hmem⟩ := componentsOf_getElem? hi
    exact (reaches_iff hg).1
      (he.joined d (List.mem_of_getElem? hd) u ((hmem u).1 hu) v ((hmem v).1 hv))
  · intro i j c d hc hd u hu v hv hr
    obtain ⟨c', hc', hcm⟩ := componentsOf_getElem? hc
    obtain ⟨d', hd', hdm⟩ := componentsOf_getElem? hd
    exact he.position_le hc' hd' hn ((hcm u).1 hu) ((hdm v).1 hv) ((reaches_iff hg).2 hr)

end DependencyRanking.ModuleGraph
