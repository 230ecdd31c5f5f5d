import DependencyRanking.Proofs.Graph.Components

/-!
# Graphs under other names

New names for the modules of a graph, different for different modules, carry its edges over to
another graph. Nodes are kept in ascending order and edges in the order in which they came, so the
lists of the two graphs agree up to their order only. Every such graph can be read, unless a new
name is blank.
-/
namespace DependencyRanking.ModuleGraph

variable {g h : ModuleGraph} {r : ModuleId → ModuleId} {pairs : List (ModuleId × ModuleId)}
variable {nodes ms ns : List ModuleId} {m : ModuleId}

/-- The modules and the edges of the second graph are those of the first under new names. -/
structure Renames (r : ModuleId → ModuleId) (g h : ModuleGraph) : Prop where
  injective : ∀ a ∈ g.nodes, ∀ b ∈ g.nodes, r a = r b → a = b
  mem_nodes : ∀ m, m ∈ h.nodes ↔ ∃ a ∈ g.nodes, r a = m
  depends_iff : ∀ a ∈ g.nodes, ∀ b ∈ g.nodes, h.Depends (r a) (r b) ↔ g.Depends a b

namespace Renames

variable (hr : Renames r g h)
include hr

theorem perm_map (hms : ms.Nodup) (hns : ns.Nodup) (hsub : ∀ a ∈ ms, a ∈ g.nodes)
    (hmem : ∀ b, b ∈ ns ↔ ∃ a ∈ ms, r a = b) : ns.Perm (ms.map r) := by
  have hn : (ms.map r).Nodup :=
    hms.map_on fun a ha b hb => hr.injective a (hsub a ha) b (hsub b hb)
  refine (List.perm_ext_iff_of_nodup hns hn).2 fun b => ?_
  rw [hmem, List.mem_map]

theorem nodes_perm : h.nodes.Perm (g.nodes.map r) :=
  hr.perm_map g.nodup_nodes h.nodup_nodes (fun _ ha => ha) hr.mem_nodes

theorem nodeCount_eq : h.nodeCount = g.nodeCount := by
  rw [← length_nodes, ← length_nodes, hr.nodes_perm.length_eq, List.length_map]

variable (hg : g.Mirrored) (hh : h.Mirrored) (hm : m ∈ g.nodes)
include hg hh hm

theorem outgoing_perm : (h.outgoing (r m)).Perm ((g.outgoing m).map r) := by
  refine hr.perm_map (hg.nodup_outgoing m) (hh.nodup_outgoing (r m))
    (fun a ha => hg.target_mem m a ha) fun b => ?_
  constructor
  · intro hb
    obtain ⟨a, ha, rfl⟩ := (hr.mem_nodes b).1 (hh.target_mem (r m) b hb)
    exact ⟨a, (hr.depends_iff m hm a ha).1 hb, rfl⟩
  · rintro ⟨a, ha, rfl⟩
    exact (hr.depends_iff m hm a (hg.target_mem m a ha)).2 ha

theorem outDegree_eq : h.outDegree (r m) = g.outDegree m := by
  unfold outDegree
  rw [(hr.outgoing_perm hg hh hm).length_eq, List.length_map]

theorem incoming_perm : (h.incoming (r m)).Perm ((g.incoming m).map r) := by
  have hsource : ∀ a ∈ g.incoming m, a ∈ g.nodes := fun a ha =>
    hg.source_mem a m ((hg.mem_incoming a m).1 ha)
  refine hr.perm_map ((hg.ascending m).imp fun hlt => hlt.ne)
    ((hh.ascending (r m)).imp fun hlt => hlt.ne) hsource fun b => ?_
  constructor
  · intro hb
    have hb := (hh.mem_incoming b (r m)).1 hb
    obtain ⟨a, ha, rfl⟩ := (hr.mem_nodes b).1 (hh.source_mem b (r m) hb)
    exact ⟨a, (hg.mem_incoming a m).2 ((hr.depends_iff a ha m hm).1 hb), rfl⟩
  · rintro ⟨a, ha, rfl⟩
    rw [hh.mem_incoming]
    exact (hr.depends_iff a (hsource a ha) m hm).2 ((hg.mem_incoming a m).1 ha)

end Renames

theorem renames_ofEdges
    (hr : ∀ a ∈ (ofEdges pairs nodes).nodes, ∀ b ∈ (ofEdges pairs nodes).nodes, r a = r b → a = b) :
    Renames r (ofEdges pairs nodes) (ofEdges (pairs.map (Prod.map r r)) (nodes.map r)) where
  injective := hr
  mem_nodes m := by
    simp only [mem_nodes_ofEdges, List.mem_map, exists_exists_and_eq_and, Prod.map_fst, Prod.map_snd]
    constructor
    · rintro (⟨a, ha, rfl⟩ | ⟨e, he, rfl | rfl⟩)
      · exact ⟨a, .inl ha, rfl⟩
      · exact ⟨e.1, .inr ⟨e, he, .inl rfl⟩, rfl⟩
      · exact ⟨e.2, .inr ⟨e, he, .inr rfl⟩, rfl⟩
    · rintro ⟨a, ha | ⟨e, he, rfl | rfl⟩, rfl⟩
      · exact .inl ⟨a, ha, rfl⟩
      · exact .inr ⟨e, he, .inl rfl⟩
      · exact .inr ⟨e, he, .inr rfl⟩
  depends_iff a ha b hb := by
    unfold Depends
    rw [mem_outgoing_ofEdges, mem_outgoing_ofEdges, List.mem_map]
    constructor
    · rintro ⟨⟨u, v⟩, he, heq⟩
      obtain ⟨hu, hv⟩ := Prod.mk.inj heq
      have hun := (mem_nodes_ofEdges pairs nodes u).2 (.inr ⟨(u, v), he, .inl rfl⟩)
      have hvn := (mem_nodes_ofEdges pairs nodes v).2 (.inr ⟨(u, v), he, .inr rfl⟩)
      rw [← hr u hun a ha hu, ← hr v hvn b hb hv]
      exact he
    · exact fun he => ⟨(a, b), he, rfl⟩

def writtenEdges (pairs : List (ModuleId × ModuleId)) : Value :=
  .list (pairs.map fun e => .tuple [.text e.1, .text e.2])

def writtenNodes (nodes : List ModuleId) : Value := .list (nodes.map .text)

theorem read?_written (hnodes : ∀ m ∈ nodes, Text.isBlank m = false)
    (hpairs : ∀ e ∈ pairs, Text.isBlank e.1 = false ∧ Text.isBlank e.2 = false) :
    read? (writtenEdges pairs) (writtenNodes nodes) = .ok (ofEdges pairs nodes) := by
  have hread : (nodes.map Value.text).mapM readNode = .ok nodes := by
    rw [Outcome.mapM_eq_ok, List.forall₂_map_left_iff, List.forall₂_same]
    exact fun m hm => readId_eq_ok.2 ⟨rfl, hnodes m hm⟩
  have hedges : (pairs.map fun e => Value.tuple [.text e.1, .text e.2]).mapM readEdge =
      .ok pairs := by
    rw [Outcome.mapM_eq_ok, List.forall₂_map_left_iff, List.forall₂_same]
    intro e he
    exact Outcome.bind_eq_ok.2 ⟨e.1, readId_eq_ok.2 ⟨rfl, (hpairs e he).1⟩,
      Outcome.bind_eq_ok.2 ⟨e.2, readId_eq_ok.2 ⟨rfl, (hpairs e he).2⟩, rfl⟩⟩
  exact Outcome.bind_eq_ok.2 ⟨_, rfl, Outcome.bind_eq_ok.2 ⟨_, hread,
    Outcome.bind_eq_ok.2 ⟨_, rfl, Outcome.bind_eq_ok.2 ⟨_, hedges, rfl⟩⟩⟩⟩

theorem exists_renamed {edges isolated : Value} (hg : read? edges isolated = .ok g)
    (hr : ∀ a ∈ g.nodes, ∀ b ∈ g.nodes, r a = r b → a = b)
    (hblank : ∀ m ∈ g.nodes, Text.isBlank (r m) = false) :
    ∃ edges' isolated' h, read? edges' isolated' = .ok h ∧ Renames r g h := by
  obtain ⟨pairs, nodes, rfl⟩ := ofEdges_of_read? hg
  refine ⟨_, _, _, read?_written (fun m hm => ?_) (fun e he => ?_), renames_ofEdges hr⟩
  · obtain ⟨a, ha, rfl⟩ := List.mem_map.1 hm
    exact hblank a ((mem_nodes_ofEdges pairs nodes a).2 (.inl ha))
  · obtain ⟨e, hmem, rfl⟩ := List.mem_map.1 he
    exact ⟨hblank e.1 ((mem_nodes_ofEdges pairs nodes e.1).2 (.inr ⟨e, hmem, .inl rfl⟩)),
      hblank e.2 ((mem_nodes_ofEdges pairs nodes e.2).2 (.inr ⟨e, hmem, .inr rfl⟩))⟩

end DependencyRanking.ModuleGraph
