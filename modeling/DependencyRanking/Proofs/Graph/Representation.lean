import DependencyRanking.Proofs.Graph.Build
import Mathlib.Algebra.BigOperators.Group.Finset.Basic
import Mathlib.Algebra.GroupWithZero.Nat

/-!
# What a graph represents

A graph that was read holds the modules and the edges that were given, and nothing else. Both tables
have the same keys, every edge stands in both of them, the dependencies of a module stand in the
order in which the edges came, and the number of edges is the sum of the degrees on either side.
-/
namespace DependencyRanking.ModuleGraph

variable {g : ModuleGraph} {pairs : List (ModuleId × ModuleId)} {nodes : List ModuleId}
variable {a b m : ModuleId}

/-- A graph of exactly the given edges and modules. -/
structure Represents (g : ModuleGraph) (pairs : List (ModuleId × ModuleId))
    (nodes : List ModuleId) : Prop where
  keys : g.reverse.keys = g.adjacency.keys
  mem_keys : ∀ m, m ∈ g.adjacency.keys ↔ m ∈ nodes ∨ ∃ e ∈ pairs, m = e.1 ∨ m = e.2
  mem_outgoing : ∀ a b, b ∈ g.outgoing a ↔ (a, b) ∈ pairs
  mem_incoming : ∀ a b, a ∈ g.incoming b ↔ (a, b) ∈ pairs
  nodup_outgoing : ∀ a, (g.outgoing a).Nodup
  ordered : ∀ a, (g.outgoing a).Pairwise fun b c => pairs.idxOf (a, b) < pairs.idxOf (a, c)
  ascending : ∀ b, (g.incoming b).Pairwise (· < ·)
  edgeCount : g.edgeCount = pairs.toFinset.card
  sum_outDegree : (g.nodes.map g.outDegree).sum = g.edgeCount
  sum_inDegree : (g.nodes.map g.inDegree).sum = g.edgeCount

theorem keys_reverse_ofEdges (pairs : List (ModuleId × ModuleId)) (nodes : List ModuleId) :
    (ofEdges pairs nodes).reverse.keys = (ofEdges pairs nodes).adjacency.keys :=
  Table.keys_mapValues _ _

theorem mem_targets_draftOf : b ∈ (draftOf pairs nodes).targets a ↔ (a, b) ∈ pairs :=
  mem_outgoing_ofEdges pairs nodes

theorem ordered_targets (pairs : List (ModuleId × ModuleId)) (nodes : List ModuleId)
    (m : ModuleId) : ((draftOf pairs nodes).targets m).Pairwise
      fun b c => pairs.idxOf (m, b) < pairs.idxOf (m, c) := by
  -- from the end: a new edge is put behind the earlier edges of its source, as it is behind all
  induction pairs using List.reverseRecOn with
  | nil =>
    rw [targets_draftOf]
    exact List.Pairwise.nil
  | append_singleton pairs e ih =>
    obtain ⟨a, b⟩ := e
    have hkept : ((draftOf pairs nodes).targets m).Pairwise fun x y =>
        (pairs ++ [(a, b)]).idxOf (m, x) < (pairs ++ [(a, b)]).idxOf (m, y) := by
      refine ih.imp_of_mem fun {x y} hx hy hxy => ?_
      rw [List.idxOf_append_of_mem (mem_targets_draftOf.1 hx),
        List.idxOf_append_of_mem (mem_targets_draftOf.1 hy)]
      exact hxy
    rw [draftOf_concat, Draft.targets_addEdge]
    split
    · rename_i hnew
      obtain ⟨rfl, hb⟩ := hnew
      refine List.pairwise_append.2 ⟨hkept, List.pairwise_singleton _ _, fun x hx y hy => ?_⟩
      obtain rfl := List.mem_singleton.1 hy
      have hx' := mem_targets_draftOf.1 hx
      rw [List.idxOf_append_of_mem hx',
        List.idxOf_append_of_notMem fun h => hb (mem_targets_draftOf.2 h)]
      exact (List.idxOf_lt_length_iff.2 hx').trans_le (Nat.le_add_right _ _)
    · exact hkept

section Degrees

theorem card_eq_sum_length (side : ModuleId × ModuleId → ModuleId)
    (edgesAt : ModuleId → List (ModuleId × ModuleId)) (hn : nodes.Nodup)
    (hnodup : ∀ m, (edgesAt m).Nodup) (hmem : ∀ m e, e ∈ edgesAt m ↔ e ∈ pairs ∧ side e = m)
    (hside : ∀ e ∈ pairs, side e ∈ nodes) :
    pairs.toFinset.card = (nodes.map fun m => (edgesAt m).length).sum := by
  rw [Finset.card_eq_sum_card_fiberwise (f := side) (t := nodes.toFinset), List.sum_toFinset _ hn]
  · congr 1
    refine List.map_congr_left fun m _ => ?_
    rw [← List.toFinset_card_of_nodup (hnodup m)]
    congr 1
    ext e
    simp [hmem]
  · intro e he
    simpa using hside e (by simpa using he)

theorem sum_outDegree_ofEdges (pairs : List (ModuleId × ModuleId)) (nodes : List ModuleId) :
    ((ofEdges pairs nodes).nodes.map (ofEdges pairs nodes).outDegree).sum =
      pairs.toFinset.card := by
  have hm := mirrored_ofEdges pairs nodes
  rw [card_eq_sum_length Prod.fst (fun a => ((ofEdges pairs nodes).outgoing a).map (a, ·))
    (ofEdges pairs nodes).nodup_nodes]
  · simp only [List.length_map]
    rfl
  · exact fun a => (hm.nodup_outgoing a).map fun b c hbc => congrArg Prod.snd hbc
  · rintro a ⟨x, b⟩
    simp only [List.mem_map, Prod.mk.injEq, mem_outgoing_ofEdges]
    constructor
    · rintro ⟨c, hc, rfl, rfl⟩
      exact ⟨hc, rfl⟩
    · rintro ⟨h, rfl⟩
      exact ⟨b, h, rfl, rfl⟩
  · exact fun e he => hm.source_mem e.1 e.2 ((mem_outgoing_ofEdges pairs nodes).2 he)

theorem sum_inDegree_ofEdges (pairs : List (ModuleId × ModuleId)) (nodes : List ModuleId) :
    ((ofEdges pairs nodes).nodes.map (ofEdges pairs nodes).inDegree).sum =
      pairs.toFinset.card := by
  have hm := mirrored_ofEdges pairs nodes
  rw [card_eq_sum_length Prod.snd (fun b => ((ofEdges pairs nodes).incoming b).map (·, b))
    (ofEdges pairs nodes).nodup_nodes]
  · simp only [List.length_map]
    rfl
  · intro b
    have hb : ((ofEdges pairs nodes).incoming b).Nodup := (hm.ascending b).imp fun h => h.ne
    exact hb.map fun a c hac => congrArg Prod.fst hac
  · rintro b ⟨a, x⟩
    simp only [List.mem_map, Prod.mk.injEq, hm.mem_incoming, mem_outgoing_ofEdges]
    constructor
    · rintro ⟨c, hc, rfl, rfl⟩
      exact ⟨hc, rfl⟩
    · rintro ⟨h, rfl⟩
      exact ⟨a, h, rfl, rfl⟩
  · exact fun e he => hm.target_mem e.1 e.2 ((mem_outgoing_ofEdges pairs nodes).2 he)

end Degrees

theorem edgeCount_eq_card (pairs : List (ModuleId × ModuleId)) (nodes : List ModuleId) :
    (ofEdges pairs nodes).edgeCount = pairs.toFinset.card := by
  rw [edgeCount_ofEdges, ← List.toFinset_card_of_nodup (nodup_distinct pairs)]
  congr 1
  ext e
  simp

theorem represents_ofEdges (pairs : List (ModuleId × ModuleId)) (nodes : List ModuleId) :
    (ofEdges pairs nodes).Represents pairs nodes where
  keys := keys_reverse_ofEdges pairs nodes
  mem_keys m := by rw [← mem_nodes, mem_nodes_ofEdges]
  mem_outgoing a b := mem_outgoing_ofEdges pairs nodes
  mem_incoming a b := by rw [(mirrored_ofEdges pairs nodes).mem_incoming, mem_outgoing_ofEdges]
  nodup_outgoing := (mirrored_ofEdges pairs nodes).nodup_outgoing
  ordered := ordered_targets pairs nodes
  ascending := (mirrored_ofEdges pairs nodes).ascending
  edgeCount := edgeCount_eq_card pairs nodes
  sum_outDegree := by rw [sum_outDegree_ofEdges, edgeCount_eq_card]
  sum_inDegree := by rw [sum_inDegree_ofEdges, edgeCount_eq_card]

/-- Whatever values are read, the graph represents the edges and the modules that they list. -/
theorem represents_of_read? {edges isolated : Value} (h : read? edges isolated = .ok g) :
    ∃ pairs nodes, Lists edges isolated pairs nodes ∧ g.Represents pairs nodes := by
  obtain ⟨pairs, nodes, hlists, rfl⟩ := lists_of_read? h
  exact ⟨pairs, nodes, hlists, represents_ofEdges pairs nodes⟩

theorem represents_repeated : ∃ g pairs nodes,
    read? (.list [.tuple [.text "b", .text "c"], .tuple [.text "b", .text "a"],
      .tuple [.text "b", .text "c"], .tuple [.text "a", .text "a"]])
      (.list [.text "d", .text "a", .text "d"]) = .ok g ∧
    Represents g pairs nodes ∧ g.outgoing "b" = ["c", "a"] ∧ g.edgeCount = 3 := by
  have hg : read? (.list [.tuple [.text "b", .text "c"], .tuple [.text "b", .text "a"],
      .tuple [.text "b", .text "c"], .tuple [.text "a", .text "a"]])
      (.list [.text "d", .text "a", .text "d"]) =
    .ok (.ofEdges [("b", "c"), ("b", "a"), ("b", "c"), ("a", "a")] ["d", "a", "d"]) := rfl
  obtain ⟨pairs, nodes, -, h⟩ := represents_of_read? hg
  exact ⟨_, pairs, nodes, hg, h, rfl, rfl⟩

end DependencyRanking.ModuleGraph
