import DependencyRanking.Graph.Basic
import DependencyRanking.Proofs.Outcome
import DependencyRanking.Proofs.Sorting
import Mathlib.Order.Basic
import Mathlib.Data.Nat.Basic
import Mathlib.Data.List.Induction
import Mathlib.Data.List.Nodup
import Mathlib.Data.List.Perm.Subperm
import Mathlib.Data.String.Basic

/-!
# What building a graph yields

The dependencies of a module are the targets of its edges, at the place of the first one. The
dependents are read off the same table, so both directions hold the same edges.
-/
namespace DependencyRanking.ModuleGraph

variable {g : ModuleGraph} {edges : List (ModuleId × ModuleId)} {isolated : List ModuleId}
variable {a b m : ModuleId}

namespace Draft

def targets (d : Draft) (m : ModuleId) : List ModuleId := d.adjacency.getD m []

theorem targets_addNode (d : Draft) (a m : ModuleId) : (d.addNode a).targets m = d.targets m :=
  Table.getD_insertNew d.adjacency a m []

theorem contains_addNode (d : Draft) (a m : ModuleId) :
    (d.addNode a).adjacency.contains m ↔ m = a ∨ d.adjacency.contains m := by
  unfold addNode
  rw [Table.contains_insertNew, Bool.or_eq_true, decide_eq_true_eq]

theorem targets_addEdge (d : Draft) (a b m : ModuleId) :
    (d.addEdge (a, b)).targets m =
      if m = a ∧ b ∉ d.targets a then d.targets a ++ [b] else d.targets m := by
  have ht : ∀ x, ((d.addNode a).addNode b).targets x = d.targets x := fun x => by
    rw [targets_addNode, targets_addNode]
  unfold addEdge
  change (if b ∈ ((d.addNode a).addNode b).targets a then _ else _ : Draft).targets m = _
  rw [ht a]
  by_cases hb : b ∈ d.targets a
  · rw [if_pos hb, ht m, if_neg fun h => h.2 hb]
  · rw [if_neg hb]
    refine (Table.getD_insert _ _ _ _ _).trans ?_
    by_cases hm : m = a
    · rw [if_pos hm, if_pos ⟨hm, hb⟩]
      exact congrArg (· ++ [b]) (ht a)
    · rw [if_neg hm, if_neg fun h => hm h.1]
      exact ht m

theorem contains_addEdge (d : Draft) (a b m : ModuleId) :
    (d.addEdge (a, b)).adjacency.contains m ↔ m = a ∨ m = b ∨ d.adjacency.contains m := by
  have ha : ((d.addNode a).addNode b).adjacency.contains m ↔
      m = a ∨ m = b ∨ d.adjacency.contains m := by
    rw [contains_addNode, contains_addNode]
    tauto
  unfold addEdge
  by_cases hb : b ∈ ((d.addNode a).addNode b).adjacency.getD a []
  · simp only [hb, if_true]
    exact ha
  · simp only [hb, if_false]
    rw [Table.contains_insert, Bool.or_eq_true, decide_eq_true_eq, ha]
    tauto

theorem edgeCount_addEdge (d : Draft) (a b : ModuleId) : (d.addEdge (a, b)).edgeCount =
    if b ∈ d.targets a then d.edgeCount else d.edgeCount + 1 := by
  unfold addEdge
  change (if b ∈ ((d.addNode a).addNode b).targets a then _ else _ : Draft).edgeCount = _
  rw [targets_addNode, targets_addNode]
  split
  · rfl
  · rfl

end Draft

def draftOf (edges : List (ModuleId × ModuleId)) (isolated : List ModuleId) : Draft :=
  edges.foldl Draft.addEdge (isolated.foldl Draft.addNode {})

theorem draftOf_concat (edges : List (ModuleId × ModuleId)) (e : ModuleId × ModuleId)
    (isolated : List ModuleId) :
    draftOf (edges ++ [e]) isolated = (draftOf edges isolated).addEdge e := by
  unfold draftOf
  rw [List.foldl_append]
  rfl

theorem draftOf_nil_concat (isolated : List ModuleId) (a : ModuleId) :
    draftOf [] (isolated ++ [a]) = (draftOf [] isolated).addNode a := by
  unfold draftOf
  rw [List.foldl_append]
  rfl

theorem targets_draftOf (edges : List (ModuleId × ModuleId)) (isolated : List ModuleId)
    (m : ModuleId) : (draftOf edges isolated).targets m =
      distinct ((edges.filter fun e => e.1 = m).map Prod.snd) := by
  induction edges using List.reverseRecOn with
  | nil =>
    induction isolated using List.reverseRecOn with
    | nil => rfl
    | append_singleton isolated a ih =>
      rw [draftOf_nil_concat, Draft.targets_addNode]
      exact ih
  | append_singleton edges e ih =>
    obtain ⟨a, b⟩ := e
    rw [draftOf_concat, Draft.targets_addEdge, List.filter_append, List.map_append]
    by_cases hm : m = a
    · subst hm
      simp only [true_and, List.filter_singleton, decide_true, cond_true, List.map_cons,
        List.map_nil]
      rw [distinct_concat, ih]
      by_cases hb : b ∈ (edges.filter fun e => e.1 = m).map Prod.snd
      · rw [if_pos hb, if_neg fun h => h (mem_distinct.2 hb)]
      · rw [if_neg hb, if_pos fun h => hb (mem_distinct.1 h)]
    · have ha : ¬ a = m := Ne.symm hm
      simp [hm, ha, ih]

theorem contains_draftOf (edges : List (ModuleId × ModuleId)) (isolated : List ModuleId)
    (m : ModuleId) : (draftOf edges isolated).adjacency.contains m ↔
      m ∈ isolated ∨ ∃ e ∈ edges, m = e.1 ∨ m = e.2 := by
  induction edges using List.reverseRecOn with
  | nil =>
    induction isolated using List.reverseRecOn with
    | nil => simp [draftOf, Table.contains]
    | append_singleton isolated a ih =>
      rw [draftOf_nil_concat, Draft.contains_addNode, ih]
      simp [or_comm]
  | append_singleton edges e ih =>
    rw [draftOf_concat, Draft.contains_addEdge, ih]
    simp only [List.mem_append, List.mem_singleton]
    constructor
    · rintro (h | h | h | ⟨e', he', h⟩)
      · exact .inr ⟨e, .inr rfl, .inl h⟩
      · exact .inr ⟨e, .inr rfl, .inr h⟩
      · exact .inl h
      · exact .inr ⟨e', .inl he', h⟩
    · rintro (h | ⟨e', he' | rfl, h⟩)
      · exact .inr (.inr (.inl h))
      · exact .inr (.inr (.inr ⟨e', he', h⟩))
      · exact h.imp_right .inl

theorem outgoing_ofEdges (edges : List (ModuleId × ModuleId)) (isolated : List ModuleId)
    (m : ModuleId) : (ofEdges edges isolated).outgoing m =
      distinct ((edges.filter fun e => e.1 = m).map Prod.snd) :=
  targets_draftOf edges isolated m

theorem mem_nodes_ofEdges (edges : List (ModuleId × ModuleId)) (isolated : List ModuleId)
    (m : ModuleId) : m ∈ (ofEdges edges isolated).nodes ↔
      m ∈ isolated ∨ ∃ e ∈ edges, m = e.1 ∨ m = e.2 := by
  rw [mem_nodes, ← Table.contains_iff]
  exact contains_draftOf edges isolated m

theorem mem_outgoing_ofEdges (edges : List (ModuleId × ModuleId)) (isolated : List ModuleId) :
    b ∈ (ofEdges edges isolated).outgoing a ↔ (a, b) ∈ edges := by
  rw [outgoing_ofEdges, mem_distinct]
  simp only [List.mem_map, List.mem_filter, decide_eq_true_eq, Prod.exists]
  constructor
  · rintro ⟨x, y, ⟨h, rfl⟩, rfl⟩
    exact h
  · intro h
    exact ⟨a, b, ⟨h, rfl⟩, rfl⟩

theorem edgeCount_ofEdges (edges : List (ModuleId × ModuleId)) (isolated : List ModuleId) :
    (ofEdges edges isolated).edgeCount = (distinct edges).length := by
  change (draftOf edges isolated).edgeCount = _
  induction edges using List.reverseRecOn with
  | nil =>
    induction isolated using List.reverseRecOn with
    | nil => rfl
    | append_singleton isolated a ih =>
      rw [draftOf_nil_concat]
      exact ih
  | append_singleton edges e ih =>
    obtain ⟨a, b⟩ := e
    have hmem : b ∈ (draftOf edges isolated).targets a ↔ (a, b) ∈ edges :=
      mem_outgoing_ofEdges edges isolated
    rw [draftOf_concat, Draft.edgeCount_addEdge, distinct_concat, ih]
    simp only [hmem]
    split
    · rfl
    · simp

section Dependents

variable {entries : List (ModuleId × List ModuleId)}

theorem mem_dependents : a ∈ dependents entries m ↔ ∃ targets, (a, targets) ∈ entries ∧
    m ∈ targets := by
  unfold dependents
  simp only [List.mem_map, List.mem_filter, decide_eq_true_eq, Prod.exists]
  constructor
  · rintro ⟨x, targets, h, rfl⟩
    exact ⟨targets, h⟩
  · rintro ⟨targets, h⟩
    exact ⟨a, targets, h, rfl⟩

theorem ascending_dependents (h : (entries.map Prod.fst).Nodup) (m : ModuleId) :
    (dependents (entries.mergeSort fun a b => decide (a.1 ≤ b.1)) m).Pairwise (· < ·) := by
  have hlt : ((entries.mergeSort fun a b => decide (a.1 ≤ b.1)).map Prod.fst).Pairwise (· < ·) :=
    List.pairwise_map.2 (pairwise_mergeSort_key Prod.fst h)
  exact hlt.sublist (List.filter_sublist.map Prod.fst)

end Dependents

theorem incoming_ofEdges (edges : List (ModuleId × ModuleId)) (isolated : List ModuleId)
    (m : ModuleId) : (ofEdges edges isolated).incoming m =
      if (draftOf edges isolated).adjacency.contains m then
        dependents ((draftOf edges isolated).adjacency.entries.mergeSort
          fun a b => decide (a.1 ≤ b.1)) m
      else [] := by
  unfold incoming ofEdges Draft.graph Table.getD
  rw [Table.get?_mapValues]
  unfold Table.contains draftOf
  cases (edges.foldl Draft.addEdge (isolated.foldl Draft.addNode {})).adjacency.get? m <;> rfl

/-- Both directions of a graph hold the same edges, each once, between its modules. -/
structure Mirrored (g : ModuleGraph) : Prop where
  nodup_outgoing : ∀ a, (g.outgoing a).Nodup
  source_mem : ∀ a b, b ∈ g.outgoing a → a ∈ g.nodes
  target_mem : ∀ a b, b ∈ g.outgoing a → b ∈ g.nodes
  mem_incoming : ∀ a b, a ∈ g.incoming b ↔ b ∈ g.outgoing a
  ascending : ∀ b, (g.incoming b).Pairwise (· < ·)

theorem mirrored_ofEdges (edges : List (ModuleId × ModuleId)) (isolated : List ModuleId) :
    (ofEdges edges isolated).Mirrored where
  nodup_outgoing a := by
    rw [outgoing_ofEdges]
    exact nodup_distinct _
  source_mem a b h := by
    rw [mem_outgoing_ofEdges] at h
    exact (mem_nodes_ofEdges edges isolated a).2 (.inr ⟨(a, b), h, .inl rfl⟩)
  target_mem a b h := by
    rw [mem_outgoing_ofEdges] at h
    exact (mem_nodes_ofEdges edges isolated b).2 (.inr ⟨(a, b), h, .inr rfl⟩)
  mem_incoming a b := by
    have hd : a ∈ dependents ((draftOf edges isolated).adjacency.entries.mergeSort
        fun a b => decide (a.1 ≤ b.1)) b ↔ b ∈ (ofEdges edges isolated).outgoing a := by
      rw [mem_dependents]
      simp only [List.mem_mergeSort, Table.mem_entries_iff]
      change _ ↔ b ∈ ((draftOf edges isolated).adjacency.get? a).getD []
      cases (draftOf edges isolated).adjacency.get? a <;> simp
    rw [incoming_ofEdges]
    by_cases hb : (draftOf edges isolated).adjacency.contains b
    · rw [if_pos hb, hd]
    · rw [if_neg hb]
      refine ⟨fun h => absurd h List.not_mem_nil, fun h => absurd ?_ hb⟩
      rw [mem_outgoing_ofEdges] at h
      exact (contains_draftOf edges isolated b).2 (.inr ⟨(a, b), h, .inr rfl⟩)
  ascending b := by
    rw [incoming_ofEdges]
    split
    · exact ascending_dependents (draftOf edges isolated).adjacency.nodup b
    · exact List.Pairwise.nil

theorem length_nodes (g : ModuleGraph) : g.nodes.length = g.nodeCount := by
  unfold nodes
  rw [(sortIds_perm _).length_eq]
  exact List.length_map Prod.fst

theorem nodeCount_ne_zero_iff (g : ModuleGraph) : g.nodeCount ≠ 0 ↔ g.nodes ≠ [] := by
  rw [← length_nodes, ne_eq, List.length_eq_zero_iff]

theorem Mirrored.inDegree_le (h : g.Mirrored) (m : ModuleId) : g.inDegree m ≤ g.nodeCount := by
  have hn : (g.incoming m).Nodup := (h.ascending m).imp fun hlt => hlt.ne
  rw [← length_nodes]
  refine (List.subperm_of_subset hn fun a ha => ?_).length_le
  exact h.source_mem a m ((h.mem_incoming a m).1 ha)

theorem Mirrored.outDegree_le (h : g.Mirrored) (m : ModuleId) : g.outDegree m ≤ g.nodeCount := by
  rw [← length_nodes]
  exact (List.subperm_of_subset (h.nodup_outgoing m) fun b hb => h.target_mem m b hb).length_le

section Given

variable {value source target : Value} {role : IdRole} {e : ModuleId × ModuleId}

theorem readId_eq_ok : readId value source target role = .ok m ↔
    value = .text m ∧ Text.isBlank m = false := by
  unfold readId
  split
  · rename_i s
    by_cases hs : Text.isBlank s
    · simp only [hs, if_true, reduceCtorEq, Value.text.injEq, false_iff, not_and]
      rintro rfl
      simp [hs]
    · simp only [hs, Bool.false_eq_true, if_false, Except.ok.injEq, Value.text.injEq]
      constructor
      · rintro rfl
        exact ⟨rfl, by simpa using hs⟩
      · exact fun h => h.1
  · rename_i hv
    refine iff_of_false (by simp) ?_
    rintro ⟨rfl, -⟩
    exact hv m rfl

theorem items?_of_readEdge (h : readEdge value = .ok e) :
    value.items? = some [.text e.1, .text e.2] := by
  unfold readEdge at h
  split at h
  · cases h
  · split at h
    · rename_i source target hitems
      obtain ⟨a, ha, h⟩ := Outcome.bind_eq_ok.1 h
      obtain ⟨b, hb, h⟩ := Outcome.bind_eq_ok.1 h
      cases h
      rw [hitems, (readId_eq_ok.1 ha).1, (readId_eq_ok.1 hb).1]
    · cases h

theorem itemsOf_eq_ok {items : List Value} :
    itemsOf value = .ok items ↔ value.items? = some items := by
  unfold itemsOf
  cases value.items? with
  | none => simp
  | some items' => simp

/-- Values that list modules and, pair by pair, edges. -/
structure Lists (edges isolated : Value) (pairs : List (ModuleId × ModuleId))
    (nodes : List ModuleId) : Prop where
  nodes : isolated.items? = some (nodes.map .text)
  edges : ∃ given, edges.items? = some given ∧
    List.Forall₂ (fun v e => v.items? = some [.text e.1, .text e.2]) given pairs

theorem lists_of_read? {edges isolated : Value} (h : read? edges isolated = .ok g) :
    ∃ pairs nodes, Lists edges isolated pairs nodes ∧ g = ofEdges pairs nodes := by
  obtain ⟨values, hvalues, h⟩ := Outcome.bind_eq_ok.1 h
  obtain ⟨nodes, hnodes, h⟩ := Outcome.bind_eq_ok.1 h
  obtain ⟨given, hgiven, h⟩ := Outcome.bind_eq_ok.1 h
  obtain ⟨pairs, hpairs, h⟩ := Outcome.bind_eq_ok.1 h
  cases h
  rw [Outcome.mapM_eq_ok] at hnodes hpairs
  have htexts : values = nodes.map .text := by
    rw [← List.forall₂_eq_eq_eq, List.forall₂_map_right_iff]
    exact hnodes.imp fun v m hm => (readId_eq_ok.1 hm).1
  refine ⟨pairs, nodes, ⟨?_, given, itemsOf_eq_ok.1 hgiven, ?_⟩, rfl⟩
  · rw [itemsOf_eq_ok.1 hvalues, htexts]
  · exact hpairs.imp fun v e he => items?_of_readEdge he

end Given

theorem ofEdges_of_read? {edges isolated : Value} (h : read? edges isolated = .ok g) :
    ∃ pairs nodes, g = ofEdges pairs nodes := by
  obtain ⟨pairs, nodes, -, rfl⟩ := lists_of_read? h
  exact ⟨pairs, nodes, rfl⟩

theorem mirrored_of_read? {edges isolated : Value} (h : read? edges isolated = .ok g) :
    g.Mirrored := by
  obtain ⟨pairs, nodes, rfl⟩ := ofEdges_of_read? h
  exact mirrored_ofEdges pairs nodes

end DependencyRanking.ModuleGraph
