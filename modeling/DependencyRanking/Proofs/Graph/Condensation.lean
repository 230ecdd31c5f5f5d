import DependencyRanking.Graph.Condensation
import DependencyRanking.Proofs.Graph.Components

/-!
# What contraction keeps

A position depends on another exactly if some module of the one depends on some module of the
other. Both tables of a condensation hold the same edges, each once.
-/
namespace DependencyRanking

variable {g : ModuleGraph} {components : List Component} {c d : Component}
variable {u v m : ModuleId} {i j : Nat}

section Membership

theorem membershipOf_concat (components : List Component) (c : Component) :
    membershipOf (components ++ [c]) =
      (membershipOf components).insertAll (c.nodes.map (·, components.length)) := by
  unfold membershipOf
  rw [List.zipIdx_append, List.foldl_append]
  simp

theorem membershipOf_eq_some : (membershipOf components).get? m = some i ↔
    ∃ c, components[i]? = some c ∧ m ∈ c.nodes ∧
      ∀ (j : Nat) (d : Component), components[j]? = some d → m ∈ d.nodes → j ≤ i := by
  induction components using List.reverseRecOn with
  | nil => simp [membershipOf]
  | append_singleton rest e ih =>
    rw [membershipOf_concat, Table.get?_insertAll_const]
    by_cases he : m ∈ e.nodes
    · rw [if_pos he, Option.some.injEq]
      constructor
      · rintro rfl
        refine ⟨e, List.getElem?_concat_length, he, fun j d hd _ => ?_⟩
        have hj := (List.getElem?_eq_some_iff.1 hd).1
        rw [List.length_append, List.length_singleton] at hj
        exact Nat.le_of_lt_succ hj
      · rintro ⟨c, hc, -, hlast⟩
        have hi := (List.getElem?_eq_some_iff.1 hc).1
        rw [List.length_append, List.length_singleton] at hi
        exact Nat.le_antisymm (hlast _ e List.getElem?_concat_length he) (Nat.le_of_lt_succ hi)
    · rw [if_neg he, ih]
      -- the new component holds `m` not, so the positions that hold it are the old ones
      have hold : ∀ (j : Nat) (d : Component), (rest ++ [e])[j]? = some d ∧ m ∈ d.nodes ↔
          rest[j]? = some d ∧ m ∈ d.nodes := by
        intro j d
        refine and_congr_left fun hd => ?_
        rcases Nat.lt_trichotomy j rest.length with hj | rfl | hj
        · rw [List.getElem?_append_left hj]
        · rw [List.getElem?_concat_length, List.getElem?_eq_none (Nat.le_refl _)]
          refine ⟨fun h => absurd hd ?_, fun h => absurd h (by simp)⟩
          cases h
          exact he
        · rw [List.getElem?_eq_none (by simp; omega), List.getElem?_eq_none hj.le]
      simp only [← and_assoc, hold, ← and_imp]

theorem position_unique_of_disjoint {α β : Type} {f : β → List α} {xs : List β} {x y : β} {a : α}
    (h : xs.Pairwise fun x y => (f x).Disjoint (f y)) (hx : xs[i]? = some x)
    (hy : xs[j]? = some y) (ha : a ∈ f x) (ha' : a ∈ f y) : i = j := by
  obtain ⟨hi, rfl⟩ := List.getElem?_eq_some_iff.1 hx
  obtain ⟨hj, rfl⟩ := List.getElem?_eq_some_iff.1 hy
  rw [List.pairwise_iff_getElem] at h
  rcases Nat.lt_trichotomy i j with hlt | heq | hlt
  · exact absurd ha' (h i j hi hj hlt ha)
  · exact heq
  · exact absurd ha (h j i hj hi hlt ha')

theorem membershipOf_of_disjoint
    (h : components.Pairwise fun c d => c.nodes.Disjoint d.nodes) :
    (membershipOf components).get? m = some i ↔ ∃ c, components[i]? = some c ∧ m ∈ c.nodes := by
  rw [membershipOf_eq_some]
  refine ⟨fun ⟨c, hc, hm, _⟩ => ⟨c, hc, hm⟩, fun ⟨c, hc, hm⟩ => ⟨c, hc, hm, ?_⟩⟩
  intro j d hd hmd
  exact (position_unique_of_disjoint h hd hc hmd hm).le

end Membership

theorem mem_successorsOf {membership : Table ModuleId Nat} :
    j ∈ successorsOf g membership c i ↔
      j ≠ i ∧ ∃ u ∈ c.nodes, ∃ v, g.Depends u v ∧ membership.get? v = some j := by
  unfold successorsOf ModuleGraph.Depends
  simp only [mem_distinct, List.mem_filter, List.mem_filterMap, List.mem_flatMap,
    decide_eq_true_eq]
  constructor
  · rintro ⟨⟨v, ⟨u, hu, hv⟩, hj⟩, hne⟩
    exact ⟨hne, u, hu, v, hv, hj⟩
  · rintro ⟨hne, u, hu, v, hv, hj⟩
    exact ⟨⟨v, ⟨u, hu, hv⟩, hj⟩, hne⟩

theorem mem_predecessorsOf {successors : List (List Nat)} :
    i ∈ predecessorsOf successors j ↔ j ∈ successors.getD i [] := by
  unfold predecessorsOf
  simp only [List.mem_map, List.mem_filter, List.mem_zipIdx_iff_getElem?, decide_eq_true_eq,
    Prod.exists]
  rw [List.getD_eq_getElem?_getD]
  constructor
  · rintro ⟨s, k, ⟨hs, hj⟩, rfl⟩
    rw [hs]
    exact hj
  · intro hj
    cases hs : successors[i]? with
    | none => simp [hs] at hj
    | some s => exact ⟨s, i, ⟨hs, by simpa [hs] using hj⟩, rfl⟩

theorem ascending_predecessorsOf (successors : List (List Nat)) (j : Nat) :
    (predecessorsOf successors j).Pairwise (· < ·) := by
  have h : (successors.zipIdx.map Prod.snd).Pairwise (· < ·) := by
    rw [List.zipIdx_map_snd]
    exact List.pairwise_lt_range'
  exact h.sublist (List.filter_sublist.map Prod.snd)

namespace ModuleGraph

theorem length_successors (g : ModuleGraph) (components : List Component) :
    (g.condense components).successors.length = components.length := by
  simp [condense]

theorem length_predecessors (g : ModuleGraph) (components : List Component) :
    (g.condense components).predecessors.length = components.length := by
  simp [condense]

theorem successors_getElem? (g : ModuleGraph) (components : List Component) (i : Nat) :
    (g.condense components).successors[i]? =
      components[i]?.map fun c => successorsOf g (membershipOf components) c i := by
  simp [condense, List.getElem?_zipIdx, Function.comp_def]

theorem mem_successors : j ∈ (g.condense components).successors.getD i [] ↔
    j ≠ i ∧ ∃ c, components[i]? = some c ∧ ∃ u ∈ c.nodes, ∃ v, g.Depends u v ∧
      (membershipOf components).get? v = some j := by
  rw [List.getD_eq_getElem?_getD, successors_getElem?]
  cases hc : components[i]? with
  | none => simp
  | some c => simp [mem_successorsOf]

end ModuleGraph

/-- Two tables of positions that hold the same edges from either end, each once. -/
structure Transposed (successors predecessors : List (List Nat)) : Prop where
  length_eq : predecessors.length = successors.length
  nodup_successors : ∀ i, (successors.getD i []).Nodup
  nodup_predecessors : ∀ j, (predecessors.getD j []).Nodup
  mem_iff : ∀ i j, i ∈ predecessors.getD j [] ↔ j ∈ successors.getD i []

theorem lt_length_of_mem_getD {table : List (List Nat)} (h : j ∈ table.getD i []) :
    i < table.length := by
  by_contra hi
  rw [List.getD_eq_getElem?_getD, List.getElem?_eq_none (Nat.le_of_not_lt hi)] at h
  exact List.not_mem_nil h

namespace ModuleGraph

theorem lt_length_of_mem_successors (h : j ∈ (g.condense components).successors.getD i []) :
    j < components.length := by
  obtain ⟨-, c, -, u, -, v, -, hv⟩ := mem_successors.1 h
  obtain ⟨d, hd, -⟩ := membershipOf_eq_some.1 hv
  exact (List.getElem?_eq_some_iff.1 hd).1

theorem transposed_condense (g : ModuleGraph) (components : List Component) :
    Transposed (g.condense components).successors (g.condense components).predecessors := by
  have hget : ∀ j, (g.condense components).predecessors.getD j [] =
      if j < components.length then predecessorsOf (g.condense components).successors j
      else [] := by
    intro j
    rw [List.getD_eq_getElem?_getD]
    change (((List.range components.length).map _)[j]?).getD [] = _
    rw [List.getElem?_map]
    by_cases hj : j < components.length
    · rw [List.getElem?_range hj, if_pos hj]
      rfl
    · rw [List.getElem?_eq_none (by simpa using hj), if_neg hj]
      rfl
  refine ⟨?_, fun i => ?_, fun j => ?_, fun i j => ?_⟩
  · rw [length_predecessors, length_successors]
  · rw [List.getD_eq_getElem?_getD, successors_getElem?]
    cases components[i]? with
    | none => exact List.nodup_nil
    | some c => exact nodup_distinct _
  · rw [hget]
    split
    · exact (ascending_predecessorsOf _ j).imp fun h => h.ne
    · exact List.nodup_nil
  · rw [hget]
    by_cases hj : j < components.length
    · rw [if_pos hj]
      exact mem_predecessorsOf
    · rw [if_neg hj]
      exact ⟨fun h => absurd h List.not_mem_nil, fun h => absurd (lt_length_of_mem_successors h) hj⟩

namespace Partitioned

variable (h : g.Partitioned components)
include h

theorem position_unique (hc : components[i]? = some c) (hd : components[j]? = some d)
    (hmc : m ∈ c.nodes) (hmd : m ∈ d.nodes) : i = j :=
  position_unique_of_disjoint h.disjoint hc hd hmc hmd

theorem exists_position (hm : m ∈ g.nodes) :
    ∃ (i : Nat) (c : Component), components[i]? = some c ∧ m ∈ c.nodes := by
  obtain ⟨c, hc, hmc⟩ := List.mem_flatMap.1 ((h.cover m).2 hm)
  obtain ⟨i, hi⟩ := List.mem_iff_getElem?.1 hc
  exact ⟨i, c, hi, hmc⟩

theorem mem_successors_of_depends (hc : components[i]? = some c) (hd : components[j]? = some d)
    (hu : u ∈ c.nodes) (hv : v ∈ d.nodes) (hij : j ≠ i) (huv : g.Depends u v) :
    j ∈ (g.condense components).successors.getD i [] := by
  refine mem_successors.2 ⟨hij, c, hc, u, hu, v, huv, ?_⟩
  exact (membershipOf_of_disjoint h.disjoint).2 ⟨d, hd, hv⟩

theorem successor_lt (hj : j ∈ (g.condense components).successors.getD i []) : j < i := by
  obtain ⟨hne, c, hc, u, hu, v, huv, hv⟩ := mem_successors.1 hj
  obtain ⟨d, hd, hvd⟩ := (membershipOf_of_disjoint h.disjoint).1 hv
  exact lt_of_le_of_ne (h.backward i j c d hc hd u hu v hvd (.single huv)) hne

end Partitioned

section Found

variable (hok : g.components = .ok components)
include hok

theorem successor_lt_of_components (hj : j ∈ (g.condense components).successors.getD i []) :
    j < i := by
  obtain ⟨cs, hcs, he, hn, hcover⟩ := g.emitted_components
  obtain rfl := Except.ok.inj (hcs.symm.trans hok)
  obtain ⟨hne, c, hc, u, hu, v, huv, hv⟩ := mem_successors.1 hj
  obtain ⟨d, hd, hvd, -⟩ := membershipOf_eq_some.1 hv
  obtain ⟨group, hgroup, hmem⟩ := componentsOf_getElem? hc
  obtain ⟨group', hgroup', hmem'⟩ := componentsOf_getElem? hd
  have hvn : v ∈ g.nodes :=
    (hcover v).1 (List.mem_flatten.2 ⟨group', List.mem_of_getElem? hgroup', (hmem' v).1 hvd⟩)
  have hlead : Leads g.nodes (fun m => sortIds (g.outgoing m)) u v := ⟨mem_sortIds.2 huv, hvn⟩
  exact lt_of_le_of_ne
    (he.position_le hgroup hgroup' hn ((hmem u).1 hu) ((hmem' v).1 hvd) hlead.reaches) hne

theorem disjoint_of_components : components.Pairwise fun c d => c.nodes.Disjoint d.nodes := by
  obtain ⟨cs, hcs, -, hn, -⟩ := g.emitted_components
  obtain rfl := Except.ok.inj (hcs.symm.trans hok)
  exact disjoint_componentsOf hn

end Found

end ModuleGraph

end DependencyRanking
