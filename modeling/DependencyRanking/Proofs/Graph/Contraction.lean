import DependencyRanking.Proofs.Graph.Condensation

/-!
# Filling both tables of a contraction

The tables of a condensation can be filled together, by going through the components, their modules
and what these depend on, and entering each edge at both of its ends unless it is there. This yields
the tables of the condensation: the row of a position holds what it depends on, and every position
stands, behind the earlier ones, in the rows of what it depends on.
-/
namespace DependencyRanking

variable {g : ModuleGraph} {components : List Component} {c : Component} {m : ModuleId}
variable {rows : List (List Nat)} {js : List Nat} {n i j k : Nat}

structure Contraction where
  successors : List (List Nat)
  predecessors : List (List Nat)

namespace Contraction

def empty (n : Nat) : Contraction := ⟨List.replicate n [], List.replicate n []⟩

def addEdge (t : Contraction) (i j : Nat) : Contraction :=
  if j = i ∨ j ∈ t.successors.getD i [] then t
  else ⟨t.successors.modify i (· ++ [j]), t.predecessors.modify j (· ++ [i])⟩

def addEdges (t : Contraction) (i : Nat) (js : List Nat) : Contraction :=
  js.foldl (fun t j => t.addEdge i j) t

variable {t u : Contraction}

structure Entered (t : Contraction) (i : Nat) (js : List Nat) (u : Contraction) : Prop where
  successors : ∀ k : Nat, u.successors[k]? =
    t.successors[k]?.map fun s => if k = i then distinct (js.filter (· ≠ i)) else s
  predecessors : ∀ k : Nat, u.predecessors[k]? =
    t.predecessors[k]?.map fun p => if k ∈ js ∧ k ≠ i then p ++ [i] else p

theorem Entered.mem_successors (h : Entered t i js u) (hi : i < t.successors.length) :
    j ∈ u.successors.getD i [] ↔ j ∈ js ∧ j ≠ i := by
  rw [List.getD_eq_getElem?_getD, h.successors i, List.getElem?_eq_getElem hi, Option.map_some,
    if_pos rfl, Option.getD_some, mem_distinct, List.mem_filter, decide_eq_true_eq]

theorem Entered.nil (hi : t.successors[i]? = some []) : Entered t i [] t where
  successors k := by
    by_cases hk : k = i
    · subst hk
      rw [hi, Option.map_some, if_pos rfl]
      rfl
    · simp [hk]
  predecessors k := by simp

theorem Entered.snoc (h : Entered t i js u) (hi : i < t.successors.length) (j : Nat) :
    Entered t i (js ++ [j]) (u.addEdge i j) := by
  -- the edge leads back, is there already, or goes to the end of both rows
  have hmem := h.mem_successors hi (j := j)
  have hfilter : distinct ((js ++ [j]).filter (· ≠ i)) =
      if j = i ∨ j ∈ u.successors.getD i [] then distinct (js.filter (· ≠ i))
      else distinct (js.filter (· ≠ i)) ++ [j] := by
    rw [List.filter_append, List.filter_singleton]
    by_cases hji : j = i
    · simp [hji]
    · rw [decide_eq_true hji, cond_true, distinct_concat]
      simp only [List.mem_filter, decide_eq_true_eq, hmem, hji, false_or]
  unfold addEdge
  split
  · rename_i hold
    refine ⟨fun k => ?_, fun k => ?_⟩
    · rw [h.successors k, hfilter, if_pos hold]
    · have hsame : k ∈ js ++ [j] ∧ k ≠ i ↔ k ∈ js ∧ k ≠ i := by
        rw [List.mem_append, List.mem_singleton]
        refine and_congr_left fun hk => or_iff_left_of_imp ?_
        rintro rfl
        exact (hmem.1 (hold.resolve_left hk)).1
      rw [h.predecessors k]
      simp only [hsame]
  · rename_i hnew
    refine ⟨fun k => ?_, fun k => ?_⟩
    · rw [List.getElem?_modify, h.successors k, hfilter, if_neg hnew]
      by_cases hk : k = i
      · subst hk
        simp [Function.comp_def]
      · simp [hk, Ne.symm hk]
    · rw [List.getElem?_modify, h.predecessors k]
      rw [hmem, not_or, not_and] at hnew
      by_cases hk : k = j
      · subst hk
        have hnot : k ∉ js := fun hk => hnew.2 hk hnew.1
        simp [hnot, hnew.1]
      · simp [hk, Ne.symm hk]

theorem entered_addEdges (hi : t.successors[i]? = some []) (js : List Nat) :
    Entered t i js (t.addEdges i js) := by
  induction js using List.reverseRecOn with
  | nil => exact .nil hi
  | append_singleton js j ih =>
    unfold addEdges
    rw [List.foldl_append]
    exact ih.snoc (List.getElem?_eq_some_iff.1 hi).1 j

structure Filled (n : Nat) (rows : List (List Nat)) (t : Contraction) : Prop where
  successors : t.successors = rows ++ List.replicate (n - rows.length) []
  predecessors : t.predecessors = (List.range n).map (predecessorsOf rows)

theorem filled_empty (n : Nat) : Filled n [] (empty n) where
  successors := by simp [empty]
  predecessors := by
    have hnone : predecessorsOf [] = fun _ => [] := rfl
    rw [hnone, List.map_const', List.length_range]
    rfl

end Contraction

theorem predecessorsOf_concat (rows : List (List Nat)) (row : List Nat) (j : Nat) :
    predecessorsOf (rows ++ [row]) j =
      if j ∈ row then predecessorsOf rows j ++ [rows.length] else predecessorsOf rows j := by
  unfold predecessorsOf
  rw [List.zipIdx_append, List.filter_append, List.map_append]
  by_cases hj : j ∈ row <;> simp [hj]

namespace Contraction

variable {t : Contraction}

theorem Filled.snoc (h : Filled n rows t) (hn : rows.length < n) (js : List Nat) :
    Filled n (rows ++ [distinct (js.filter (· ≠ rows.length))]) (t.addEdges rows.length js) := by
  have hrest : n - rows.length = n - (rows.length + 1) + 1 := by omega
  have hsucc : t.successors = rows ++ [] :: List.replicate (n - (rows.length + 1)) [] := by
    rw [h.successors, hrest, List.replicate_succ]
  have he : Entered t rows.length js (t.addEdges rows.length js) :=
    entered_addEdges (by simp [hsucc]) js
  refine ⟨List.ext_getElem? fun k => ?_, List.ext_getElem? fun k => ?_⟩
  · rw [he.successors k, hsucc, List.length_append, List.length_singleton, List.append_assoc,
      List.singleton_append]
    rcases Nat.lt_trichotomy k rows.length with hk | rfl | hk
    · rw [List.getElem?_append_left hk, List.getElem?_append_left hk]
      simp [hk.ne]
    · simp
    · rw [List.getElem?_append_right hk.le, List.getElem?_append_right hk.le]
      obtain ⟨l, hl⟩ := Nat.exists_eq_add_of_lt (Nat.sub_pos_of_lt hk)
      rw [hl, List.getElem?_cons_succ, List.getElem?_cons_succ]
      simp [hk.ne']
  · rw [he.predecessors k, h.predecessors, List.getElem?_map, List.getElem?_map, Option.map_map]
    rcases Nat.lt_or_ge k n with hk | hk
    · simp [List.getElem?_range hk, predecessorsOf_concat]
    · simp [hk]

end Contraction

namespace ModuleGraph

def targetsOf (g : ModuleGraph) (components : List Component) (c : Component) : List Nat :=
  (c.nodes.flatMap g.outgoing).filterMap (membershipOf components).get?

/-- Goes through the components in front and what they depend on, and enters every edge. -/
def fill (g : ModuleGraph) (components front : List Component) : Contraction :=
  front.zipIdx.foldl (fun t c => t.addEdges c.2 (g.targetsOf components c.1))
    (Contraction.empty components.length)

theorem filled_fill (g : ModuleGraph) (components : List Component) {front : List Component}
    (hf : front.length ≤ components.length) :
    Contraction.Filled components.length
      (front.zipIdx.map fun c => successorsOf g (membershipOf components) c.1 c.2)
      (g.fill components front) := by
  induction front using List.reverseRecOn with
  | nil => exact Contraction.filled_empty components.length
  | append_singleton front c ih =>
    have hlt : front.length < components.length := by
      rw [List.length_append, List.length_singleton] at hf
      exact hf
    have hrows : (front.zipIdx.map fun c =>
        successorsOf g (membershipOf components) c.1 c.2).length = front.length := by simp
    have h := (ih hlt.le).snoc (hrows ▸ hlt) (g.targetsOf components c)
    rw [hrows] at h
    unfold fill
    rw [List.zipIdx_append, Nat.zero_add, List.map_append, List.foldl_append]
    exact h

theorem fill_eq (g : ModuleGraph) (components : List Component) :
    g.fill components components =
      ⟨(g.condense components).successors, (g.condense components).predecessors⟩ := by
  have h := filled_fill g components (Nat.le_refl components.length)
  have hsucc := h.successors
  rw [List.length_map, List.length_zipIdx, Nat.sub_self, List.replicate_zero,
    List.append_nil] at hsucc
  exact congrArg₂ Contraction.mk hsucc h.predecessors

/-- A condensation of disjoint components that holds every module of theirs, and exactly the
dependencies that lead from one of them to another. -/
structure Contracts (g : ModuleGraph) (components : List Component) (c : Condensation) : Prop
    extends Transposed c.successors c.predecessors where
  components_eq : c.components = components
  length_successors : c.successors.length = components.length
  membership : ∀ m i, c.membership.get? m = some i ↔ ∃ d, components[i]? = some d ∧ m ∈ d.nodes
  mem_keys : ∀ m, m ∈ c.membership.keys ↔ ∃ d ∈ components, m ∈ d.nodes
  mem_successors : ∀ i j, j ∈ c.successors.getD i [] ↔ i ≠ j ∧ ∃ d e, components[i]? = some d ∧
    components[j]? = some e ∧ ∃ u ∈ d.nodes, ∃ v ∈ e.nodes, g.Depends u v

theorem contracts_condense (h : components.Pairwise fun c d => c.nodes.Disjoint d.nodes) :
    g.Contracts components (g.condense components) where
  toTransposed := g.transposed_condense components
  components_eq := rfl
  length_successors := g.length_successors components
  membership m i := membershipOf_of_disjoint h
  mem_keys m := by
    rw [← Table.contains_iff]
    change ((membershipOf components).get? m).isSome ↔ _
    rw [Option.isSome_iff_exists]
    simp only [membershipOf_of_disjoint h, List.mem_iff_getElem?]
    constructor
    · rintro ⟨i, d, hd, hm⟩
      exact ⟨d, ⟨i, hd⟩, hm⟩
    · rintro ⟨d, ⟨i, hd⟩, hm⟩
      exact ⟨i, d, hd, hm⟩
  mem_successors i j := by
    rw [ModuleGraph.mem_successors, ne_comm]
    simp only [membershipOf_of_disjoint h]
    refine and_congr_right fun _ => ⟨?_, ?_⟩
    · rintro ⟨d, hd, u, hu, v, huv, e, he, hv⟩
      exact ⟨d, e, hd, he, u, hu, v, hv, huv⟩
    · rintro ⟨d, e, hd, he, u, hu, v, hv, huv⟩
      exact ⟨d, hd, u, hu, v, huv, e, he, hv⟩

theorem not_transGen_of_lt {table : List (List Nat)} (h : ∀ i j, j ∈ table.getD i [] → j < i)
    (i : Nat) : ¬ Relation.TransGen (fun i j => j ∈ table.getD i []) i i := by
  have hlt : ∀ j, Relation.TransGen (fun i j => j ∈ table.getD i []) i j → j < i := by
    intro j hij
    induction hij with
    | single hj => exact h i _ hj
    | tail _ hj ih => exact (h _ _ hj).trans ih
  exact fun hi => Nat.lt_irrefl i (hlt i hi)

/-- Contraction keeps exactly the dependencies between different components, in two tables that hold
the same edges, each once, and that are filled in one pass. The components of a graph contract to a
graph without cycles, as every edge leads to a smaller position. -/
theorem condense_faithful (g : ModuleGraph) :
    (∀ components : List Component, g.fill components components =
      ⟨(g.condense components).successors, (g.condense components).predecessors⟩) ∧
    (∀ components : List Component, (components.Pairwise fun c d => c.nodes.Disjoint d.nodes) →
      g.Contracts components (g.condense components)) ∧
    ∃ components, g.components = .ok components ∧
      (components.Pairwise fun c d => c.nodes.Disjoint d.nodes) ∧
      (∀ i j, j ∈ (g.condense components).successors.getD i [] → j < i) ∧
      ∀ i, ¬ Relation.TransGen
        (fun i j => j ∈ (g.condense components).successors.getD i []) i i := by
  refine ⟨g.fill_eq, fun components h => contracts_condense h, ?_⟩
  obtain ⟨cs, hok, -⟩ := g.emitted_components
  have hlt : ∀ i j, j ∈ (g.condense (g.componentsOf cs)).successors.getD i [] → j < i :=
    fun i j hj => successor_lt_of_components hok hj
  exact ⟨g.componentsOf cs, hok, disjoint_of_components hok, hlt, not_transGen_of_lt hlt⟩

theorem condense_faithful_partial :
    let g := ofEdges [("app", "core"), ("app", "util"), ("core", "util"), ("util", "app"),
      ("util", "log")] []
    let components : List Component := [⟨["app", "core"], 1, by decide⟩,
      ⟨["util"], 0, by decide⟩, ⟨["lost"], 0, by decide⟩, ⟨[], 0, .nil⟩]
    (components.Pairwise fun c d => c.nodes.Disjoint d.nodes) ∧
      g.Contracts components (g.condense components) ∧
      (g.condense components).successors = [[1], [0], [], []] := by
  intro g components
  have h : components.Pairwise fun c d => c.nodes.Disjoint d.nodes := by
    simp [components, List.disjoint_left]
  exact ⟨h, (condense_faithful g).2.1 components h, by decide +kernel⟩

end ModuleGraph

end DependencyRanking
