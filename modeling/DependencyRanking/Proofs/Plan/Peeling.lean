import DependencyRanking.Proofs.Graph.Depth
import DependencyRanking.Proofs.Plan.Order
import Mathlib.Data.Fintype.EquivFin
import Mathlib.Order.WellFounded

/-!
# Where peeling ends

Peeling places a position exactly if no cycle can be reached from it, whether it goes round by round
or position by position. Components may be given that overlap, leave modules out or split a cycle;
of the components of a graph every one is placed.
-/
namespace DependencyRanking

open Relation (ReflTransGen TransGen)

variable {successors predecessors groups : List (List Nat)} {i j k : Nat}

def Follows (successors : List (List Nat)) (i j : Nat) : Prop := j ∈ successors.getD i []

def Blocked (successors : List (List Nat)) (i : Nat) : Prop :=
  ∃ j, ReflTransGen (Follows successors) i j ∧ TransGen (Follows successors) j j

section Placed

theorem Scheduled.earlier_of_transGen (h : Scheduled successors [] groups)
    (hi : PlacedAt groups i k) (hij : TransGen (Follows successors) i j) :
    ∃ l < k, PlacedAt groups j l := by
  induction hij with
  | single hj => exact (h.earlier hi hj).resolve_left List.not_mem_nil
  | tail _ hj ih =>
    obtain ⟨l, hlk, hl⟩ := ih
    obtain ⟨n, hnl, hn⟩ := (h.earlier hl hj).resolve_left List.not_mem_nil
    exact ⟨n, hnl.trans hlk, hn⟩

theorem Peeled.not_blocked (h : Peeled successors [] groups) (hi : i ∈ groups.flatten) :
    ¬ Blocked successors i := by
  rintro ⟨j, hij, hjj⟩
  obtain ⟨k, hk⟩ := PlacedAt.exists_iff.2 hi
  obtain ⟨l, hl⟩ : ∃ l, PlacedAt groups j l := by
    rcases Relation.reflTransGen_iff_eq_or_transGen.1 hij with rfl | hij
    · exact ⟨k, hk⟩
    · obtain ⟨l, -, hl⟩ := h.scheduled.earlier_of_transGen hk hij
      exact ⟨l, hl⟩
  obtain ⟨n, hnl, hn⟩ := h.scheduled.earlier_of_transGen hl hjj
  exact hnl.ne (hn.unique h.nodup_flatten hl)

theorem wellFounded_of_not_blocked (hi : ¬ Blocked successors i) :
    WellFounded fun a b : Fin successors.length =>
      ReflTransGen (Follows successors) i b ∧ Follows successors b a := by
  generalize hr : (fun a b : Fin successors.length =>
    ReflTransGen (Follows successors) i b ∧ Follows successors b a) = r
  have hpath : ∀ a b, TransGen r a b →
      ReflTransGen (Follows successors) i b ∧ TransGen (Follows successors) b a := by
    intro a b hab
    subst hr
    induction hab with
    | single hb => exact ⟨hb.1, .single hb.2⟩
    | tail _ hc ih => exact ⟨hc.1, .head hc.2 ih.2⟩
  have : Std.Irrefl (TransGen r) := ⟨fun a haa => hi ⟨a, hpath a a haa⟩⟩
  exact Subrelation.wf (fun hab => .single hab)
    (Finite.wellFounded_of_trans_of_irrefl (TransGen r))

theorem Peeled.mem_of_not_blocked (h : Peeled successors [] groups)
    (ht : Transposed successors predecessors) (hi : i < successors.length)
    (hb : ¬ Blocked successors i) : i ∈ groups.flatten := by
  -- a position that is left over leads on to another one, and so to a cycle among them
  have hall : ∀ a : Fin successors.length, ReflTransGen (Follows successors) i a →
      (a : Nat) ∈ groups.flatten := by
    intro a
    induction a using (wellFounded_of_not_blocked hb).induction with
    | _ a ih =>
      intro hia
      by_contra ha
      obtain ⟨j, hj, hleft⟩ := h.exists_blocking a.isLt (by simpa using ha)
      have hlt : j < successors.length := by
        rw [← ht.length_eq]
        exact lt_length_of_mem_getD ((ht.mem_iff a j).2 hj)
      exact hleft (by simpa using ih ⟨j, hlt⟩ ⟨hia, hj⟩ (hia.tail hj))
  exact hall ⟨i, hi⟩ .refl

theorem Peeled.mem_flatten_iff (h : Peeled successors [] groups)
    (ht : Transposed successors predecessors) :
    i ∈ groups.flatten ↔ i < successors.length ∧ ¬ Blocked successors i :=
  ⟨fun hi => ⟨h.lt_length i hi, h.not_blocked hi⟩, fun hi => h.mem_of_not_blocked ht hi.1 hi.2⟩

end Placed

/-- Levels that hold, once each, the positions that reach no cycle: ascending, and each in the level
whose number is the length of the longest chain from it. -/
structure PeelsOff (c : Condensation) (levels : List (List Nat)) : Prop where
  mem_iff : ∀ i, i ∈ levels.flatten ↔ i < c.components.length ∧ ¬ Blocked c.successors i
  nodup : levels.flatten.Nodup
  longest : ∀ i k, PlacedAt levels i k → IsGreatest {n | Descent c.successors i n} k
  ascending : ∀ level ∈ levels, level.Pairwise (· < ·)

theorem Levelled.ascending_of_mem {placed : List Nat} (h : Levelled successors placed groups) :
    ∀ level ∈ groups, level.Pairwise (· < ·) := by
  induction h with
  | nil stuck => exact fun level hl => absurd hl List.not_mem_nil
  | cons nonempty ascending ready rest ih => exact List.forall_mem_cons.2 ⟨ascending, ih⟩

namespace ModuleGraph

variable {g : ModuleGraph} {components : List Component} {levels : List (List Nat)}

theorem peelsOff_of_levelled (h : Levelled (g.condense components).successors [] levels) :
    PeelsOff (g.condense components) levels where
  mem_iff i := by
    rw [h.peeled.mem_flatten_iff (g.transposed_condense components), length_successors]
    rfl
  nodup := h.peeled.nodup_flatten
  longest _ _ hi := h.isGreatest hi
  ascending := h.ascending_of_mem

theorem perm_of_peeled {order : List Nat}
    (hl : Levelled (g.condense components).successors [] levels)
    (ho : Peeled (g.condense components).successors [] (order.map fun i => [i])) :
    order.Perm levels.flatten := by
  have ht := g.transposed_condense components
  have hn := ho.nodup_flatten
  rw [flatten_singles] at hn
  refine (List.perm_ext_iff_of_nodup hn hl.peeled.nodup_flatten).2 fun i => ?_
  rw [hl.peeled.mem_flatten_iff ht, ← ho.mem_flatten_iff ht, flatten_singles]

section Found

theorem exists_components (g : ModuleGraph) :
    ∃ components, g.components = .ok components ∧ ∀ c ∈ components, c.nodes ≠ [] := by
  obtain ⟨cs, hok, he, -⟩ := g.emitted_components
  exact ⟨g.componentsOf cs, hok, fun c hc => ne_nil_of_mem_componentsOf he hc⟩

theorem perm_range_of_levelled (hok : g.components = .ok components)
    (h : Levelled (g.condense components).successors [] levels) :
    levels.flatten.Perm (List.range components.length) := by
  refine (List.perm_ext_iff_of_nodup h.peeled.nodup_flatten List.nodup_range).2 fun i => ?_
  rw [List.mem_range, ← g.length_successors components]
  exact ⟨h.peeled.lt_length i,
    h.peeled.mem_flatten_of_lt fun i j hj => successor_lt_of_components hok hj⟩

end Found

/-- Round by round or one by one, the same components are peeled off a graph: those that reach no
cycle of components, which are all of them if they are the components of the graph. -/
theorem peelings_agree (g : ModuleGraph) :
    (∀ components, ∃ levels, (g.condense components).levels = .ok levels ∧
      PeelsOff (g.condense components) levels ∧
      ((∀ c ∈ components, c.nodes ≠ []) → ∀ rank : ModuleId → Option Number,
        ∃ positions : List Nat, positions.Perm levels.flatten ∧
          g.topologicalOrder components rank =
            .ok (positions.flatMap fun i => ((components[i]?).map Component.nodes).getD []))) ∧
    ∃ components levels, g.components = .ok components ∧ (∀ c ∈ components, c.nodes ≠ []) ∧
      (g.condense components).levels = .ok levels ∧
      levels.flatten.Perm (List.range components.length) := by
  constructor
  · intro components
    obtain ⟨levels, hlevels, hl⟩ := levelsOf_levelled (g.transposed_condense components)
    refine ⟨levels, hlevels, peelsOff_of_levelled hl, fun hne rank => ?_⟩
    obtain ⟨positions, hpositions, ho⟩ := placements_peeled hne g rank
    exact ⟨positions, perm_of_peeled hl ho, Outcome.bind_eq_ok.2 ⟨positions, hpositions, rfl⟩⟩
  · obtain ⟨components, hok, hne⟩ := g.exists_components
    obtain ⟨levels, hlevels, hl⟩ := levelsOf_levelled (g.transposed_condense components)
    exact ⟨components, levels, hok, hne, hlevels, perm_range_of_levelled hok hl⟩

theorem peelings_agree_split :
    let g := ofEdges [("a", "b"), ("b", "a"), ("c", "a"), ("d", "e")] []
    let components : List Component := [⟨["a"], 0, by decide⟩, ⟨["b"], 0, by decide⟩,
      ⟨["a", "c"], 0, by decide⟩, ⟨["d"], 0, by decide⟩]
    ["d"] ∈ components.map Component.nodes ∧ (∀ c ∈ components, c.nodes ≠ []) ∧
      ∃ levels, (g.condense components).levels = .ok levels ∧
        PeelsOff (g.condense components) levels ∧ 3 ∈ levels.flatten ∧ 1 ∉ levels.flatten ∧
        ∃ positions : List Nat, positions.Perm levels.flatten ∧
          g.topologicalOrder components (fun _ => none) =
            .ok (positions.flatMap fun i => ((components[i]?).map Component.nodes).getD []) := by
  intro g components
  have hne : ∀ c ∈ components, c.nodes ≠ [] := by simp [components]
  have hsucc : (g.condense components).successors = [[1], [2], [1], []] := by decide +kernel
  obtain ⟨levels, hlevels, hpeels, horder⟩ := (peelings_agree g).1 components
  refine ⟨by simp [components], hne, levels, hlevels, hpeels, ?_, ?_, horder hne _⟩
  · refine (hpeels.mem_iff 3).2 ⟨by decide, ?_⟩
    have hend : ∀ j, ¬ Follows (g.condense components).successors 3 j := by simp [Follows, hsucc]
    rintro ⟨j, h3j, hjj⟩
    rcases Relation.ReflTransGen.cases_head h3j with rfl | ⟨k, h3k, -⟩
    · obtain ⟨k, h3k, -⟩ := TransGen.head'_iff.1 hjj
      exact hend k h3k
    · exact hend k h3k
  · rw [hpeels.mem_iff]
    refine fun h1 => h1.2 ⟨1, .refl, .tail (.single (b := 2) ?_) ?_⟩
    · simp [Follows, hsucc]
    · simp [Follows, hsucc]

end ModuleGraph

end DependencyRanking
