import DependencyRanking.Proofs.Graph.Level

/-!
# Schedules of positions

A schedule lists groups of positions, each of which depends on earlier groups only. Groups of ready
positions make up one. In a schedule of the components of a graph, paths lead to earlier groups or
stay at their position.
-/
namespace DependencyRanking

variable {successors groups rest : List (List Nat)} {placed placed' group level : List Nat}
variable {levels : List (List Nat)} {i j k l : Nat}

def Scheduled (successors : List (List Nat)) : List Nat → List (List Nat) → Prop
  | _, [] => True
  | placed, group :: rest =>
    (∀ i ∈ group, ∀ j ∈ successors.getD i [], j ∈ placed) ∧
      Scheduled successors (placed ++ group) rest

def PlacedAt (groups : List (List Nat)) (i k : Nat) : Prop :=
  ∃ group, groups[k]? = some group ∧ i ∈ group

namespace PlacedAt

theorem exists_iff : (∃ k, PlacedAt groups i k) ↔ i ∈ groups.flatten := by
  rw [List.mem_flatten]
  constructor
  · rintro ⟨k, group, hk, hi⟩
    exact ⟨group, List.mem_of_getElem? hk, hi⟩
  · rintro ⟨group, hg, hi⟩
    obtain ⟨k, hk⟩ := List.mem_iff_getElem?.1 hg
    exact ⟨k, group, hk, hi⟩

theorem lt_length (h : PlacedAt groups i k) : k < groups.length := by
  obtain ⟨group, hk, -⟩ := h
  exact (List.getElem?_eq_some_iff.1 hk).1

theorem concat_iff (groups : List (List Nat)) (group : List Nat) (i k : Nat) :
    PlacedAt (groups ++ [group]) i k ↔
      PlacedAt groups i k ∨ (k = groups.length ∧ i ∈ group) := by
  unfold PlacedAt
  rcases Nat.lt_trichotomy k groups.length with hk | rfl | hk
  · rw [List.getElem?_append_left hk]
    simp [hk.ne]
  · simp
  · rw [List.getElem?_eq_none (by simp; omega), List.getElem?_eq_none hk.le]
    simp [hk.ne']

theorem append_iff : PlacedAt (groups ++ rest) i k ↔
    PlacedAt groups i k ∨ ∃ l, k = groups.length + l ∧ PlacedAt rest i l := by
  unfold PlacedAt
  rcases Nat.lt_or_ge k groups.length with hk | hk
  · rw [List.getElem?_append_left hk]
    refine (or_iff_left ?_).symm
    rintro ⟨l, rfl, -⟩
    omega
  · obtain ⟨l, rfl⟩ := Nat.exists_eq_add_of_le hk
    rw [List.getElem?_append_right hk, List.getElem?_eq_none hk, Nat.add_sub_cancel_left]
    simp

theorem flatMap_iff {f : List Nat → List (List Nat)} : PlacedAt (levels.flatMap f) i k ↔
    ∃ a level l, levels[a]? = some level ∧ PlacedAt (f level) i l ∧
      k = ((levels.take a).flatMap f).length + l := by
  induction levels generalizing k with
  | nil =>
    refine iff_of_false ?_ ?_
    · rintro ⟨group, hk, -⟩
      cases hk
    · rintro ⟨a, level, l, ha, -⟩
      cases ha
  | cons level levels ih =>
    rw [List.flatMap_cons, append_iff]
    simp only [ih]
    constructor
    · rintro (h | ⟨l, rfl, a, level', n, ha, hn, rfl⟩)
      · exact ⟨0, level, k, rfl, h, by simp⟩
      · refine ⟨a + 1, level', n, ha, hn, ?_⟩
        rw [List.take_succ_cons, List.flatMap_cons, List.length_append, Nat.add_assoc]
    · rintro ⟨a, level', n, ha, hn, rfl⟩
      cases a with
      | zero =>
        cases ha
        exact .inl (by simpa using hn)
      | succ a =>
        refine .inr ⟨_, ?_, a, level', n, ha, hn, rfl⟩
        rw [List.take_succ_cons, List.flatMap_cons, List.length_append, Nat.add_assoc]

theorem concat_iff_of_mem (hn : (groups ++ [group]).flatten.Nodup) (hi : i ∈ groups.flatten) :
    PlacedAt (groups ++ [group]) i k ↔ PlacedAt groups i k := by
  rw [concat_iff]
  refine or_iff_left fun hg => ?_
  rw [List.flatten_append, List.flatten_singleton] at hn
  exact (List.nodup_append.1 hn).2.2 i hi i hg.2 rfl

theorem unique (hn : groups.flatten.Nodup) {k l : Nat} (hk : PlacedAt groups i k)
    (hl : PlacedAt groups i l) : k = l := by
  obtain ⟨group, hg, hi⟩ := hk
  obtain ⟨group', hg', hi'⟩ := hl
  exact position_unique_of_disjoint (f := id) (List.nodup_flatten.1 hn).2 hg hg' hi hi'

end PlacedAt

namespace Scheduled

theorem mono (h : Scheduled successors placed groups) (hs : placed ⊆ placed') :
    Scheduled successors placed' groups := by
  induction groups generalizing placed placed' with
  | nil => trivial
  | cons group rest ih =>
    refine ⟨fun i hi j hj => hs (h.1 i hi j hj), ih h.2 ?_⟩
    exact List.append_subset.2 ⟨fun i hi => List.mem_append_left _ (hs hi),
      fun i hi => List.mem_append_right _ hi⟩

theorem append_iff : Scheduled successors placed (groups ++ rest) ↔
    Scheduled successors placed groups ∧ Scheduled successors (placed ++ groups.flatten) rest := by
  induction groups generalizing placed with
  | nil => simp [Scheduled]
  | cons group groups ih =>
    rw [List.cons_append, Scheduled, Scheduled, ih, List.flatten_cons, List.append_assoc, and_assoc]

theorem concat_iff : Scheduled successors placed (groups ++ [group]) ↔
    Scheduled successors placed groups ∧
      ∀ i ∈ group, ∀ j ∈ successors.getD i [], j ∈ placed ++ groups.flatten := by
  rw [append_iff]
  simp only [Scheduled, and_true]

theorem of_placed (h : ∀ group ∈ groups, ∀ i ∈ group, ∀ j ∈ successors.getD i [], j ∈ placed) :
    Scheduled successors placed groups := by
  induction groups with
  | nil => trivial
  | cons group rest ih =>
    refine ⟨h group List.mem_cons_self, ?_⟩
    refine mono (ih fun g hg => h g (List.mem_cons_of_mem _ hg)) ?_
    exact List.subset_append_left placed group

theorem earlier (h : Scheduled successors placed groups) (hi : PlacedAt groups i k)
    (hj : j ∈ successors.getD i []) : j ∈ placed ∨ ∃ l < k, PlacedAt groups j l := by
  induction groups generalizing placed k with
  | nil =>
    obtain ⟨group, hk, -⟩ := hi
    cases hk
  | cons group rest ih =>
    obtain ⟨g, hk, hig⟩ := hi
    cases k with
    | zero =>
      cases hk
      exact .inl (h.1 i hig j hj)
    | succ k =>
      rcases ih h.2 ⟨g, hk, hig⟩ with hp | ⟨l, hl, g', hg', hjg⟩
      · rcases List.mem_append.1 hp with hp | hp
        · exact .inl hp
        · exact .inr ⟨0, Nat.succ_pos k, group, rfl, hp⟩
      · exact .inr ⟨l + 1, Nat.succ_lt_succ hl, g', hg', hjg⟩

theorem mem_flatten (h : Scheduled successors [] groups) (hi : PlacedAt groups i k)
    (hj : j ∈ successors.getD i []) : j ∈ groups.flatten := by
  rcases h.earlier hi hj with hp | ⟨l, -, hl⟩
  · exact absurd hp List.not_mem_nil
  · exact PlacedAt.exists_iff.1 ⟨l, hl⟩

end Scheduled

theorem Peeled.scheduled (h : Peeled successors placed groups) :
    Scheduled successors placed groups := by
  induction h with
  | nil stuck => trivial
  | cons nodup ready rest ih => exact ⟨fun i hi => (ready i hi).2.2, ih⟩

namespace ModuleGraph.Partitioned

variable {g : ModuleGraph} {components : List Component} {c d : Component} {u v : ModuleId}

theorem position_or_earlier (hp : g.Partitioned components) (hm : g.Mirrored)
    (hs : Scheduled (g.condense components).successors [] groups) (hn : groups.flatten.Nodup)
    (hall : ∀ i < components.length, i ∈ groups.flatten) (hr : g.Reaches u v)
    (hc : components[i]? = some c) (hu : u ∈ c.nodes) (hd : components[j]? = some d)
    (hv : v ∈ d.nodes) (hk : PlacedAt groups i k) (hl : PlacedAt groups j l) : i = j ∨ l < k := by
  induction hr generalizing j d l with
  | refl => exact .inl (hp.position_unique hc hd hu hv)
  | @tail w v hw hwv ih =>
    obtain ⟨n, e, he, hwe⟩ := hp.exists_position (hm.source_mem w v hwv)
    obtain ⟨o, ho⟩ := PlacedAt.exists_iff.2 (hall n (List.getElem?_eq_some_iff.1 he).1)
    have hstep : n = j ∨ l < o := by
      by_cases hnj : j = n
      · exact .inl hnj.symm
      · have hj := hp.mem_successors_of_depends he hd hwe hv hnj hwv
        obtain ⟨l', hl', hlj⟩ := (hs.earlier ho hj).resolve_left List.not_mem_nil
        exact .inr ((hlj.unique hn hl) ▸ hl')
    rcases ih he hwe ho with rfl | hlt
    · rcases hstep with rfl | hlt
      · exact .inl rfl
      · exact .inr ((ho.unique hn hk) ▸ hlt)
    · rcases hstep with rfl | hlt'
      · exact .inr ((hl.unique hn ho) ▸ hlt)
      · exact .inr (hlt'.trans hlt)

end ModuleGraph.Partitioned

end DependencyRanking
