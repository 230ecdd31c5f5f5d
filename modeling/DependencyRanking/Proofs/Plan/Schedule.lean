import DependencyRanking.Plan
import DependencyRanking.Proofs.Graph.Schedule

/-!
# The groups of a plan, in their order

Every level is cut into the positions on no cycle and the cycles, one by one. Nothing is lost by
that, and what a group depends on stands in earlier groups.
-/
namespace DependencyRanking

variable {successors : List (List Nat)} {placed group level : List Nat}
variable {levels : List (List Nat)} {a b i j k l : Nat}

namespace Plan.Setting

variable {ν : Type} (s : Setting ν)

theorem perm_groups (level : List Nat) : (s.groups level).flatten.Perm level := by
  have hs : ((level.filter s.isCycleAt).map ([·])).flatten = level.filter s.isCycleAt := by
    induction level.filter s.isCycleAt with
    | nil => rfl
    | cons i rest ih => simp [ih]
  have hf : (if (level.filter fun i => !s.isCycleAt i).isEmpty then []
      else [level.filter fun i => !s.isCycleAt i]).flatten =
        level.filter fun i => !s.isCycleAt i := by
    cases level.filter fun i => !s.isCycleAt i with
    | nil => rfl
    | cons i rest => simp
  unfold groups
  rw [List.flatten_append, hs, hf]
  exact List.perm_append_comm.trans (List.filter_append_perm s.isCycleAt level)

theorem mem_groups (h : group ∈ s.groups level) :
    group ≠ [] ∧ ((∀ i ∈ group, s.isCycleAt i = false) ∨
      ∃ i, group = [i] ∧ s.isCycleAt i = true) := by
  unfold groups at h
  rcases List.mem_append.1 h with h | h
  · split at h
    · exact absurd h List.not_mem_nil
    · rename_i hne
      obtain rfl := List.mem_singleton.1 h
      refine ⟨by simpa using hne, .inl fun i hi => ?_⟩
      simpa using (List.mem_filter.1 hi).2
  · obtain ⟨i, hi, rfl⟩ := List.mem_map.1 h
    exact ⟨List.cons_ne_nil i [], .inr ⟨i, rfl, (List.mem_filter.1 hi).2⟩⟩

theorem mem_flatMap_groups (h : group ∈ levels.flatMap s.groups) :
    group ≠ [] ∧ ((∀ i ∈ group, s.isCycleAt i = false) ∨
      ∃ i, group = [i] ∧ s.isCycleAt i = true) := by
  obtain ⟨level, -, hg⟩ := List.mem_flatMap.1 h
  exact s.mem_groups hg

theorem perm_flatMap_groups (levels : List (List Nat)) :
    (levels.flatMap s.groups).flatten.Perm levels.flatten := by
  induction levels with
  | nil => exact List.Perm.refl []
  | cons level rest ih =>
    rw [List.flatMap_cons, List.flatten_append, List.flatten_cons]
    exact (s.perm_groups level).append ih

theorem scheduled_groups (h : Levelled successors placed levels) :
    Scheduled successors placed (levels.flatMap s.groups) := by
  induction h with
  | nil stuck => trivial
  | @cons placed level levels nonempty ascending ready rest ih =>
    rw [List.flatMap_cons, Scheduled.append_iff]
    have hmem : ∀ i, i ∈ (s.groups level).flatten ↔ i ∈ level := fun i =>
      (s.perm_groups level).mem_iff
    refine ⟨Scheduled.of_placed fun group hg i hi => ?_, ih.mono ?_⟩
    · exact ((ready i).1 ((hmem i).1 (List.mem_flatten.2 ⟨group, hg, hi⟩))).2.2
    · refine List.append_subset.2 ⟨List.subset_append_left _ _, fun i hi => ?_⟩
      exact List.mem_append_right _ ((hmem i).2 hi)

def groupsBefore (levels : List (List Nat)) (a : Nat) : Nat :=
  ((levels.take a).flatMap s.groups).length

theorem groupsBefore_succ (hl : levels[i]? = some level) :
    s.groupsBefore levels (i + 1) = s.groupsBefore levels i + (s.groups level).length := by
  unfold groupsBefore
  obtain ⟨hi, rfl⟩ := List.getElem?_eq_some_iff.1 hl
  rw [List.take_succ_eq_append_getElem hi, List.flatMap_append, List.length_append,
    List.flatMap_singleton]

theorem groupsBefore_mono (levels : List (List Nat)) (h : i ≤ j) :
    s.groupsBefore levels i ≤ s.groupsBefore levels j := by
  unfold groupsBefore
  have hp : levels.take i <+: levels.take j := List.take_prefix_take_left h
  obtain ⟨rest, hrest⟩ := hp
  rw [← hrest, List.flatMap_append, List.length_append]
  exact Nat.le_add_right _ _

theorem exists_group_of_level (hn : levels.flatten.Nodup) (hi : PlacedAt levels i a)
    (hk : PlacedAt (levels.flatMap s.groups) i k) : ∃ level l, levels[a]? = some level ∧
      PlacedAt (s.groups level) i l ∧ k = s.groupsBefore levels a + l := by
  obtain ⟨b, level, l, hb, hl, rfl⟩ := PlacedAt.flatMap_iff.1 hk
  have hib : PlacedAt levels i b :=
    ⟨level, hb, (s.perm_groups level).mem_iff.1 (PlacedAt.exists_iff.1 ⟨l, hl⟩)⟩
  obtain rfl := hi.unique hn hib
  exact ⟨level, l, hb, hl, rfl⟩

theorem lt_of_level_lt (hn : levels.flatten.Nodup) (hi : PlacedAt levels i a)
    (hj : PlacedAt levels j b) (hab : a < b) (hk : PlacedAt (levels.flatMap s.groups) i k)
    (hl : PlacedAt (levels.flatMap s.groups) j l) : k < l := by
  obtain ⟨level, m, ha, hm, rfl⟩ := s.exists_group_of_level hn hi hk
  obtain ⟨-, n, -, -, rfl⟩ := s.exists_group_of_level hn hj hl
  have hmono : s.groupsBefore levels (a + 1) ≤ s.groupsBefore levels b :=
    s.groupsBefore_mono levels hab
  have hnext := s.groupsBefore_succ ha
  have hlt := hm.lt_length
  omega

theorem eq_zero_of_acyclic (h : PlacedAt (s.groups level) i k) (hi : s.isCycleAt i = false) :
    k = 0 := by
  unfold groups at h
  rcases PlacedAt.append_iff.1 h with h | ⟨l, -, group, hl, hg⟩
  · have hlt := h.lt_length
    split at hlt
    · exact absurd hlt (Nat.not_lt_zero k)
    · exact Nat.lt_one_iff.1 hlt
  · obtain ⟨j, hj, rfl⟩ := List.mem_map.1 (List.mem_of_getElem? hl)
    obtain rfl := List.mem_singleton.1 hg
    rw [(List.mem_filter.1 hj).2] at hi
    cases hi

theorem pos_of_cycle (h : PlacedAt (s.groups level) i k) (hi : s.isCycleAt i = true)
    (hj : j ∈ level) (hjc : s.isCycleAt j = false) : 0 < k := by
  have hmem : j ∈ level.filter fun i => !s.isCycleAt i := by simp [hj, hjc]
  have hne : (level.filter fun i => !s.isCycleAt i).isEmpty = false := by
    simpa using List.ne_nil_of_mem hmem
  unfold groups at h
  dsimp only at h
  rw [hne, if_neg Bool.false_ne_true] at h
  rcases PlacedAt.append_iff.1 h with ⟨group, hk, hg⟩ | ⟨l, rfl, -⟩
  · obtain rfl := List.mem_singleton.1 (List.mem_of_getElem? hk)
    have hic := (List.mem_filter.1 hg).2
    rw [hi] at hic
    cases hic
  · rw [List.length_singleton]
    omega

theorem groups_of_acyclic (hne : level ≠ []) (h : ∀ i ∈ level, s.isCycleAt i = false) :
    s.groups level = [level] := by
  have hall : (level.filter fun i => !s.isCycleAt i) = level :=
    List.filter_eq_self.2 fun i hi => by rw [h i hi]; rfl
  have hnone : level.filter s.isCycleAt = [] :=
    List.filter_eq_nil_iff.2 fun i hi => by rw [h i hi]; exact Bool.false_ne_true
  unfold groups
  dsimp only
  rw [hall, hnone, if_neg (by simpa using hne)]
  rfl

theorem flatMap_groups_of_acyclic (hne : ∀ level ∈ levels, level ≠ [])
    (h : ∀ i ∈ levels.flatten, s.isCycleAt i = false) : levels.flatMap s.groups = levels := by
  induction levels with
  | nil => rfl
  | cons level rest ih =>
    rw [List.flatten_cons] at h
    rw [List.flatMap_cons, s.groups_of_acyclic (hne level List.mem_cons_self)
        fun i hi => h i (List.mem_append_left _ hi),
      ih (fun l hl => hne l (List.mem_cons_of_mem _ hl))
        fun i hi => h i (List.mem_append_right _ hi)]
    rfl

end Plan.Setting

end DependencyRanking
