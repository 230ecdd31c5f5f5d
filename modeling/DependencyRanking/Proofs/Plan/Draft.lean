import DependencyRanking.Proofs.Plan.Schedule

/-!
# Drafting the phases

Every group becomes one phase, in the order of the groups. No phase fails: what a group depends on
stands in earlier phases, and all its modules have metrics.
-/
namespace DependencyRanking.Plan

variable {ν : Type} [Measured ν] {s : Setting ν} {groups : List (List Nat)} {group : List Nat}
variable {d : Draft} {p : Phase} {i j k n : Nat}

namespace Setting

omit [Measured ν] in
theorem isCycleGroup_eq {levels : List (List Nat)} (hg : group ∈ levels.flatMap s.groups)
    (hi : i ∈ group) : s.isCycleGroup group = s.isCycleAt i := by
  match group, hi with
  | [j], hi =>
    obtain rfl := List.mem_singleton.1 hi
    rfl
  | j :: k :: rest, hi =>
    change false = s.isCycleAt i
    rcases (s.mem_flatMap_groups hg).2 with hc | ⟨n, hn, -⟩
    · exact (hc i hi).symm
    · simp at hn

def Rated (s : Setting ν) (group : List Nat) : Prop :=
  s.members group ≠ [] ∧ ∀ m ∈ s.members group, ∃ metrics, s.coupling.get? m = some metrics

omit [Measured ν] in
theorem prerequisites_ok {phaseOf : Table Nat Nat}
    (h : ∀ i ∈ group, ∀ j ∈ s.condensation.successors.getD i [], ∃ n, phaseOf.get? j = some n) :
    ∃ orders, s.prerequisites phaseOf group = .ok orders ∧ orders.Pairwise (· < ·) ∧
      ∀ n, n ∈ orders ↔
        ∃ i ∈ group, ∃ j ∈ s.condensation.successors.getD i [], phaseOf.get? j = some n := by
  refine ⟨(distinct ((group.flatMap fun i => s.condensation.successors.getD i []).map fun j =>
    phaseOf.getD j 0)).mergeSort fun a b => decide (a ≤ b), ?_,
    ascending_mergeSort (nodup_distinct _), fun n => ?_⟩
  · unfold prerequisites
    rw [Outcome.mapM_of_eq_ok (g := fun j => phaseOf.getD j 0)]
    · rfl
    · intro j hj
      obtain ⟨i, hi, hj⟩ := List.mem_flatMap.1 hj
      obtain ⟨n, hn⟩ := h i hi j hj
      simp [Table.getD, hn]
  · rw [List.mem_mergeSort, mem_distinct, List.mem_map]
    constructor
    · rintro ⟨j, hj, rfl⟩
      obtain ⟨i, hi, hj⟩ := List.mem_flatMap.1 hj
      obtain ⟨n, hn⟩ := h i hi j hj
      exact ⟨i, hi, j, hj, by simp [Table.getD, hn]⟩
    · rintro ⟨i, hi, j, hj, hn⟩
      exact ⟨j, List.mem_flatMap.2 ⟨i, hi, hj⟩, by simp [Table.getD, hn]⟩

theorem worstScore_ok (h : s.Rated group) : ∃ score, s.worstScore (s.members group) = .ok score := by
  obtain ⟨hne, hall⟩ := h
  obtain ⟨scores, hs, hl, -⟩ : ∃ scores, (s.members group).mapM (fun m => do
      let metrics ← metricsOf s.coupling m
      pure (Measured.number metrics.riskScore)) = .ok scores ∧
      scores.length = (s.members group).length ∧ ∀ x ∈ scores, True := by
    refine Outcome.mapM_ok fun m hm => ?_
    obtain ⟨metrics, hm⟩ := hall m hm
    refine ⟨Measured.number metrics.riskScore, ?_, trivial⟩
    simp only [metricsOf, hm]
    rfl
  unfold worstScore
  rw [hs]
  cases scores with
  | nil => exact absurd (List.length_eq_zero_iff.1 hl.symm) hne
  | cons x rest => exact ⟨_, rfl⟩

end Setting

structure Filled (s : Setting ν) (groups : List (List Nat)) (k : Nat) (group : List Nat)
    (p : Phase) : Prop where
  order : p.order = k + 1
  modules : p.modules = s.members group
  risk : ∃ score, s.worstScore (s.members group) = .ok score ∧ p.risk = s.riskFor group score
  canParallelize : p.canParallelize = decide (1 < group.length)
  isCycle : p.isCycle = s.isCycleGroup group
  category : p.category = s.categoryOf (s.isCycleGroup group) (s.members group)
  ascending : p.prerequisites.Pairwise (· < ·)
  mem_prerequisites : ∀ n, n ∈ p.prerequisites ↔ ∃ i ∈ group,
    ∃ j ∈ s.condensation.successors.getD i [], ∃ l, PlacedAt groups j l ∧ n = l + 1

theorem Filled.snoc {g : List Nat} (h : Filled s groups k g p)
    (hs : ∀ i ∈ g, ∀ j ∈ s.condensation.successors.getD i [], j ∈ groups.flatten)
    (hn : (groups ++ [group]).flatten.Nodup) : Filled s (groups ++ [group]) k g p where
  __ := h
  mem_prerequisites n := by
    rw [h.mem_prerequisites n]
    refine exists_congr fun i => and_congr_right fun hi => exists_congr fun j =>
      and_congr_right fun hj => exists_congr fun l => and_congr_left fun _ => ?_
    exact (PlacedAt.concat_iff_of_mem hn (hs i hi j hj)).symm

/-- The phases of some groups, together with the cycles and the phase of every position. -/
structure Drafted (s : Setting ν) (groups : List (List Nat)) (d : Draft) : Prop where
  length : d.phases.length = groups.length
  cycles : d.cycles = (d.phases.filter (·.isCycle)).map (·.modules)
  filled : ∀ (k : Nat) (group : List Nat), groups[k]? = some group →
    ∃ p, d.phases[k]? = some p ∧ Filled s groups k group p
  phaseOf : ∀ i n, d.phaseOf.get? i = some n ↔ ∃ k, PlacedAt groups i k ∧ n = k + 1

namespace Drafted

theorem nil (s : Setting ν) : Drafted s [] {} where
  length := rfl
  cycles := rfl
  filled k group h := by cases h
  phaseOf i n := by
    refine ⟨fun h => ?_, fun ⟨k, ⟨group, hk, _⟩, _⟩ => ?_⟩
    · cases h
    · cases hk

variable (h : Drafted s groups d) (hn : (groups ++ [group]).flatten.Nodup)
include h

theorem cycles_snoc (p : Phase) : (if p.isCycle then d.cycles ++ [p.modules] else d.cycles) =
    ((d.phases ++ [p]).filter (·.isCycle)).map (·.modules) := by
  rw [List.filter_append, List.map_append, ← h.cycles]
  cases hp : p.isCycle with
  | false => simp [hp]
  | true => simp [hp]

include hn

theorem addPhase_ok
    (hs : ∀ i ∈ group, ∀ j ∈ s.condensation.successors.getD i [], j ∈ groups.flatten)
    (hr : s.Rated group) : ∃ p, Filled s (groups ++ [group]) groups.length group p ∧
      s.addPhase d group = .ok ⟨d.phases ++ [p],
        if p.isCycle then d.cycles ++ [p.modules] else d.cycles,
        group.foldl (fun t i => t.insert i (groups.length + 1)) d.phaseOf⟩ := by
  obtain ⟨score, hscore⟩ := Setting.worstScore_ok hr
  obtain ⟨orders, horders, hasc, hmem⟩ : ∃ orders, s.prerequisites d.phaseOf group = .ok orders ∧
      orders.Pairwise (· < ·) ∧ ∀ n, n ∈ orders ↔ ∃ i ∈ group,
        ∃ j ∈ s.condensation.successors.getD i [], d.phaseOf.get? j = some n := by
    refine Setting.prerequisites_ok fun i hi j hj => ?_
    obtain ⟨k, hk⟩ := PlacedAt.exists_iff.2 (hs i hi j hj)
    exact ⟨k + 1, (h.phaseOf j (k + 1)).2 ⟨k, hk, rfl⟩⟩
  refine ⟨{ order := groups.length + 1
            modules := s.members group
            risk := s.riskFor group score
            canParallelize := 1 < group.length
            prerequisites := orders
            isCycle := s.isCycleGroup group
            category := s.categoryOf (s.isCycleGroup group) (s.members group) },
    ⟨rfl, rfl, ⟨score, hscore, rfl⟩, rfl, rfl, rfl, hasc, fun n => ?_⟩, ?_⟩
  · rw [hmem n]
    refine exists_congr fun i => and_congr_right fun hi => exists_congr fun j =>
      and_congr_right fun hj => ?_
    rw [h.phaseOf]
    refine exists_congr fun l => and_congr_left fun _ => ?_
    exact (PlacedAt.concat_iff_of_mem hn (hs i hi j hj)).symm
  · unfold Setting.addPhase
    rw [horders, ← h.length]
    change (s.worstScore (s.members group) >>= _) = _
    rw [hscore]
    rfl

theorem phaseOf_snoc (i n : Nat) :
    (group.foldl (fun t i => t.insert i (groups.length + 1)) d.phaseOf).get? i = some n ↔
      ∃ k, PlacedAt (groups ++ [group]) i k ∧ n = k + 1 := by
  have hget : (group.foldl (fun t i => t.insert i (groups.length + 1)) d.phaseOf).get? i =
      if i ∈ group then some (groups.length + 1) else d.phaseOf.get? i := by
    rw [← Table.get?_insertAll_const, Table.insertAll, List.foldl_map]
  rw [hget]
  by_cases hi : i ∈ group
  · have hno : ∀ k, ¬ PlacedAt groups i k := by
      intro k hk
      rw [List.flatten_append, List.flatten_singleton] at hn
      exact (List.nodup_append.1 hn).2.2 i (PlacedAt.exists_iff.1 ⟨k, hk⟩) i hi rfl
    simp [PlacedAt.concat_iff, hno, hi, eq_comm]
  · rw [if_neg hi, h.phaseOf]
    simp [PlacedAt.concat_iff, hi]

theorem snoc (hs : Scheduled s.condensation.successors [] (groups ++ [group]))
    (hr : s.Rated group) :
    ∃ d', s.addPhase d group = .ok d' ∧ Drafted s (groups ++ [group]) d' := by
  obtain ⟨hold, hnew⟩ := Scheduled.concat_iff.1 hs
  obtain ⟨p, hp, hok⟩ := h.addPhase_ok hn hnew hr
  refine ⟨_, hok, by simp [h.length], h.cycles_snoc p, fun k g hg => ?_, h.phaseOf_snoc hn⟩
  rcases Nat.lt_trichotomy k groups.length with hk | rfl | hk
  · rw [List.getElem?_append_left hk] at hg
    obtain ⟨q, hq, hf⟩ := h.filled k g hg
    refine ⟨q, (List.getElem?_append_left (h.length ▸ hk)).trans hq, hf.snoc (fun i hi j hj => ?_) hn⟩
    exact hold.mem_flatten ⟨g, hg, hi⟩ hj
  · rw [List.getElem?_concat_length, Option.some.injEq] at hg
    subst hg
    exact ⟨p, by rw [← h.length]; exact List.getElem?_concat_length, hp⟩
  · rw [List.getElem?_eq_none (by simp; omega)] at hg
    cases hg

end Drafted

theorem drafted_foldlM (hs : Scheduled s.condensation.successors [] groups)
    (hn : groups.flatten.Nodup) (hr : ∀ group ∈ groups, s.Rated group) :
    ∃ d, groups.foldlM s.addPhase {} = .ok d ∧ Drafted s groups d := by
  induction groups using List.reverseRecOn with
  | nil => exact ⟨{}, rfl, Drafted.nil s⟩
  | append_singleton rest group ih =>
    have hrest : rest.flatten.Nodup := by
      rw [List.flatten_append] at hn
      exact (List.nodup_append.1 hn).1
    obtain ⟨d, hok, hd⟩ := ih (Scheduled.concat_iff.1 hs).1 hrest
      fun g hg => hr g (List.mem_append_left _ hg)
    obtain ⟨d', hok', hd'⟩ := hd.snoc hn hs
      (hr group (List.mem_append_right _ (List.mem_singleton_self group)))
    refine ⟨d', ?_, hd'⟩
    rw [Outcome.foldlM_concat, hok]
    exact hok'

end DependencyRanking.Plan
