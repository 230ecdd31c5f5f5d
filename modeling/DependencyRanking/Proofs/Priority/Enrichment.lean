import DependencyRanking.Priority
import DependencyRanking.Proofs.Number.Rounding
import DependencyRanking.Proofs.Outcome

/-!
# Enrichment without rounding

Over the rational numbers the boosts are averages rounded to hundredths, and the new priority is what
they leave, down to one, rounded to tenths. Scores and couplings that are not negative pull a change
forward; only the last rounding can put it back behind its priority, by half a tenth at most.
-/
namespace DependencyRanking

def Touches (isModule : ModuleId → Bool) (paths : List String) : Prop :=
  ∃ path ∈ paths, moduleOfPath isModule path ≠ none

/-- An enrichment that pulls a priority forward as far as tenths can tell. -/
structure PulledForward (priority : ℚ) (touches : Prop) (e : Enrichment ℚ) : Prop where
  rankBoost_nonpos : e.rankBoost ≤ 0
  couplingBoost_nonpos : e.couplingBoost ≤ 0
  one_le : 1 ≤ e.priority
  eq_of_untouched : ¬ touches → e.priority = priority
  le_rounded : touches → e.priority ≤ Scalar.roundPlaces 1 priority
  le_of_tenths : ∀ k : ℤ, priority * 10 = k → e.priority ≤ priority
  le_of_boosts : e.rankBoost + e.couplingBoost ≤ -(1 / 20) → e.priority ≤ priority

def averageBoost (total : ℚ) (count : ℕ) (weight : ℚ) : ℚ :=
  -Scalar.roundPlaces 2 (total / count * weight)

section Tables

variable {α : Type} [Scalar α]

theorem touchedModules_eq_nil_iff {isModule : ModuleId → Bool} {paths : List String} :
    touchedModules isModule paths = [] ↔ ¬ Touches isModule paths := by
  unfold touchedModules Touches
  rw [List.filterMap_eq_nil_iff]
  push Not
  rfl

theorem enrichRanked_eq (priority : α) (paths : List String) (ranks : Table ModuleId α)
    (afferents : Table ModuleId ℤ) :
    enrichRanked priority paths ranks afferents =
      if touchedModules ranks.contains paths = [] then ⟨priority, 0, 0⟩
      else enrich priority ((touchedModules ranks.contains paths).map (touch ranks afferents)) := by
  unfold enrichRanked
  cases touchedModules ranks.contains paths with
  | nil => rfl
  | cons m ms => rfl

end Tables

section Doubles

variable {priority : Float} {paths : List String} {ranks : Table ModuleId Float}
variable {afferents : Table ModuleId ℤ}

theorem mapM_touch (modules : List ModuleId) :
    (modules.mapM fun m => do
      let share ← PriorityChange.shareOf
        ((ranks.mapValues fun _ => Number.float).getD m (.float 0.0)) (max ranks.size 1)
      pure (Touched.mk share (afferents.getD m 0))) = .ok (modules.map (touch ranks afferents)) := by
  refine Outcome.mapM_of_eq_ok fun m _ => ?_
  have hrank : (ranks.mapValues fun _ => Number.float).getD m (.float 0.0) =
      .float (ranks.getD m 0) :=
    Table.getD_mapValues (fun _ => Number.float) ranks m 0.0
  rw [hrank]
  rfl

/-- For numbers that are doubles the priority that is given out is the one reckoned in doubles,
unless the average coupling is beyond all doubles. -/
theorem enrichGiven_eq (h : (Scalar.ratio
      (totalAfferent ((touchedModules ranks.contains paths).map (touch ranks afferents)))
      (touchedModules ranks.contains paths).length : Float).isFinite = true) :
    PriorityChange.enrichGiven (.float priority) paths (ranks.mapValues fun _ => .float) afferents =
      .ok ⟨.float (enrichRanked priority paths ranks afferents).priority,
        (enrichRanked priority paths ranks afferents).rankBoost,
        (enrichRanked priority paths ranks afferents).couplingBoost,
        reasonRanked Double.text priority paths ranks afferents⟩ := by
  unfold PriorityChange.enrichGiven reasonRanked
  rw [Table.contains_mapValues, Table.size_mapValues, enrichRanked_eq]
  split
  · rename_i hempty
    rw [List.isEmpty_iff.1 hempty]
    rfl
  · generalize touchedModules ranks.contains paths = modules at h ⊢
    cases modules with
    | nil => rfl
    | cons m ms =>
      have hbounded : PriorityChange.bounded (Scalar.ratio
          (totalAfferent ((m :: ms).map (touch ranks afferents)))
          ((m :: ms).map (touch ranks afferents)).length) = .ok _ :=
        if_pos (by rwa [List.length_map])
      dsimp only
      rw [mapM_touch, if_neg (List.cons_ne_nil m ms)]
      refine Outcome.bind_eq_ok.2 ⟨_, rfl, Outcome.bind_eq_ok.2 ⟨_, hbounded, rfl⟩⟩

end Doubles

section Boosts

variable {touched : List (Touched ℚ)} {priority total total' weight : ℚ}

theorem averageBoost_nonpos (count : ℕ) (htotal : 0 ≤ total) (hweight : 0 ≤ weight) :
    averageBoost total count weight ≤ 0 :=
  neg_nonpos.2 (roundPlaces_nonneg 2 (by positivity))

theorem averageBoost_antitone (count : ℕ) (htotal : total ≤ total') (hweight : 0 ≤ weight) :
    averageBoost total' count weight ≤ averageBoost total count weight := by
  refine neg_le_neg (roundPlaces_mono 2 ?_)
  gcongr

theorem rankBoost_eq (touched : List (Touched ℚ)) :
    rankBoost touched = averageBoost (touched.map Touched.share).sum touched.length 5 := by
  have h : rankBoost touched = averageBoost (totalShare touched) touched.length 5.0 := rfl
  have htotal : totalShare touched = (touched.map Touched.share).sum := List.sum_eq_foldl.symm
  rw [h, htotal, show (5.0 : ℚ) = 5 by norm_num]

theorem couplingBoost_eq (touched : List (Touched ℚ)) :
    couplingBoost touched =
      averageBoost (touched.map Touched.afferent).sum touched.length (3 / 10) := by
  have h : couplingBoost touched =
      averageBoost (totalAfferent touched : ℤ) touched.length 0.3 := rfl
  have htotal : totalAfferent touched = (touched.map Touched.afferent).sum :=
    List.sum_eq_foldl.symm
  rw [h, htotal, show (0.3 : ℚ) = 3 / 10 by norm_num]

theorem priority_enrich (priority : ℚ) (touched : List (Touched ℚ)) :
    (enrich priority touched).priority =
      Scalar.roundPlaces 1 (max 1 (priority + rankBoost touched + couplingBoost touched)) := by
  have h : (enrich priority touched).priority = Scalar.roundPlaces 1
      (if 1 < priority + rankBoost touched + couplingBoost touched then
        priority + rankBoost touched + couplingBoost touched else 1) := rfl
  rw [h]
  congr 1
  split
  · rename_i hlt
    exact (max_eq_right hlt.le).symm
  · rename_i hle
    exact (max_eq_left (not_lt.1 hle)).symm

theorem rankBoost_nonpos (h : ∀ t ∈ touched, 0 ≤ t.share) : rankBoost touched ≤ 0 := by
  have hsum : 0 ≤ (touched.map Touched.share).sum := List.sum_nonneg (by simpa using h)
  rw [rankBoost_eq]
  exact averageBoost_nonpos _ hsum (by norm_num)

theorem couplingBoost_nonpos (h : ∀ t ∈ touched, 0 ≤ t.afferent) : couplingBoost touched ≤ 0 := by
  have hsum : 0 ≤ (touched.map Touched.afferent).sum := List.sum_nonneg (by simpa using h)
  rw [couplingBoost_eq]
  exact averageBoost_nonpos _ (Int.cast_nonneg hsum) (by norm_num)

end Boosts

section Priorities

variable {touched : List (Touched ℚ)} {priority : ℚ}

theorem roundPlaces_one (places : ℕ) : Scalar.roundPlaces places (1 : ℚ) = 1 := by
  simpa using roundPlaces_natCast places 1

theorem one_le_priority_enrich (priority : ℚ) (touched : List (Touched ℚ)) :
    1 ≤ (enrich priority touched).priority := by
  rw [priority_enrich]
  exact (roundPlaces_one 1).ge.trans (roundPlaces_mono 1 (le_max_left 1 _))

theorem priority_enrich_le_rounded (hp : 1 ≤ priority)
    (hboosts : rankBoost touched + couplingBoost touched ≤ 0) :
    (enrich priority touched).priority ≤ Scalar.roundPlaces 1 priority := by
  rw [priority_enrich, add_assoc]
  exact roundPlaces_mono 1 (max_le hp (add_le_of_nonpos_right hboosts))

theorem priority_enrich_le (hp : 1 ≤ priority)
    (hboosts : rankBoost touched + couplingBoost touched ≤ -(1 / 20)) :
    (enrich priority touched).priority ≤ priority := by
  rw [priority_enrich, add_assoc]
  rcases le_total (priority + (rankBoost touched + couplingBoost touched)) 1 with hlow | hhigh
  · rw [max_eq_left hlow, roundPlaces_one]
    exact hp
  · rw [max_eq_right hhigh]
    have hround := roundPlaces_le 1 (priority + (rankBoost touched + couplingBoost touched))
    linarith

end Priorities

section Ranked

variable {priority : ℚ} {paths : List String} {ranks : Table ModuleId ℚ}
variable {afferents : Table ModuleId ℤ}

theorem getD_nonneg {ν : Type} [Zero ν] [Preorder ν] {t : Table ModuleId ν}
    (h : ∀ x ∈ t.values, 0 ≤ x) (m : ModuleId) : 0 ≤ t.getD m 0 := by
  unfold Table.getD
  cases hm : t.get? m with
  | none => exact le_refl 0
  | some x => exact h x (Table.mem_values_of_get? hm)

/-- Scores and couplings that are not negative pull a change of some priority forward, unless it
touches no module: the boosts are not positive, and the new priority is at least one and at most the
old one in tenths. -/
theorem enrichRanked_pulledForward (hp : 1 ≤ priority) (hranks : ∀ x ∈ ranks.values, 0 ≤ x)
    (hafferents : ∀ a ∈ afferents.values, 0 ≤ a) :
    PulledForward priority (Touches ranks.contains paths)
      (enrichRanked priority paths ranks afferents) := by
  rw [enrichRanked_eq]
  split
  · rename_i hnone
    rw [touchedModules_eq_nil_iff] at hnone
    exact ⟨le_refl 0, le_refl 0, hp, fun _ => rfl, fun htouches => absurd htouches hnone,
      fun _ _ => le_refl priority, fun _ => le_refl priority⟩
  · rename_i hsome
    rw [touchedModules_eq_nil_iff, not_not] at hsome
    generalize touchedModules ranks.contains paths = modules
    have hshare : ∀ t ∈ modules.map (touch ranks afferents), 0 ≤ t.share := by
      intro t ht
      obtain ⟨m, -, rfl⟩ := List.mem_map.1 ht
      exact div_nonneg (getD_nonneg hranks m) (Nat.cast_nonneg _)
    have hafferent : ∀ t ∈ modules.map (touch ranks afferents), 0 ≤ t.afferent := by
      intro t ht
      obtain ⟨m, -, rfl⟩ := List.mem_map.1 ht
      exact getD_nonneg hafferents m
    have hrank := rankBoost_nonpos hshare
    have hcoupling := couplingBoost_nonpos hafferent
    have hle := priority_enrich_le_rounded hp (add_nonpos hrank hcoupling)
    refine ⟨hrank, hcoupling, one_le_priority_enrich _ _, fun hnone => absurd hsome hnone,
      fun _ => hle, fun k hk => ?_, priority_enrich_le hp⟩
    exact hle.trans_eq (roundPlaces_of_mul_eq (by rwa [pow_one]))

theorem enrichRanked_pulledForward_central :
    let ranks : Table ModuleId ℚ := Table.ofPairs [("core", 3), ("util", 1), ("app", 1)]
    let afferents : Table ModuleId ℤ := Table.ofPairs [("core", 5), ("util", 0), ("app", 0)]
    let e := enrichRanked (253 / 25 : ℚ) ["core", "notes"] ranks afferents
    (1 : ℚ) ≤ 253 / 25 ∧ (∀ x ∈ ranks.values, 0 ≤ x) ∧ (∀ a ∈ afferents.values, 0 ≤ a) ∧
      PulledForward (253 / 25) (Touches ranks.contains ["core", "notes"]) e ∧
      e.rankBoost = -5 ∧ e.couplingBoost = -(3 / 2) ∧ e.priority = 18 / 5 := by
  intro ranks afferents e
  have hpriority : (1 : ℚ) ≤ 253 / 25 := by norm_num
  have hranks : ∀ x ∈ ranks.values, 0 ≤ x := by decide +kernel
  have hafferents : ∀ a ∈ afferents.values, 0 ≤ a := by decide
  exact ⟨hpriority, hranks, hafferents, enrichRanked_pulledForward hpriority hranks hafferents,
    by decide +kernel, by decide +kernel, by decide +kernel⟩

/-- A small boost does not make up for the last rounding: the change falls behind its priority. -/
theorem lt_priority_enrichRanked :
    let ranks : Table ModuleId ℚ := Table.ofPairs [("a", 1 / 500)]
    let afferents : Table ModuleId ℤ := Table.ofPairs [("a", 0)]
    let e := enrichRanked (127 / 100 : ℚ) ["a"] ranks afferents
    (1 : ℚ) ≤ 127 / 100 ∧ (∀ x ∈ ranks.values, 0 ≤ x) ∧ (∀ a ∈ afferents.values, 0 ≤ a) ∧
      e.rankBoost = -(1 / 100) ∧ e.couplingBoost = 0 ∧ e.priority = 13 / 10 ∧
      ¬ e.priority ≤ 127 / 100 := by
  decide +kernel

end Ranked

end DependencyRanking
