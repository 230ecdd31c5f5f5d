import DependencyRanking.Proofs.Priority.Enrichment

/-!
# The order of enriched priorities

Which modules a change touches depends on its paths and on the keys of the scores alone. So with the
same keys the averages rise with the scores and the couplings, the boosts and the new priority fall,
and every rounding keeps the order.
-/
namespace DependencyRanking

/-- The same keys in whatever order, with values that are at least as great. -/
structure Raised {ν : Type} [LE ν] (t t' : Table ModuleId ν) : Prop where
  keys : t.keys.Perm t'.keys
  le : ∀ m x x', t.get? m = some x → t'.get? m = some x' → x ≤ x'

namespace Raised

variable {ν : Type} [Preorder ν] {t t' : Table ModuleId ν}

theorem mapValues {f : ModuleId → ν → ν} (t : Table ModuleId ν) (hf : ∀ m x, x ≤ f m x) :
    Raised t (t.mapValues f) := by
  refine ⟨(Table.keys_mapValues f t).symm ▸ .refl _, fun m x x' hx hx' => ?_⟩
  rw [Table.get?_mapValues, hx, Option.map_some, Option.some_inj] at hx'
  exact hx' ▸ hf m x

variable (h : Raised t t')
include h

theorem contains_eq : t.contains = t'.contains := by
  funext m
  rw [Bool.eq_iff_iff, Table.contains_iff, Table.contains_iff]
  exact h.keys.mem_iff

theorem size_eq : t.size = t'.size := by
  simpa [Table.keys, Table.size] using h.keys.length_eq

theorem getD_le [Zero ν] (m : ModuleId) : t.getD m 0 ≤ t'.getD m 0 := by
  have hsome : (t.get? m).isSome = (t'.get? m).isSome := congrFun h.contains_eq m
  unfold Table.getD
  cases hx : t.get? m with
  | none =>
    rw [hx, Option.isSome_none, eq_comm, Option.isSome_eq_false_iff, Option.isNone_iff_eq_none] at hsome
    rw [hsome]
  | some x =>
    rw [hx, Option.isSome_some, eq_comm, Option.isSome_iff_exists] at hsome
    obtain ⟨x', hx'⟩ := hsome
    rw [hx']
    exact h.le m x x' hx hx'

end Raised

section Averages

variable {modules : List ModuleId} {before after : ModuleId → Touched ℚ} {priority : ℚ}

theorem rankBoost_antitone (h : ∀ m ∈ modules, (before m).share ≤ (after m).share) :
    rankBoost (modules.map after) ≤ rankBoost (modules.map before) := by
  have hsum : ((modules.map before).map Touched.share).sum ≤
      ((modules.map after).map Touched.share).sum := by
    rw [List.map_map, List.map_map]
    exact List.sum_le_sum h
  rw [rankBoost_eq, rankBoost_eq, List.length_map, List.length_map]
  exact averageBoost_antitone _ hsum (by norm_num)

theorem couplingBoost_antitone (h : ∀ m ∈ modules, (before m).afferent ≤ (after m).afferent) :
    couplingBoost (modules.map after) ≤ couplingBoost (modules.map before) := by
  have hsum : ((modules.map before).map Touched.afferent).sum ≤
      ((modules.map after).map Touched.afferent).sum := by
    rw [List.map_map, List.map_map]
    exact List.sum_le_sum h
  rw [couplingBoost_eq, couplingBoost_eq, List.length_map, List.length_map]
  exact averageBoost_antitone _ (Int.cast_le.2 hsum) (by norm_num)

theorem priority_enrich_mono {p q : ℚ} {touched touched' : List (Touched ℚ)} (hpq : p ≤ q)
    (hrank : rankBoost touched ≤ rankBoost touched')
    (hcoupling : couplingBoost touched ≤ couplingBoost touched') :
    (enrich p touched).priority ≤ (enrich q touched').priority := by
  rw [priority_enrich, priority_enrich]
  refine roundPlaces_mono 1 ?_
  gcongr

end Averages

section Ranked

variable {p q : ℚ} {paths : List String} {ranks ranks' : Table ModuleId ℚ}
variable {afferents afferents' : Table ModuleId ℤ}

theorem enrichRanked_mono (paths : List String) (ranks : Table ModuleId ℚ)
    (afferents : Table ModuleId ℤ) (hpq : p ≤ q) :
    (enrichRanked p paths ranks afferents).priority ≤
      (enrichRanked q paths ranks afferents).priority := by
  rw [enrichRanked_eq, enrichRanked_eq]
  split
  · exact hpq
  · exact priority_enrich_mono hpq (le_refl _) (le_refl _)

theorem touch_le (hranks : Raised ranks ranks') (hafferents : Raised afferents afferents')
    (m : ModuleId) : (touch ranks afferents m).share ≤ (touch ranks' afferents' m).share ∧
      (touch ranks afferents m).afferent ≤ (touch ranks' afferents' m).afferent := by
  have hshare : (touch ranks afferents m).share ≤ (touch ranks' afferents' m).share := by
    change ranks.getD m 0 / ((max ranks.size 1 : ℕ) : ℚ) ≤
      ranks'.getD m 0 / ((max ranks'.size 1 : ℕ) : ℚ)
    rw [hranks.size_eq]
    exact div_le_div_of_nonneg_right (hranks.getD_le m) (Nat.cast_nonneg _)
  exact ⟨hshare, hafferents.getD_le m⟩

theorem enrichRanked_antitone (p : ℚ) (paths : List String) (hranks : Raised ranks ranks')
    (hafferents : Raised afferents afferents') :
    (enrichRanked p paths ranks' afferents').priority ≤
      (enrichRanked p paths ranks afferents).priority := by
  rw [enrichRanked_eq, enrichRanked_eq, hranks.contains_eq]
  split
  · exact le_refl p
  · exact priority_enrich_mono (le_refl p)
      (rankBoost_antitone fun m _ => (touch_le hranks hafferents m).1)
      (couplingBoost_antitone fun m _ => (touch_le hranks hafferents m).2)

/-- Enrichment inverts no order: of two priorities of a change the lower one stays the lower one or
becomes equal, and raised scores and couplings of the same modules never put the change back. -/
theorem enrichRanked_ordered (paths : List String) :
    (∀ (p q : ℚ) (ranks : Table ModuleId ℚ) (afferents : Table ModuleId ℤ), p ≤ q →
      (enrichRanked p paths ranks afferents).priority ≤
        (enrichRanked q paths ranks afferents).priority) ∧
    ∀ (p : ℚ) (ranks ranks' : Table ModuleId ℚ) (afferents afferents' : Table ModuleId ℤ),
      Raised ranks ranks' → Raised afferents afferents' →
        (enrichRanked p paths ranks' afferents').priority ≤
          (enrichRanked p paths ranks afferents).priority :=
  ⟨fun _ _ ranks afferents => enrichRanked_mono paths ranks afferents,
    fun p _ _ _ _ => enrichRanked_antitone p paths⟩

theorem enrichRanked_ordered_repeated :
    let paths := ["src/core/a", "core", "notes", "lib//util/"]
    let ranks : Table ModuleId ℚ := Table.ofPairs [("core", 1 / 2), ("util", 1 / 3)]
    let ranks' := ranks.mapValues fun m x => if m = "core" then x + 1 / 6 else x
    let afferents : Table ModuleId ℤ := Table.ofPairs [("core", 1), ("app", -1)]
    let afferents' := afferents.mapValues fun _ a => a + 1
    (9 / 2 : ℚ) ≤ 23 / 5 ∧ Raised ranks ranks' ∧ Raised afferents afferents' ∧
      (enrichRanked (9 / 2) paths ranks afferents).priority ≤
        (enrichRanked (23 / 5) paths ranks afferents).priority ∧
      (enrichRanked (9 / 2) paths ranks' afferents').priority ≤
        (enrichRanked (9 / 2) paths ranks afferents).priority ∧
      touchedModules ranks.contains paths = ["core", "core", "util"] ∧
      (enrichRanked (9 / 2) paths ranks afferents).priority = 16 / 5 ∧
      (enrichRanked (9 / 2) paths ranks' afferents').priority = 27 / 10 := by
  intro paths ranks ranks' afferents afferents'
  have hpq : (9 / 2 : ℚ) ≤ 23 / 5 := by norm_num
  have hranks : Raised ranks ranks' := by
    refine .mapValues ranks fun m x => ?_
    split <;> linarith
  have hafferents : Raised afferents afferents' := .mapValues afferents fun _ a => by omega
  obtain ⟨hmono, hanti⟩ := enrichRanked_ordered paths
  exact ⟨hpq, hranks, hafferents, hmono _ _ ranks afferents hpq,
    hanti _ _ _ _ _ hranks hafferents, by decide +kernel, by decide +kernel, by decide +kernel⟩

end Ranked

end DependencyRanking
