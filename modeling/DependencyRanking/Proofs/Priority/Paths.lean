import DependencyRanking.Proofs.Priority.Enrichment

/-!
# Paths of a change

A path that is no module itself stands for its parts between slashes, so empty parts do not count.
An enrichment looks at paths only through the modules that they belong to: what belongs to none may
come and go, and the order of the others shows in nothing but the rounding of a sum.
-/
namespace DependencyRanking

section Parts

/-- The parts of a path between its slashes, from the left. -/
inductive Sliced : List Char → List String → Prop
  | nil : Sliced [] []
  | slash {cs : List Char} {parts : List String} : Sliced cs parts → Sliced ('/' :: cs) parts
  | part {w cs : List Char} {parts : List String} : w ≠ [] → '/' ∉ w →
      (cs = [] ∨ ∃ rest, cs = '/' :: rest) → Sliced cs parts →
      Sliced (w ++ cs) (String.ofList w :: parts)

def partsOf (cs : List Char) : List String := ((cs.splitOn '/').map String.ofList).filter (· ≠ "")

variable {cs w : List Char} {parts : List String} {c : Char}

theorem partsOf_append_slash (hw : '/' ∉ w) (cs : List Char) :
    partsOf (w ++ '/' :: cs) = partsOf w ++ partsOf cs := by
  unfold partsOf
  rw [List.splitOn_append_cons_self_of_not_mem hw, List.splitOn_eq_singleton hw,
    ← List.filter_append, ← List.map_append, List.singleton_append]

theorem partsOf_part (hne : w ≠ []) (hw : '/' ∉ w) : partsOf w = [String.ofList w] := by
  have hpart : String.ofList w ≠ "" := fun h => hne (by simpa using congrArg String.toList h)
  unfold partsOf
  rw [List.splitOn_eq_singleton hw, List.map_singleton]
  exact List.filter_eq_self.2 (by simpa using hpart)

theorem partsOf_slash (cs : List Char) : partsOf ('/' :: cs) = partsOf cs :=
  partsOf_append_slash List.not_mem_nil cs

theorem Sliced.partsOf_eq (h : Sliced cs parts) : partsOf cs = parts := by
  induction h with
  | nil => rfl
  | slash _ ih => rw [partsOf_slash, ih]
  | @part w cs parts hne hw hcs _ ih =>
    rcases hcs with rfl | ⟨rest, rfl⟩
    · rw [List.append_nil, partsOf_part hne hw, ← ih]
      rfl
    · rw [partsOf_append_slash hw, partsOf_part hne hw, ← ih, partsOf_slash, List.singleton_append]

theorem Sliced.exists_cons (h : Sliced cs parts) (hc : c ≠ '/') :
    ∃ parts', Sliced (c :: cs) parts' := by
  have hletter : '/' ∉ [c] := fun hmem => hc (List.mem_singleton.1 hmem).symm
  cases h with
  | nil => exact ⟨_, .part (List.cons_ne_nil c []) hletter (.inl rfl) .nil⟩
  | slash h => exact ⟨_, .part (List.cons_ne_nil c []) hletter (.inr ⟨_, rfl⟩) (.slash h)⟩
  | @part w cs parts hne hw hcs h =>
    have hlonger : '/' ∉ c :: w := fun hmem => (List.mem_cons.1 hmem).elim hc.symm hw
    exact ⟨_, .part (List.cons_ne_nil c w) hlonger hcs h⟩

theorem exists_sliced (cs : List Char) : ∃ parts, Sliced cs parts := by
  induction cs with
  | nil => exact ⟨[], .nil⟩
  | cons c cs ih =>
    obtain ⟨parts, h⟩ := ih
    by_cases hc : c = '/'
    · exact ⟨parts, hc ▸ .slash h⟩
    · exact h.exists_cons hc

theorem sliced_iff {path : String} : Sliced path.toList parts ↔ pathSegments path = parts := by
  refine ⟨Sliced.partsOf_eq, ?_⟩
  rintro rfl
  obtain ⟨parts, h⟩ := exists_sliced path.toList
  have heq : pathSegments path = parts := h.partsOf_eq
  rwa [heq]

end Parts

section Lists

/-- Two lists of which either may have more paths of some kind than the other, at any places. -/
inductive Edited (spare : String → Prop) : List String → List String → Prop
  | nil : Edited spare [] []
  | keep (path : String) {paths paths' : List String} : Edited spare paths paths' →
      Edited spare (path :: paths) (path :: paths')
  | insert {path : String} {paths paths' : List String} : spare path → Edited spare paths paths' →
      Edited spare paths (path :: paths')
  | delete {path : String} {paths paths' : List String} : spare path → Edited spare paths paths' →
      Edited spare (path :: paths) paths'

variable {isModule : ModuleId → Bool} {paths paths' : List String}

theorem touchedModules_edited (h : Edited (moduleOfPath isModule · = none) paths paths') :
    touchedModules isModule paths = touchedModules isModule paths' := by
  unfold touchedModules
  induction h with
  | nil => rfl
  | keep path _ ih => rw [List.filterMap_cons, List.filterMap_cons, ih]
  | insert hspare _ ih => rw [List.filterMap_cons_none hspare, ih]
  | delete hspare _ ih => rw [List.filterMap_cons_none hspare, ih]

theorem Touches.ne_nil (h : Touches isModule paths) : paths ≠ [] := by
  obtain ⟨path, hpath, -⟩ := h
  exact List.ne_nil_of_mem hpath

theorem touches_iff_of_perm
    (h : (touchedModules isModule paths).Perm (touchedModules isModule paths')) :
    Touches isModule paths ↔ Touches isModule paths' := by
  rw [← not_iff_not, ← touchedModules_eq_nil_iff, ← touchedModules_eq_nil_iff]
  constructor
  · exact fun hnil => (hnil ▸ h).symm.eq_nil
  · exact fun hnil => (hnil ▸ h).eq_nil

end Lists

section Changes

variable {paths paths' : List String} {afferents : Table ModuleId ℤ}

theorem enrichGiven_congr {ranks : Table ModuleId Number} (priority : Number)
    (htouches : Touches ranks.contains paths)
    (h : touchedModules ranks.contains paths = touchedModules ranks.contains paths') :
    PriorityChange.enrichGiven priority paths' ranks afferents =
      PriorityChange.enrichGiven priority paths ranks afferents := by
  have hne := htouches.ne_nil
  have hne' := ((touches_iff_of_perm (.of_eq h)).1 htouches).ne_nil
  unfold PriorityChange.enrichGiven
  rw [h, if_neg (by simpa using hne'), if_neg (by simpa using hne)]

theorem enrich_perm (priority : ℚ) {touched touched' : List (Touched ℚ)}
    (h : touched.Perm touched') : enrich priority touched = enrich priority touched' := by
  have hrank : rankBoost touched = rankBoost touched' := by
    rw [rankBoost_eq, rankBoost_eq, (h.map _).sum_eq, h.length_eq]
  have hcoupling : couplingBoost touched = couplingBoost touched' := by
    rw [couplingBoost_eq, couplingBoost_eq, (h.map _).sum_eq, h.length_eq]
  unfold enrich
  rw [hrank, hcoupling]

theorem enrichRanked_perm {ranks : Table ModuleId ℚ} (priority : ℚ) (afferents : Table ModuleId ℤ)
    (htouches : Touches ranks.contains paths)
    (h : (touchedModules ranks.contains paths).Perm (touchedModules ranks.contains paths')) :
    enrichRanked priority paths ranks afferents = enrichRanked priority paths' ranks afferents := by
  have htouches' := (touches_iff_of_perm h).1 htouches
  rw [enrichRanked_eq, enrichRanked_eq, if_neg, if_neg]
  · exact enrich_perm priority (h.map _)
  · exact fun hnil => touchedModules_eq_nil_iff.1 hnil htouches'
  · exact fun hnil => touchedModules_eq_nil_iff.1 hnil htouches

theorem reasonRanked_eq {ranks : Table ModuleId ℚ} (text : ℚ → String) (priority : ℚ)
    (htouches : Touches ranks.contains paths) :
    reasonRanked text priority paths ranks afferents =
      (enrichRanked priority paths ranks afferents).reason text := by
  have hsome := mt touchedModules_eq_nil_iff.1 (not_not.2 htouches)
  unfold reasonRanked
  rw [if_neg (by simpa using htouches.ne_nil), if_neg (by simpa using hsome)]

end Changes

/-- Paths that belong to no module may be left out of the paths of a change, or put in anywhere,
without any effect as long as it touches a module; without rounding on the way the order of the paths
has none either. Paths with the same parts that are no modules themselves belong to the same. -/
theorem enrichment_of_paths :
    (∀ (priority : Number) (ranks : Table ModuleId Number) (afferents : Table ModuleId ℤ)
      (paths paths' : List String), Touches ranks.contains paths →
      Edited (moduleOfPath ranks.contains · = none) paths paths' →
      PriorityChange.enrichGiven priority paths' ranks afferents =
        PriorityChange.enrichGiven priority paths ranks afferents) ∧
    (∀ (priority : ℚ) (ranks : Table ModuleId ℚ) (afferents : Table ModuleId ℤ)
      (paths middle paths' : List String) (text : ℚ → String), Touches ranks.contains paths →
      Edited (moduleOfPath ranks.contains · = none) paths middle → middle.Perm paths' →
      enrichRanked priority paths' ranks afferents = enrichRanked priority paths ranks afferents ∧
      reasonRanked text priority paths' ranks afferents =
        reasonRanked text priority paths ranks afferents) ∧
    ∀ (isModule : ModuleId → Bool) (path path' : String) (parts : List String),
      Sliced path.toList parts → Sliced path'.toList parts →
      isModule path = false → isModule path' = false →
      moduleOfPath isModule path = moduleOfPath isModule path' := by
  refine ⟨?_, ?_, ?_⟩
  · intro priority ranks afferents paths paths' htouches hedited
    exact enrichGiven_congr priority htouches (touchedModules_edited hedited)
  · intro priority ranks afferents paths middle paths' text htouches hedited hperm
    have hmodules : (touchedModules ranks.contains paths).Perm
        (touchedModules ranks.contains paths') :=
      touchedModules_edited hedited ▸ hperm.filterMap _
    have hsame := enrichRanked_perm priority afferents htouches hmodules
    refine ⟨hsame.symm, ?_⟩
    rw [reasonRanked_eq text priority ((touches_iff_of_perm hmodules).1 htouches),
      reasonRanked_eq text priority htouches, hsame]
  · intro isModule path path' parts hparts hparts' hpath hpath'
    rw [sliced_iff] at hparts hparts'
    unfold moduleOfPath
    rw [hpath, hpath', hparts, hparts', if_neg Bool.false_ne_true, if_neg Bool.false_ne_true]

theorem enrichment_of_paths_scoped :
    let given : Table ModuleId Number := Table.ofPairs [("@core", .int 3), ("lib/util", .float 1.0)]
    let ranks : Table ModuleId ℚ := Table.ofPairs [("@core", 3), ("lib/util", 1)]
    let afferents : Table ModuleId ℤ := Table.ofPairs [("@core", 5)]
    let paths := ["src/core/a", "docs/notes", "lib/util"]
    let paths' := ["src/core/a", "", "lib/util"]
    Touches given.contains paths ∧ Edited (moduleOfPath given.contains · = none) paths paths' ∧
      PriorityChange.enrichGiven (.int 10) paths' given afferents =
        PriorityChange.enrichGiven (.int 10) paths given afferents ∧
      Touches ranks.contains paths ∧ Edited (moduleOfPath ranks.contains · = none) paths paths' ∧
      paths'.Perm ["lib/util", "", "src/core/a"] ∧
      enrichRanked 10 ["lib/util", "", "src/core/a"] ranks afferents =
        enrichRanked 10 paths ranks afferents ∧
      (enrichRanked 10 paths ranks afferents).priority = 21 / 5 ∧
      Sliced "src//core/a".toList ["src", "core", "a"] ∧
      Sliced "/src/core/a/".toList ["src", "core", "a"] ∧
      ranks.contains "src//core/a" = false ∧ ranks.contains "/src/core/a/" = false ∧
      moduleOfPath ranks.contains "src//core/a" = moduleOfPath ranks.contains "/src/core/a/" ∧
      moduleOfPath ranks.contains "src//core/a" = some "@core" := by
  intro given ranks afferents paths paths'
  obtain ⟨hgiven, hexact, hmatch⟩ := enrichment_of_paths
  have htouches (isModule : ModuleId → Bool) (h : moduleOfPath isModule "src/core/a" ≠ none) :
      Touches isModule paths := ⟨_, List.mem_cons_self, h⟩
  have hedited (isModule : ModuleId → Bool) (h : moduleOfPath isModule "docs/notes" = none)
      (h' : moduleOfPath isModule "" = none) :
      Edited (moduleOfPath isModule · = none) paths paths' :=
    .keep _ (.delete h (.insert h' (.keep _ .nil)))
  have hg := htouches given.contains (by decide +kernel)
  have hr := htouches ranks.contains (by decide +kernel)
  have hge := hedited given.contains (by decide +kernel) (by decide +kernel)
  have hre := hedited ranks.contains (by decide +kernel) (by decide +kernel)
  have hperm : paths'.Perm ["lib/util", "", "src/core/a"] := by decide
  have hparts : Sliced "src//core/a".toList ["src", "core", "a"] := sliced_iff.2 (by decide +kernel)
  have hparts' : Sliced "/src/core/a/".toList ["src", "core", "a"] :=
    sliced_iff.2 (by decide +kernel)
  exact ⟨hg, hge, hgiven _ _ _ _ _ hg hge, hr, hre, hperm,
    (hexact 10 ranks afferents paths paths' _ (fun _ => "") hr hre hperm).1, by decide +kernel,
    hparts, hparts', rfl, rfl, hmatch ranks.contains _ _ _ hparts hparts' rfl rfl,
    by decide +kernel⟩

end DependencyRanking
