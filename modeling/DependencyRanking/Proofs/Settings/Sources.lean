import DependencyRanking.Proofs.Settings.Containment

/-!
# Where the values of settings come from

The value of a setting that is not its default was written by one of the sources. Variables give an
integer for a setting that has to be one, so anything else comes from a file or an override.
-/
namespace DependencyRanking

theorem Table.mem_of_get?_insertAll {κ ν : Type} [DecidableEq κ] {k : κ} {v : ν} (t : Table κ ν)
    (pairs : List (κ × ν)) (h : (t.insertAll pairs).get? k = some v) :
    t.get? k = some v ∨ (k, v) ∈ pairs := by
  induction pairs generalizing t with
  | nil => exact .inl h
  | cons p rest ih =>
    rcases ih (t.insert p.1 p.2) h with h | h
    · rw [Table.get?_insert] at h
      split at h
      · rename_i hk
        cases h
        exact .inr (hk ▸ List.mem_cons_self)
      · exact .inl h
    · exact .inr (List.mem_cons_of_mem p h)

namespace Setting

theorem name_injective {s s' : Setting} (h : s.name = s'.name) : s = s' := by
  cases s <;> cases s' <;> first | rfl | exact absurd h (by decide)

def counts : List Setting := [iterations, hotspotLimit, workers]

theorem read_of_counts {s : Setting} (hs : s ∈ counts) {text : String} {v : Value}
    (h : s.kind.read text = .ok v) : ∃ n, v = .number (.int n) := by
  have hkind : VariableKind.readInteger text = .ok v := by
    simp only [counts, List.mem_cons, List.not_mem_nil, or_false] at hs
    rcases hs with rfl | rfl | rfl <;> exact h
  unfold VariableKind.readInteger at hkind
  split at hkind
  · cases hkind
  · split at hkind
    · cases hkind
      exact ⟨_, rfl⟩
    · cases hkind

theorem mem_of_environment {environment : Table String String} {pairs : List (String × Value)}
    {key : String} {v : Value} (h : allFromEnvironment environment = .ok pairs)
    (hmem : (key, v) ∈ pairs) : ∃ s text, key = Setting.name s ∧ s.kind.read text = .ok v := by
  obtain ⟨found, hfound, hpairs⟩ := Outcome.bind_eq_ok.1 h
  cases hpairs
  obtain ⟨entry, hentry, rfl⟩ := List.mem_filterMap.1 hmem
  obtain ⟨s, -, hs⟩ := Outcome.exists_of_mem_mapM hfound hentry
  unfold fromEnvironment? at hs
  split at hs
  · cases hs
  · split at hs
    · cases hs
    · rename_i text _ _ _ _ hread
      cases hs
      exact ⟨s, text, rfl, hread⟩
    · cases hs

end Setting

namespace SettingsSources

open RankingConfig

variable {s : SettingsSources} {config : RankingConfig}

theorem mem_of_get?_merge {layers : List (List (String × Value))} {key : String} {v : Value}
    (h : (merge layers).get? key = some v) : ∃ layer ∈ layers, (key, v) ∈ layer := by
  have hfold (t : Table String Value) (h : (layers.foldl Table.insertAll t).get? key = some v) :
      t.get? key = some v ∨ ∃ layer ∈ layers, (key, v) ∈ layer := by
    clear * - h
    induction layers generalizing t with
    | nil => exact .inl h
    | cons layer rest ih =>
      rcases ih (t.insertAll layer) h with h | ⟨l, hl, hmem⟩
      · exact (Table.mem_of_get?_insertAll t layer h).imp_right
          fun hmem => ⟨layer, List.mem_cons_self, hmem⟩
      · exact .inr ⟨l, List.mem_cons_of_mem layer hl, hmem⟩
  exact (hfold ∅ h).resolve_left fun hempty => nomatch hempty

theorem settings_of_settingsIfPresent {f : SettingsFile} {entries : List (String × Value)}
    (h : f.settingsIfPresent = .ok entries) {entry : String × Value} (hentry : entry ∈ entries) :
    f ∈ f.ifPresent ∧ f.settings = .ok entries := by
  unfold SettingsFile.settingsIfPresent at h
  unfold SettingsFile.ifPresent
  cases hc : f.content with
  | missing =>
    rw [hc] at h
    cases h
    exact absurd hentry List.not_mem_nil
  | directory => exact ⟨List.mem_singleton_self f, by simpa [hc] using h⟩
  | bytes data => exact ⟨List.mem_singleton_self f, by simpa [hc] using h⟩

theorem layers_eq_ok {layers : List (List (String × Value))} (h : s.layers = .ok layers) :
    ∃ global project named environment, s.global.settingsIfPresent = .ok global ∧
      s.project.settingsIfPresent = .ok project ∧
      (s.named = none ∧ named = [] ∨ ∃ f, s.named = some f ∧ f.settings = .ok named) ∧
      Setting.allFromEnvironment s.environment = .ok environment ∧
      layers = [global, project, named, environment, s.givenOverrides] := by
  unfold SettingsSources.layers at h
  obtain ⟨global, hglobal, h⟩ := Outcome.bind_eq_ok.1 h
  obtain ⟨project, hproject, h⟩ := Outcome.bind_eq_ok.1 h
  cases hn : s.named with
  | none =>
    rw [hn] at h
    obtain ⟨named, hnamed, h⟩ := Outcome.bind_eq_ok.1 h
    obtain ⟨environment, henvironment, h⟩ := Outcome.bind_eq_ok.1 h
    cases hnamed
    cases h
    exact ⟨_, _, _, _, hglobal, hproject, .inl ⟨rfl, rfl⟩, henvironment, rfl⟩
  | some f =>
    rw [hn] at h
    obtain ⟨named, hnamed, h⟩ := Outcome.bind_eq_ok.1 h
    obtain ⟨environment, henvironment, h⟩ := Outcome.bind_eq_ok.1 h
    cases h
    exact ⟨_, _, _, _, hglobal, hproject, .inr ⟨f, rfl, hnamed⟩, henvironment, rfl⟩

theorem mem_of_layers {layers : List (List (String × Value))} (h : s.layers = .ok layers)
    {layer : List (String × Value)} (hlayer : layer ∈ layers) {entry : String × Value}
    (hentry : entry ∈ layer) :
    (∃ f ∈ s.files, ∃ entries, f.settings = .ok entries ∧ entry ∈ entries) ∨
      (∃ pairs, Setting.allFromEnvironment s.environment = .ok pairs ∧ entry ∈ pairs) ∨
      entry ∈ s.overrides.entries := by
  obtain ⟨global, project, named, environment, hglobal, hproject, hnamed, henvironment, rfl⟩ :=
    layers_eq_ok h
  simp only [List.mem_cons, List.not_mem_nil, or_false] at hlayer
  rcases hlayer with rfl | rfl | rfl | rfl | rfl
  · obtain ⟨hf, hs⟩ := settings_of_settingsIfPresent hglobal hentry
    exact .inl ⟨s.global, by simp [files, hf], _, hs, hentry⟩
  · obtain ⟨hf, hs⟩ := settings_of_settingsIfPresent hproject hentry
    exact .inl ⟨s.project, by simp [files, hf], _, hs, hentry⟩
  · rcases hnamed with ⟨-, rfl⟩ | ⟨f, hf, hs⟩
    · exact absurd hentry List.not_mem_nil
    · exact .inl ⟨f, by simp [files, hf], _, hs, hentry⟩
  · exact .inr (.inl ⟨_, henvironment, hentry⟩)
  · exact .inr (.inr (List.mem_of_mem_filter hentry))

/-- No file and no override gives a double for a count. -/
def GivesWholeCounts (s : SettingsSources) : Prop :=
  ∀ setting ∈ Setting.counts, ∀ x,
    (∀ f ∈ s.files, ∀ entries, f.settings = .ok entries →
      (setting.name, .number (.float x)) ∉ entries) ∧
    (setting.name, .number (.float x)) ∉ s.overrides.entries

theorem default_of_counts {setting : Setting} (h : setting ∈ Setting.counts) (x : Float) :
    setting.default ≠ .number (.float x) := by
  simp only [Setting.counts, List.mem_cons, List.not_mem_nil, or_false] at h
  rcases h with rfl | rfl | rfl <;> simp [Setting.default]

theorem load_eq_ok : s.load = .ok config ↔ ∃ layers, s.layers = .ok layers ∧
    (∀ key ∈ (merge layers).keys, Setting.isName key = true) ∧
    check (valuesOf (merge layers)) = .ok config := by
  refine Outcome.bind_eq_ok.trans (exists_congr fun layers => and_congr_right fun _ => ?_)
  rw [← unknownKeys_eq_nil]
  unfold checkMerged
  cases hk : unknownKeys (merge layers) with
  | cons key rest => simp
  | nil =>
    have htable : ofTable (merge layers) = check (valuesOf (merge layers)) :=
      if_pos (List.all_eq_true.2 (unknownKeys_eq_nil.1 hk))
    simp [htable]

theorem load_of_checked {layers : List (List (String × Value))} (hlayers : s.layers = .ok layers)
    (hknown : ∀ key ∈ (merge layers).keys, Setting.isName key = true)
    (hvalues : ∀ setting, valuesOf (merge layers) setting = config.value setting)
    (hc : Checked config) : s.load = .ok config := by
  refine load_eq_ok.2 ⟨layers, hlayers, hknown, ?_⟩
  rw [funext hvalues]
  exact check_value hc

theorem whole_of_load (hs : s.GivesWholeCounts) (h : s.load = .ok config) {setting : Setting}
    (hcounts : setting ∈ Setting.counts) (x : Float) :
    config.value setting ≠ .number (.float x) := by
  obtain ⟨layers, hlayers, -, hcheck⟩ := load_eq_ok.1 h
  rw [value_of_check hcheck]
  intro hx
  unfold valuesOf Table.getD at hx
  cases hget : (merge layers).get? setting.name with
  | none =>
    rw [hget] at hx
    exact default_of_counts hcounts x hx
  | some v =>
    rw [hget] at hx
    obtain rfl : v = .number (.float x) := hx
    obtain ⟨layer, hlayer, hmem⟩ := mem_of_get?_merge hget
    obtain ⟨f, hf, entries, hentries, hmem⟩ | ⟨pairs, hpairs, hmem⟩ | hmem :=
      mem_of_layers hlayers hlayer hmem
    · exact (hs setting hcounts x).1 f hf entries hentries hmem
    · obtain ⟨setting', text, hname, hread⟩ := Setting.mem_of_environment hpairs hmem
      obtain rfl := Setting.name_injective hname
      obtain ⟨n, hn⟩ := Setting.read_of_counts hcounts hread
      cases hn
    · exact (hs setting hcounts x).2 hmem

end SettingsSources

end DependencyRanking
