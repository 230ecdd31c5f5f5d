import DependencyRanking.Proofs.Settings.Rejection
import DependencyRanking.Settings.Load

/-!
# How loading the settings fails

A load that fails reports a setting, but for four causes: a file whose bytes are no text, a file with
an integer that is too long to be read, a setting that is to be compared and is no number, and a
number that is too long to be reported.
-/
namespace DependencyRanking

def Contained (r : Except RankingError RankingConfig) : Prop :=
  ∀ error, r = .error error →
    ∃ report, error.report? = some report ∧ report.kind = .invalidSetting

def RankingError.NamesSetting (e : RankingError) : Prop :=
  ∃ key value fault, e = .invalidSetting key value fault

namespace RankingError

theorem not_namesSetting_invalidEncoding : ¬ invalidEncoding.NamesSetting :=
  fun ⟨_, _, _, h⟩ => nomatch h

theorem not_namesSetting_integerTooLong : ¬ integerTooLong.NamesSetting :=
  fun ⟨_, _, _, h⟩ => nomatch h

theorem not_namesSetting_wrongType : ¬ wrongType.NamesSetting :=
  fun ⟨_, _, _, h⟩ => nomatch h

end RankingError

theorem contained_iff {r : Except RankingError RankingConfig} : Contained r ↔
    (∀ error, r = .error error → error.NamesSetting) ∧
      ∀ key value fault, r = .error (.invalidSetting key value fault) →
        value.isWritable = true := by
  constructor
  · intro h
    refine ⟨fun error he => ?_, fun key value fault he => ?_⟩
    · obtain ⟨report, hreport, hkind⟩ := h error he
      cases error with
      | invalidSetting key value fault => exact ⟨key, value, fault, rfl⟩
      | invalidEdge source target fault =>
        simp only [RankingError.report?] at hreport
        split at hreport
        · cases hreport
          cases hkind
        · cases hreport
      | _ => cases hreport
    · obtain ⟨report, hreport, -⟩ := h _ he
      by_contra hw
      simp [RankingError.report?, hw] at hreport
  · rintro ⟨hnames, hwritable⟩ error he
    obtain ⟨key, value, fault, rfl⟩ := hnames error he
    exact ⟨.ofSetting key value fault.reason,
      by simp [RankingError.report?, hwritable key value fault he], rfl⟩

theorem not_contained {r : Except RankingError RankingConfig} {e : RankingError}
    (hr : r = .error e) (he : e.report? = none) : ¬ Contained r := by
  intro h
  obtain ⟨report, hreport, -⟩ := h e hr
  simp [he] at hreport

theorem report?_of_long {key : String} {n : Number} {fault : SettingFault}
    (h : n.isWritable = false) :
    (RankingError.invalidSetting key (.number n) fault).report? = none := by
  have hn : (Value.number n).isWritable = false := h
  simp [RankingError.report?, hn]

namespace SettingsFile

def IsUndecodable (f : SettingsFile) : Prop :=
  ∃ data, f.content = .bytes data ∧ String.fromUTF8? data = none

def IsOverlong (f : SettingsFile) : Prop :=
  ∃ data text, f.content = .bytes data ∧ String.fromUTF8? data = some text ∧
    Document.read text = .error .tooLong

variable {f : SettingsFile} {e : RankingError}

theorem settings_eq_error (h : f.settings = .error e) : e = .invalidEncoding ∧ f.IsUndecodable ∨
    e = .integerTooLong ∧ f.IsOverlong ∨ e.NamesSetting := by
  unfold settings at h
  split at h
  · exact .inr (.inr ⟨_, _, _, (Except.error.inj h).symm⟩)
  · exact .inr (.inr ⟨_, _, _, (Except.error.inj h).symm⟩)
  · rename_i data hdata
    split at h
    · rename_i htext
      exact .inl ⟨(Except.error.inj h).symm, data, hdata, htext⟩
    · rename_i text htext
      split at h
      · exact .inr (.inr ⟨_, _, _, (Except.error.inj h).symm⟩)
      · rename_i hread
        exact .inr (.inl ⟨(Except.error.inj h).symm, data, text, hdata, htext, hread⟩)
      · unfold section? at h
        split at h
        · cases h
        · cases h
        · exact .inr (.inr ⟨_, _, _, (Except.error.inj h).symm⟩)

theorem settings_eq_invalidEncoding : f.settings = .error .invalidEncoding ↔ f.IsUndecodable := by
  constructor
  · intro h
    obtain ⟨-, hu⟩ | ⟨he, -⟩ | ⟨key, value, fault, he⟩ := settings_eq_error h
    · exact hu
    · cases he
    · cases he
  · rintro ⟨data, hdata, htext⟩
    simp [settings, hdata, htext]

theorem settings_eq_integerTooLong : f.settings = .error .integerTooLong ↔ f.IsOverlong := by
  constructor
  · intro h
    obtain ⟨he, -⟩ | ⟨-, ho⟩ | ⟨key, value, fault, he⟩ := settings_eq_error h
    · cases he
    · exact ho
    · cases he
  · rintro ⟨data, text, hdata, htext, hread⟩
    simp [settings, hdata, htext, hread]

def ifPresent (f : SettingsFile) : List SettingsFile :=
  match f.content with
  | .missing => []
  | _ => [f]

theorem failure?_mapM_settings_singleton (f : SettingsFile) :
    Outcome.failure? ([f].mapM settings) = Outcome.failure? f.settings := by
  rw [List.mapM_cons]
  exact Outcome.failure?_bind_pure _ _

theorem failure?_settingsIfPresent (f : SettingsFile) :
    Outcome.failure? f.settingsIfPresent = Outcome.failure? (f.ifPresent.mapM settings) := by
  unfold settingsIfPresent ifPresent
  cases f.content with
  | missing => rfl
  | directory => exact f.failure?_mapM_settings_singleton.symm
  | bytes data => exact f.failure?_mapM_settings_singleton.symm

end SettingsFile

theorem Setting.namesSetting_of_environment {environment : Table String String} {e : RankingError}
    (h : allFromEnvironment environment = .error e) : e.NamesSetting := by
  have hfound : Outcome.failure? (all.mapM (fromEnvironment? environment)) = some e := by
    rw [← Outcome.failure?_bind_pure _ (·.filterMap id), Outcome.failure?_eq_some]
    exact h
  obtain ⟨before, s, after, -, -, hs⟩ := Outcome.failure?_mapM_eq_some.1 hfound
  unfold fromEnvironment? at hs
  split at hs
  · cases hs
  · split at hs
    · cases hs
    · cases hs
    · exact ⟨_, _, _, (Except.error.inj hs).symm⟩

namespace SettingsSources

open RankingConfig

variable {s : SettingsSources} {e : RankingError}

def files (s : SettingsSources) : List SettingsFile :=
  s.global.ifPresent ++ s.project.ifPresent ++ s.named.toList

theorem failure?_layers (s : SettingsSources) : Outcome.failure? s.layers =
    (Outcome.failure? (s.files.mapM SettingsFile.settings)).or
      (Outcome.failure? (Setting.allFromEnvironment s.environment)) := by
  unfold layers files
  rw [Outcome.failure?_mapM_append, Outcome.failure?_mapM_append, Option.or_assoc,
    Option.or_assoc, ← s.global.failure?_settingsIfPresent, ← s.project.failure?_settingsIfPresent]
  refine Outcome.failure?_bind fun _ _ => ?_
  refine Outcome.failure?_bind fun _ _ => ?_
  cases s.named with
  | none => exact Outcome.failure?_bind_pure _ _
  | some f =>
    rw [Option.toList_some, f.failure?_mapM_settings_singleton]
    refine Outcome.failure?_bind fun _ _ => ?_
    exact Outcome.failure?_bind_pure _ _

def FailsAt (s : SettingsSources) (kind : SettingsFile → Prop) : Prop :=
  ∃ before f after, s.files = before ++ f :: after ∧
    (∀ g ∈ before, ∃ settings, g.settings = .ok settings) ∧ kind f

/-- The first file that cannot be used is one whose bytes are no text. -/
def Undecodable (s : SettingsSources) : Prop := s.FailsAt SettingsFile.IsUndecodable

def Overlong (s : SettingsSources) : Prop := s.FailsAt SettingsFile.IsOverlong

/-- All sources can be read, all keys are settings, and the first demand on the values that is not
met is one on what is no number. -/
def Untyped (s : SettingsSources) : Prop :=
  ∃ layers d, s.layers = .ok layers ∧ (∀ key ∈ (merge layers).keys, Setting.isName key = true) ∧
    firstUnmet? demands (valuesOf (merge layers)) = some d ∧
    ∀ n, valuesOf (merge layers) d.setting ≠ .number n

theorem FailsAt.congr {kind kind' : SettingsFile → Prop} (h : ∀ f, kind f ↔ kind' f) :
    s.FailsAt kind ↔ s.FailsAt kind' := by
  simp only [FailsAt, h]

theorem layers_eq_error (he : ¬ e.NamesSetting) :
    s.layers = .error e ↔ s.FailsAt (·.settings = .error e) := by
  rw [← Outcome.failure?_eq_some, failure?_layers, Option.or_eq_some_iff,
    Outcome.failure?_mapM_eq_some]
  refine or_iff_left fun h => he ?_
  exact Setting.namesSetting_of_environment (Outcome.failure?_eq_some.1 h.2)

theorem unknownKeys_eq_nil {merged : Table String Value} :
    unknownKeys merged = [] ↔ ∀ key ∈ merged.keys, Setting.isName key = true := by
  unfold unknownKeys
  rw [← List.length_eq_zero_iff, List.length_mergeSort, List.length_eq_zero_iff,
    List.filter_eq_nil_iff]
  simp

theorem checkMerged_eq_error {merged : Table String Value} : checkMerged merged = .error e ↔
    (∃ key rest, unknownKeys merged = key :: rest ∧
      e = .invalidSetting key (merged.getD key .absent) .unknownKey) ∨
    (∀ key ∈ merged.keys, Setting.isName key = true) ∧
      ∃ d, firstUnmet? demands (valuesOf merged) = some d ∧ d.error (valuesOf merged) = e := by
  rw [← unknownKeys_eq_nil]
  unfold checkMerged
  cases hk : unknownKeys merged with
  | cons key rest => simp [eq_comm]
  | nil =>
    have hcheck : ofTable merged = check (valuesOf merged) :=
      if_pos (List.all_eq_true.2 (unknownKeys_eq_nil.1 hk))
    dsimp only
    rw [hcheck, ← Outcome.failure?_eq_some, failure?_check, Option.map_eq_some_iff]
    simp

theorem error_eq_wrongType {given : Setting → Value} {d : Demand} :
    d.error given = .wrongType ↔ ∀ n, given d.setting ≠ .number n := by
  unfold Demand.error
  cases given d.setting <;> simp

theorem error_cases (given : Setting → Value) (d : Demand) :
    d.error given = .wrongType ∨ (d.error given).NamesSetting := by
  unfold Demand.error
  cases given d.setting with
  | number n => exact .inr ⟨_, _, _, rfl⟩
  | _ => exact .inl rfl

theorem load_eq_error (h : s.load = .error e) :
    s.layers = .error e ∨ e = .wrongType ∧ s.Untyped ∨ e.NamesSetting := by
  refine (Outcome.bind_eq_error.1 h).imp_right ?_
  rintro ⟨layers, hlayers, h⟩
  rcases checkMerged_eq_error.1 h with ⟨key, rest, -, rfl⟩ | ⟨hknown, d, hd, rfl⟩
  · exact .inr ⟨_, _, _, rfl⟩
  · rcases error_cases (valuesOf (merge layers)) d with he | he
    · exact .inl ⟨he, layers, d, hlayers, hknown, hd, error_eq_wrongType.1 he⟩
    · exact .inr he

theorem load_eq_fileError (he : ¬ e.NamesSetting) (hne : e ≠ .wrongType) :
    s.load = .error e ↔ s.FailsAt (·.settings = .error e) := by
  rw [← layers_eq_error he]
  constructor
  · intro h
    obtain h | ⟨hw, -⟩ | hnames := load_eq_error h
    · exact h
    · exact absurd hw hne
    · exact absurd hnames he
  · exact fun h => Outcome.bind_eq_error.2 (.inl h)

theorem load_eq_invalidEncoding : s.load = .error .invalidEncoding ↔ s.Undecodable :=
  (load_eq_fileError RankingError.not_namesSetting_invalidEncoding RankingError.noConfusion).trans
    (FailsAt.congr fun _ => SettingsFile.settings_eq_invalidEncoding)

theorem load_eq_integerTooLong : s.load = .error .integerTooLong ↔ s.Overlong :=
  (load_eq_fileError RankingError.not_namesSetting_integerTooLong RankingError.noConfusion).trans
    (FailsAt.congr fun _ => SettingsFile.settings_eq_integerTooLong)

theorem load_of_unmet {layers : List (List (String × Value))} {d : Demand}
    (hlayers : s.layers = .ok layers)
    (hknown : ∀ key ∈ (merge layers).keys, Setting.isName key = true)
    (hd : firstUnmet? demands (valuesOf (merge layers)) = some d) :
    s.load = .error (d.error (valuesOf (merge layers))) := by
  have hmerged := checkMerged_eq_error.2 (.inr ⟨hknown, d, hd, rfl⟩)
  exact Outcome.bind_eq_error.2 (.inr ⟨layers, hlayers, hmerged⟩)

theorem layers_ne_wrongType : s.layers ≠ .error .wrongType := by
  intro h
  obtain ⟨before, f, after, -, -, hf⟩ :=
    (layers_eq_error RankingError.not_namesSetting_wrongType).1 h
  obtain ⟨he, -⟩ | ⟨he, -⟩ | hnames := SettingsFile.settings_eq_error hf
  · cases he
  · cases he
  · exact RankingError.not_namesSetting_wrongType hnames

theorem load_eq_wrongType : s.load = .error .wrongType ↔ s.Untyped := by
  constructor
  · intro h
    obtain h | ⟨-, hu⟩ | ⟨key, value, fault, he⟩ := load_eq_error h
    · exact absurd h layers_ne_wrongType
    · exact hu
    · cases he
  · rintro ⟨layers, d, hlayers, hknown, hd, hnumber⟩
    rw [load_of_unmet hlayers hknown hd, error_eq_wrongType.2 hnumber]

theorem escape_cases (h : s.load = .error e) (he : ¬ e.NamesSetting) :
    s.Undecodable ∨ s.Overlong ∨ s.Untyped := by
  obtain h | ⟨-, hu⟩ | hnames := load_eq_error h
  · obtain ⟨before, f, after, hfiles, hbefore, hf⟩ := (layers_eq_error he).1 h
    obtain ⟨-, hu⟩ | ⟨-, ho⟩ | hnames := SettingsFile.settings_eq_error hf
    · exact .inl ⟨before, f, after, hfiles, hbefore, hu⟩
    · exact .inr (.inl ⟨before, f, after, hfiles, hbefore, ho⟩)
    · exact absurd hnames he
  · exact .inr (.inr hu)
  · exact absurd hnames he

end SettingsSources

end DependencyRanking
