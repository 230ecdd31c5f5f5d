import DependencyRanking.Proofs.Document.Keys
import DependencyRanking.Proofs.Settings.Sources
import DependencyRanking.Proofs.Sorting
import Mathlib.Data.List.Induction

/-!
# Which source a setting is taken from

Each source gives some keys a value, and of several sources the foremost counts: an override, then a
variable, the named file, the project's file and the global file. No source has a key twice, so what
is merged under a key is what the foremost source with that key gives. The least key that is no
setting stops the load, whatever the other values are.
-/
namespace DependencyRanking

theorem Table.get?_insertAll {κ ν : Type} [DecidableEq κ] (t : Table κ ν) {pairs : List (κ × ν)}
    (h : (pairs.map Prod.fst).Nodup) (k : κ) :
    (t.insertAll pairs).get? k = (entryAt? k pairs).or (t.get? k) := by
  induction pairs generalizing t with
  | nil => rfl
  | cons p rest ih =>
    obtain ⟨hp, hrest⟩ := List.nodup_cons.1 h
    have hstep := ih (t.insert p.1 p.2) hrest
    rw [Table.get?_insert] at hstep
    change ((t.insert p.1 p.2).insertAll rest).get? k = _
    rw [hstep]
    by_cases hk : k = p.1
    · subst hk
      have hlater : entryAt? p.1 rest = none := Table.entryAt?_eq_none_iff.2 hp
      simp [entryAt?, hlater]
    · simp [entryAt?, hk, Ne.symm hk]

structure Gives (source : String → Option Value) (layer : List (String × Value)) : Prop where
  nodup : (layer.map Prod.fst).Nodup
  entryAt? (key : String) : entryAt? key layer = source key

theorem gives_nil : Gives (fun _ => none) [] := ⟨List.nodup_nil, fun _ => rfl⟩

namespace SettingsFile

variable {f : SettingsFile} {entries : List (String × Value)}

def document? (f : SettingsFile) : Option (List (String × Value)) :=
  match f.content with
  | .bytes data => (String.fromUTF8? data).bind fun text => (Document.read text).toOption
  | _ => none

/-- The value that a file gives for a key. If the file has a `ranking` table, that table counts and
not the file's own keys. -/
def given? (f : SettingsFile) (key : String) : Option Value :=
  f.document?.bind fun document =>
    match entryAt? "ranking" document with
    | some (.table entries) => entryAt? key entries
    | some _ => none
    | none => entryAt? key document

theorem document?_of_settings (h : f.settings = .ok entries) :
    ∃ document, f.document? = some document ∧ section? document = .ok entries := by
  unfold settings at h
  unfold document?
  cases hc : f.content with
  | missing =>
    rw [hc] at h
    cases h
  | directory =>
    rw [hc] at h
    cases h
  | bytes data =>
    rw [hc] at h
    dsimp only at h ⊢
    split at h
    · cases h
    · rename_i text htext
      split at h
      · cases h
      · cases h
      · rename_i document hdocument
        exact ⟨document, by rw [htext, Option.bind_some, hdocument, Except.toOption], h⟩

theorem keyed_of_document? {document : List (String × Value)} (h : f.document? = some document) :
    Document.Keyed (.table document) := by
  unfold document? at h
  split at h
  · obtain ⟨text, -, hread⟩ := Option.bind_eq_some_iff.1 h
    cases hdocument : Document.read text with
    | error fault =>
      rw [hdocument] at hread
      cases hread
    | ok entries =>
      rw [hdocument] at hread
      cases hread
      exact Document.keyed_of_read hdocument
  · cases h

theorem gives_of_settings (h : f.settings = .ok entries) : Gives f.given? entries := by
  obtain ⟨document, hdocument, hsection⟩ := document?_of_settings h
  have hkeyed := keyed_of_document? hdocument
  unfold section? at hsection
  split at hsection
  · rename_i hranking
    cases hsection
    exact ⟨hkeyed.nodup, fun key => by simp [given?, hdocument, hranking]⟩
  · rename_i sub hranking
    cases hsection
    have hsub := hkeyed.of_entryAt? hranking
    exact ⟨hsub.nodup, fun key => by simp [given?, hdocument, hranking]⟩
  · cases hsection

theorem gives_of_settingsIfPresent (h : f.settingsIfPresent = .ok entries) :
    Gives f.given? entries := by
  unfold settingsIfPresent at h
  split at h
  · rename_i hmissing
    cases h
    have hnone : f.given? = fun _ => none := by
      funext key
      simp [given?, document?, hmissing]
    exact hnone ▸ gives_nil
  · exact gives_of_settings h

end SettingsFile

namespace Setting

variable {environment : Table String String} {setting : Setting} {key : String}

def readVariable? (environment : Table String String) (setting : Setting) : Option Value :=
  (environment.get? setting.variableName).bind fun text => (setting.kind.read text).toOption

theorem find?_name : all.find? (·.name = key) = some setting ↔ setting.name = key := by
  constructor
  · intro h
    simpa using List.find?_some h
  · intro h
    have hsome : (all.find? (·.name = key)).isSome :=
      List.find?_isSome.2 ⟨setting, mem_all setting, decide_eq_true h⟩
    obtain ⟨other, hother⟩ := Option.isSome_iff_exists.1 hsome
    have hname : other.name = key := by simpa using List.find?_some hother
    rw [hother, name_injective (hname.trans h.symm)]

theorem kind_cases (setting : Setting) : setting.kind = .float ∨ setting.kind = .integer ∨
    setting.kind = .flag ∨ setting.kind = .optional .integer := by
  cases setting <;> simp [kind]

theorem read_ne_absent (setting : Setting) (text : String) :
    setting.kind.read text ≠ .ok .absent := by
  have hinteger : VariableKind.readInteger text ≠ .ok .absent := by
    unfold VariableKind.readInteger
    split
    · simp
    · split <;> simp
  obtain h | h | h | h := setting.kind_cases <;> rw [h]
  · unfold VariableKind.read
    split <;> simp
  · exact hinteger
  · unfold VariableKind.read VariableKind.readFlag
    dsimp only
    split
    · simp
    · split <;> simp
  · exact hinteger

theorem fromEnvironment?_eq_ok {found : Option (String × Value)}
    (h : fromEnvironment? environment setting = .ok found) :
    found = (readVariable? environment setting).map (setting.name, ·) := by
  unfold fromEnvironment? at h
  unfold readVariable?
  cases hget : environment.get? setting.variableName with
  | none =>
    rw [hget] at h
    cases h
    rfl
  | some text =>
    rw [hget] at h
    dsimp only at h
    split at h
    · rename_i habsent
      exact absurd habsent (read_ne_absent setting text)
    · rename_i value _ hread
      cases h
      simp [hread, Except.toOption]
    · cases h

theorem allFromEnvironment_eq_ok {pairs : List (String × Value)}
    (h : allFromEnvironment environment = .ok pairs) :
    pairs =
      all.filterMap fun setting => (readVariable? environment setting).map (setting.name, ·) := by
  obtain ⟨found, hfound, hpairs⟩ := Outcome.bind_eq_ok.1 h
  cases hpairs
  have hall := Outcome.mapM_eq_ok.1 hfound
  clear h hfound
  generalize all = settings at hall
  induction hall with
  | nil => rfl
  | cons hone _ ih =>
    rw [fromEnvironment?_eq_ok hone, List.filterMap_cons, List.filterMap_cons, ih]
    rfl

theorem nodup_names : (all.map name).Nodup := by decide

theorem nodup_variables (values : Setting → Option Value) :
    ((all.filterMap fun setting => (values setting).map (setting.name, ·)).map
      Prod.fst).Nodup := by
  refine nodup_names.sublist ?_
  rw [List.map_filterMap]
  generalize all = settings
  induction settings with
  | nil => exact .slnil
  | cons setting rest ih =>
    cases h : values setting with
    | none => simpa [h] using ih.cons setting.name
    | some v => simpa [h] using ih

theorem gives_variables (values : Setting → Option Value) :
    Gives (fun key => (all.find? (·.name = key)).bind values)
      (all.filterMap fun setting => (values setting).map (setting.name, ·)) where
  nodup := nodup_variables values
  entryAt? key := by
    refine Option.ext fun v => ?_
    rw [Table.entryAt?_eq_some_iff (nodup_variables values), List.mem_filterMap,
      Option.bind_eq_some_iff]
    simp only [find?_name, mem_all, true_and, Option.map_eq_some_iff, Prod.mk.injEq]
    constructor
    · rintro ⟨setting, v', hv, hname, rfl⟩
      exact ⟨setting, hname, hv⟩
    · rintro ⟨setting, hname, hv⟩
      exact ⟨setting, v, hv, hname, rfl⟩

end Setting

namespace SettingsSources

open RankingConfig

variable {s : SettingsSources} {key : String} {v : Value}

def override? (s : SettingsSources) (key : String) : Option Value :=
  match s.overrides.get? key with
  | some .absent => none
  | given => given

def readVariable? (s : SettingsSources) (key : String) : Option Value :=
  (Setting.all.find? (·.name = key)).bind (Setting.readVariable? s.environment)

def sources (s : SettingsSources) : List (String → Option Value) :=
  [s.override?, s.readVariable?, fun key => s.named.bind (·.given? key), s.project.given?,
    s.global.given?]

def foremost? (s : SettingsSources) (key : String) : Option Value :=
  s.sources.findSome? (· key)

/-- The value that the foremost source gives for a setting, or else its default. -/
def given (s : SettingsSources) (setting : Setting) : Value :=
  (s.foremost? setting.name).getD setting.default

def Unknown (s : SettingsSources) (key : String) : Prop :=
  Setting.isName key = false ∧ ∃ source ∈ s.sources, (source key).isSome

def LeastUnknown (s : SettingsSources) (key : String) : Prop :=
  s.Unknown key ∧ ∀ other, s.Unknown other → key ≤ other

/-- All files that are there, and the file that is named, can be used, and so can all variables that
are set. -/
structure Readable (s : SettingsSources) : Prop where
  filesRead : ∀ f ∈ s.files, ∃ entries, f.settings = .ok entries
  variablesRead : ∀ (setting : Setting) text, s.environment.get? setting.variableName = some text →
    ∃ v, setting.kind.read text = .ok v

section Layers

variable {layers : List (List (String × Value))}

theorem gives_overrides (s : SettingsSources) : Gives s.override? s.givenOverrides := by
  have hnodup : (s.givenOverrides.map Prod.fst).Nodup :=
    s.overrides.nodup.sublist (List.filter_sublist.map Prod.fst)
  refine ⟨hnodup, fun key => Option.ext fun v => ?_⟩
  rw [Table.entryAt?_eq_some_iff hnodup]
  unfold givenOverrides override?
  rw [List.mem_filter, s.overrides.mem_entries_iff]
  grind

theorem gives_named {named : List (String × Value)}
    (h : s.named = none ∧ named = [] ∨ ∃ f, s.named = some f ∧ f.settings = .ok named) :
    Gives (fun key => s.named.bind (·.given? key)) named := by
  obtain ⟨hnone, rfl⟩ | ⟨f, hf, hsettings⟩ := h
  · rw [hnone]
    exact gives_nil
  · rw [hf]
    exact SettingsFile.gives_of_settings hsettings

theorem gives_layers (h : s.layers = .ok layers) :
    List.Forall₂ Gives s.sources.reverse layers := by
  obtain ⟨global, project, named, environment, hglobal, hproject, hnamed, henvironment, rfl⟩ :=
    layers_eq_ok h
  obtain rfl := Setting.allFromEnvironment_eq_ok henvironment
  exact .cons (SettingsFile.gives_of_settingsIfPresent hglobal)
    (.cons (SettingsFile.gives_of_settingsIfPresent hproject)
      (.cons (gives_named hnamed)
        (.cons (Setting.gives_variables _) (.cons s.gives_overrides .nil))))

theorem get?_foldl_insertAll {sources : List (String → Option Value)} (t : Table String Value)
    (h : List.Forall₂ Gives sources layers) (key : String) :
    (layers.foldl Table.insertAll t).get? key =
      (sources.reverse.findSome? (· key)).or (t.get? key) := by
  induction h generalizing t with
  | nil => rfl
  | @cons source layer sources layers hone _ ih =>
    rw [List.foldl_cons, ih, Table.get?_insertAll t hone.nodup, hone.entryAt?, ← Option.or_assoc,
      List.reverse_cons, List.findSome?_append, List.findSome?_singleton]

theorem get?_merge (h : s.layers = .ok layers) (key : String) :
    (merge layers).get? key = s.foremost? key := by
  have hfold := get?_foldl_insertAll ∅ (gives_layers h) key
  rwa [List.reverse_reverse, Table.get?_empty, Option.or_none] at hfold

theorem valuesOf_merge (h : s.layers = .ok layers) : valuesOf (merge layers) = s.given := by
  funext setting
  rw [valuesOf, Table.getD, get?_merge h]
  rfl

end Layers

theorem Readable.exists_variables (h : s.Readable) :
    ∃ pairs, Setting.allFromEnvironment s.environment = .ok pairs := by
  have hone (setting : Setting) : ∃ found,
      Setting.fromEnvironment? s.environment setting = .ok found := by
    unfold Setting.fromEnvironment?
    cases hget : s.environment.get? setting.variableName with
    | none => exact ⟨none, rfl⟩
    | some text =>
      obtain ⟨v, hv⟩ := h.variablesRead setting text hget
      dsimp only
      rw [hv]
      cases v <;> exact ⟨_, rfl⟩
  obtain ⟨found, hfound⟩ := Outcome.exists_mapM fun setting (_ : setting ∈ Setting.all) =>
    hone setting
  exact ⟨found.filterMap id, Outcome.bind_eq_ok.2 ⟨found, hfound, rfl⟩⟩

theorem Readable.exists_layers (h : s.Readable) : ∃ layers, s.layers = .ok layers := by
  rw [← Outcome.failure?_eq_none, failure?_layers,
    Outcome.failure?_eq_none.2 (Outcome.exists_mapM h.filesRead),
    Outcome.failure?_eq_none.2 h.exists_variables]
  rfl

section UnknownKeys

variable {layers : List (List (String × Value))}

theorem unknown_iff (h : s.layers = .ok layers) :
    s.Unknown key ↔ key ∈ (merge layers).keys ∧ Setting.isName key = false := by
  rw [← Table.contains_iff, Table.contains, get?_merge h, foremost?, List.findSome?_isSome_iff]
  exact and_comm

theorem mem_unknownKeys (h : s.layers = .ok layers) :
    key ∈ unknownKeys (merge layers) ↔ s.Unknown key := by
  rw [unknown_iff h, unknownKeys, List.mem_mergeSort, List.mem_filter, Bool.not_eq_true']

theorem leastUnknown_of_unknownKeys {rest : List String} (h : s.layers = .ok layers)
    (hkeys : unknownKeys (merge layers) = key :: rest) : s.LeastUnknown key := by
  have hsorted : (unknownKeys (merge layers)).Pairwise (· ≤ ·) := pairwise_mergeSort_le id _
  refine ⟨(mem_unknownKeys h).1 (hkeys ▸ List.mem_cons_self), fun other hother => ?_⟩
  have hmem := (mem_unknownKeys h).2 hother
  rw [hkeys] at hmem hsorted
  obtain rfl | hrest := List.mem_cons.1 hmem
  · exact le_rfl
  · exact (List.pairwise_cons.1 hsorted).1 other hrest

theorem exists_unknownKeys (h : s.layers = .ok layers) (hunknown : s.Unknown key) :
    ∃ least rest, unknownKeys (merge layers) = least :: rest :=
  List.exists_cons_of_ne_nil (List.ne_nil_of_mem ((mem_unknownKeys h).2 hunknown))

theorem Unknown.exists_value (h : s.Unknown key) : ∃ v, s.foremost? key = some v :=
  Option.isSome_iff_exists.1 (List.findSome?_isSome_iff.2 h.2)

theorem LeastUnknown.unique {key' : String} (h : s.LeastUnknown key) (h' : s.LeastUnknown key') :
    key = key' :=
  le_antisymm (h.2 key' h'.1) (h'.2 key h.1)

theorem load_of_layers (h : s.layers = .ok layers) : s.load = checkMerged (merge layers) := by
  unfold load
  rw [h]
  rfl

theorem load_eq_check (h : s.Readable) (hknown : ∀ key, ¬ s.Unknown key) :
    s.load = check s.given := by
  obtain ⟨layers, hlayers⟩ := h.exists_layers
  have hnone : unknownKeys (merge layers) = [] :=
    List.eq_nil_iff_forall_not_mem.2 fun key hkey => hknown key ((mem_unknownKeys hlayers).1 hkey)
  have hnames := List.all_eq_true.2 (unknownKeys_eq_nil.1 hnone)
  rw [load_of_layers hlayers, checkMerged, hnone, ← valuesOf_merge hlayers]
  exact if_pos hnames

theorem fault_ne_unknownKey : ∀ d ∈ demands, d.fault ≠ .unknownKey := by decide

theorem load_eq_unknownKey (h : s.Readable) :
    s.load = .error (.invalidSetting key v .unknownKey) ↔
      s.LeastUnknown key ∧ s.foremost? key = some v := by
  obtain ⟨layers, hlayers⟩ := h.exists_layers
  have hget : (merge layers).getD key .absent = (s.foremost? key).getD .absent := by
    rw [Table.getD, get?_merge hlayers]
  rw [load_of_layers hlayers, checkMerged_eq_error]
  constructor
  · rintro (⟨key', rest, hkeys, he⟩ | ⟨-, d, hd, he⟩)
    · cases he
      have hleast := leastUnknown_of_unknownKeys hlayers hkeys
      obtain ⟨v, hv⟩ := hleast.1.exists_value
      exact ⟨hleast, by rw [hget, hv, Option.getD_some]⟩
    · have hfault := fault_ne_unknownKey d (List.mem_of_find?_eq_some hd)
      unfold Demand.error at he
      split at he
      · injection he with _ _ he
        exact absurd he hfault
      · cases he
  · rintro ⟨hleast, hv⟩
    obtain ⟨first, rest, hkeys⟩ := exists_unknownKeys hlayers hleast.1
    obtain rfl := hleast.unique (leastUnknown_of_unknownKeys hlayers hkeys)
    exact .inl ⟨key, rest, hkeys, by rw [hget, hv, Option.getD_some]⟩

theorem Unknown.exists_least (h : s.Readable) (hunknown : s.Unknown key) :
    ∃ least v, s.LeastUnknown least ∧ s.foremost? least = some v := by
  obtain ⟨layers, hlayers⟩ := h.exists_layers
  obtain ⟨least, rest, hkeys⟩ := exists_unknownKeys hlayers hunknown
  have hleast := leastUnknown_of_unknownKeys hlayers hkeys
  obtain ⟨v, hv⟩ := hleast.1.exists_value
  exact ⟨least, v, hleast, hv⟩

end UnknownKeys

def report? (s : SettingsSources) : Option Report :=
  (Outcome.failure? s.load).bind RankingError.report?

theorem readable_overrides (t : Table String Value) :
    Readable ⟨⟨"", .missing⟩, ⟨"", .missing⟩, none, ∅, t⟩ where
  filesRead _ hf := absurd hf List.not_mem_nil
  variablesRead setting text hget := by
    rw [Table.get?_empty] at hget
    cases hget

end SettingsSources

end DependencyRanking
