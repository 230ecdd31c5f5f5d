import DependencyRanking.Document.Reader
import DependencyRanking.Settings.Variable

/-!
# Settings from several sources

The sources are, from the lowest to the highest: the defaults, a global file, a project file, a file
that is named, environment variables and overrides. The value of a setting is that of the highest
source that has one. Keys that are no settings are errors, the least one first.
-/
namespace DependencyRanking

inductive FileContent where
  | missing
  | directory
  | bytes (data : ByteArray)

structure SettingsFile where
  path : String
  content : FileContent

structure SettingsSources where
  global : SettingsFile
  project : SettingsFile
  named : Option SettingsFile := none
  environment : Table String String := ∅
  overrides : Table String Value := ∅

namespace SettingsFile

def fail {α : Type} (f : SettingsFile) (fault : SettingFault) : Except RankingError α :=
  .error (.invalidSetting "config_file" (.text f.path) fault)

/-- The settings of a document: those of its `ranking` table, or its own if it has none. -/
def section? (document : List (String × Value)) : Except RankingError (List (String × Value)) :=
  match entryAt? "ranking" document with
  | none => .ok document
  | some (.table entries) => .ok entries
  | some value => .error (.invalidSetting "ranking" value .notTable)

def settings (f : SettingsFile) : Except RankingError (List (String × Value)) :=
  match f.content with
  | .missing => f.fail .fileMissing
  | .directory => f.fail (.isDirectory f.path)
  | .bytes data =>
    match String.fromUTF8? data with
    | none => .error .invalidEncoding
    | some text =>
      match Document.read text with
      | .error .malformed => f.fail .notToml
      | .error .tooLong => .error .integerTooLong
      | .ok document => section? document

def settingsIfPresent (f : SettingsFile) : Except RankingError (List (String × Value)) :=
  match f.content with
  | .missing => .ok []
  | _ => f.settings

end SettingsFile

namespace SettingsSources

def givenOverrides (s : SettingsSources) : List (String × Value) :=
  s.overrides.entries.filter fun o =>
    match o.2 with
    | .absent => false
    | _ => true

def layers (s : SettingsSources) : Except RankingError (List (List (String × Value))) := do
  let global ← s.global.settingsIfPresent
  let project ← s.project.settingsIfPresent
  let named ← match s.named with
    | none => Except.ok []
    | some f => f.settings
  let environment ← Setting.allFromEnvironment s.environment
  pure [global, project, named, environment, s.givenOverrides]

def merge (layers : List (List (String × Value))) : Table String Value :=
  layers.foldl Table.insertAll ∅

def unknownKeys (merged : Table String Value) : List String :=
  (merged.keys.filter fun key => !Setting.isName key).mergeSort fun a b => decide (a ≤ b)

def checkMerged (merged : Table String Value) : Except RankingError RankingConfig :=
  match unknownKeys merged with
  | key :: _ => .error (.invalidSetting key (merged.getD key .absent) .unknownKey)
  | [] => RankingConfig.ofTable merged

def load (s : SettingsSources) : Except RankingError RankingConfig := do
  let layers ← s.layers
  checkMerged (merge layers)

end SettingsSources

end DependencyRanking
