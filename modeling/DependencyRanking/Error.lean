import DependencyRanking.Table
import DependencyRanking.Value

/-!
# What can go wrong

Errors are causes. Rejected edges and settings come with a report that names the offending values;
the other causes say which demand on the input was not met.
-/
namespace DependencyRanking

inductive IdRole where
  | endpoint
  | isolated
deriving DecidableEq, Repr

def IdRole.name : IdRole → String
  | .endpoint => "module id"
  | .isolated => "isolated module id"

inductive EdgeFault where
  | textForPair
  | notPair
  | notText (role : IdRole) (kind : String)
  | blank (role : IdRole)
deriving DecidableEq, Repr

def EdgeFault.reason : EdgeFault → String
  | .textForPair => "edge must be a (source, target) pair, not a string"
  | .notPair => "edge must be a (source, target) pair"
  | .notText role kind => role.name ++ " must be a string, got " ++ kind
  | .blank role => role.name ++ " is empty or blank"

inductive VariableFault where
  | notInteger (text : String)
  | notFloat (text : String)
  | notFlag (text : String)
  | tooLong (digits : Nat)
deriving DecidableEq, Repr

def VariableFault.reason : VariableFault → String
  | .notInteger text => "invalid literal for int() with base 10: "
      ++ String.ofList ((Text.quoted text).toList.take 200)
  | .notFloat text => "could not convert string to float: " ++ Text.quoted text
  | .notFlag text => "expected true/false, got '" ++ text ++ "'"
  | .tooLong digits => "Exceeds the limit (" ++ toString Number.maxDigits
      ++ " digits) for integer string conversion: value has " ++ toString digits
      ++ " digits; use sys.set_int_max_str_digits() to increase the limit"

inductive SettingFault where
  | outsideOpenUnit
  | notPositive
  | belowOne
  | outsidePercent
  | percentilesOutOfOrder
  | outsideUnit
  | risksOutOfOrder
  | unknownKey
  | notTable
  | fileMissing
  | isDirectory (path : String)
  | notToml
  | badVariable (name : String) (fault : VariableFault)
deriving DecidableEq, Repr

def SettingFault.reason : SettingFault → String
  | .outsideOpenUnit => "must be between 0.0 and 1.0 (exclusive)"
  | .notPositive => "must be positive"
  | .belowOne => "must be at least 1"
  | .outsidePercent => "must be between 0 and 100"
  | .percentilesOutOfOrder => "percentile cutoffs must satisfy critical >= high >= medium"
  | .outsideUnit => "must be between 0.0 and 1.0"
  | .risksOutOfOrder => "phase risk cutoffs must satisfy critical >= high >= medium"
  | .unknownKey => "unknown configuration key"
  | .notTable => "expected a table"
  | .fileMissing => "file not found"
  | .isDirectory path => "[Errno 21] Is a directory: " ++ Text.quoted path
  | .notToml => "<toml error>"
  | .badVariable name fault => name ++ ": " ++ fault.reason

inductive RankingError where
  | invalidEdge (source target : Value) (fault : EdgeFault)
  | invalidSetting (key : String) (value : Value) (fault : SettingFault)
  | wrongType
  | missingEntry
  | nothingToChoose
  | quantileOutOfRange
  | unknownRiskLevel
  | positionOutOfRange
  | numberTooLarge
  | invalidEncoding
  | integerTooLong

inductive ReportKind where
  | general
  | graph
  | invalidEdge
  | configuration
  | invalidSetting
deriving DecidableEq, Repr

def ReportKind.ancestors : ReportKind → List ReportKind
  | .general => []
  | .graph => [.general]
  | .configuration => [.general]
  | .invalidEdge => [.graph, .general]
  | .invalidSetting => [.configuration, .general]

structure Report where
  kind : ReportKind
  message : String
  details : List (String × String)
deriving DecidableEq, Repr

namespace Report

def text (r : Report) : String :=
  if r.details.isEmpty then r.message
  else
    r.message ++ " (" ++ ", ".intercalate (r.details.map fun d => d.1 ++ "=" ++ d.2) ++ ")"

def ofDetails (kind : ReportKind) (message : String) (details : List (String × Value)) : Report :=
  ⟨kind, message, (Table.ofPairs details).entries.map fun d => (d.1, d.2.plain)⟩

def ofEdge (source target : Value) (reason : String) : Report :=
  ⟨.invalidEdge, "Invalid edge: " ++ source.display ++ " -> " ++ target.display,
    [("source", source.display), ("target", target.display), ("reason", reason)]⟩

def ofSetting (key : String) (value : Value) (reason : String) : Report :=
  ⟨.invalidSetting, "Invalid configuration for " ++ key ++ ": " ++ value.plain,
    [("key", key), ("value", value.plain), ("reason", reason)]⟩

end Report

/-- The report of an error. There is none if a value that it names cannot be written. -/
def RankingError.report? : RankingError → Option Report
  | .invalidEdge source target fault =>
    if source.isWritable && target.isWritable then some (.ofEdge source target fault.reason)
    else none
  | .invalidSetting key value fault =>
    if value.isWritable then some (.ofSetting key value fault.reason) else none
  | _ => none

end DependencyRanking
