import DependencyRanking.Settings.Config
import DependencyRanking.Text.Numeral

/-!
# Settings from environment variables

Every setting can be given as a variable, the root's name and the setting's name in capitals. The
kind of the setting says how the text is read.
-/
namespace DependencyRanking

inductive VariableKind where
  | flag
  | integer
  | float
  | text
  | unsupported
  | optional (kind : VariableKind)

namespace VariableKind

def trueWords : List String := ["true", "1", "yes", "on"]

def falseWords : List String := ["false", "0", "no", "off"]

/-- A word for true or false in any case. No character outside ASCII has its lower-case form in one
of the words, so the case of ASCII letters is all that counts. -/
def readFlag (text : String) : Except VariableFault Value :=
  let word := String.ofList (text.toList.map Char.toLower)
  if word ∈ trueWords then .ok (.number (.flag true))
  else if word ∈ falseWords then .ok (.number (.flag false))
  else .error (.notFlag text)

/-- The number of leading digits of a text, if that is more than an integer may have. What follows
the digits does not matter, unless an underscore does. -/
def excessDigits? (text : String) : Option Nat :=
  let (digits, rest) := Text.splitDigits (Text.splitSign (Text.trimMargins text.toList)).2
  if Number.maxDigits < digits.length ∧ rest.head? ≠ some '_' then some digits.length else none

def readInteger (text : String) : Except VariableFault Value :=
  match excessDigits? text with
  | some digits => .error (.tooLong digits)
  | none =>
    match Text.readInteger? text with
    | some n => .ok (.number (.int n))
    | none => .error (.notInteger text)

def read (text : String) : VariableKind → Except VariableFault Value
  | flag => readFlag text
  | integer => readInteger text
  | float =>
    match Text.readDouble? text with
    | some x => .ok (.number (.float x))
    | none => .error (.notFloat text)
  | .text => .ok (.text text)
  | unsupported => .ok .absent
  | optional kind => read text kind

end VariableKind

namespace Setting

def kind : Setting → VariableKind
  | damping => .float
  | tolerance => .float
  | iterations => .integer
  | criticalPercentile => .integer
  | highPercentile => .integer
  | mediumPercentile => .integer
  | coreQuantile => .float
  | criticalRisk => .float
  | highRisk => .float
  | mediumRisk => .float
  | hotspotLimit => .optional .integer
  | parallel => .flag
  | workers => .optional .integer

def variableName (s : Setting) : String := "MODRANK_" ++ s.name.toUpper

def fromEnvironment? (environment : Table String String) (s : Setting) :
    Except RankingError (Option (String × Value)) :=
  match environment.get? s.variableName with
  | none => .ok none
  | some text =>
    match s.kind.read text with
    | .ok .absent => .ok none
    | .ok value => .ok (some (s.name, value))
    | .error fault =>
      .error (.invalidSetting s.name (.text text) (.badVariable s.variableName fault))

def allFromEnvironment (environment : Table String String) :
    Except RankingError (List (String × Value)) := do
  let found ← all.mapM (fromEnvironment? environment)
  pure (found.filterMap id)

end Setting

end DependencyRanking
