import DependencyRanking.Value

/-!
# The parts of a settings document

What a reader yields comes with the text behind it. A text that breaks the rules of the format is
told apart from one with a decimal integer of too many digits.
-/
namespace DependencyRanking.Document

abbrev Path := List String

abbrev Entries := List (String × Value)

inductive Fault where
  | malformed
  | tooLong
deriving DecidableEq, Repr

def orMalformed {α : Type} : Option α → Except Fault α
  | some a => .ok a
  | none => .error .malformed

def isSpace (c : Char) : Bool := c == ' ' || c == '\t'

def isSpaceOrNewline (c : Char) : Bool := isSpace c || c == '\n'

def skipSpaces (cs : List Char) : List Char := cs.dropWhile isSpace

def isForbidden (c : Char) : Bool := (c.toNat < 32 || c.toNat == 127) && c != '\t'

def isForbiddenInLines (c : Char) : Bool := isForbidden c && c != '\n'

end DependencyRanking.Document
