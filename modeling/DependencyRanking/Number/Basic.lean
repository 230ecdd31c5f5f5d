import DependencyRanking.Decimal.Shortest

/-!
# Numbers as they are given

A given number is a truth value, an integer of any size or a double, and keeps its form. Numbers
compare by their exact values; truth values count as one and zero, and an undefined double compares
with nothing.
-/
namespace DependencyRanking

/-- A number in the form in which it was given. -/
inductive Number where
  | flag (b : Bool)
  | int (n : Int)
  | float (x : Float)

namespace Number

def parts : Number → Double.Parts
  | .flag b => .finite false b.toNat 0
  | .int n => .finite (n < 0) n.natAbs 0
  | .float x => .ofFloat x

/-- The order of the exact values. -/
def compare? (a b : Number) : Option Ordering := a.parts.compare? b.parts

instance : LT Number where
  lt a b := a.compare? b = some .lt

instance : LE Number where
  le a b := a.compare? b = some .lt ∨ a.compare? b = some .eq

instance (a b : Number) : Decidable (a < b) := inferInstanceAs (Decidable (_ = _))

instance (a b : Number) : Decidable (a ≤ b) := inferInstanceAs (Decidable (_ ∨ _))

instance : BEq Number where
  beq a b := a.compare? b == some .eq

theorem le_def (a b : Number) : a ≤ b ↔ a.compare? b = some .lt ∨ a.compare? b = some .eq := Iff.rfl

def toInt? : Number → Option Int
  | .flag b => some b.toNat
  | .int n => some n
  | .float _ => none

def toFloat? : Number → Option Float
  | .flag b => some (if b then 1.0 else 0.0)
  | .int n =>
    let x := Double.ofInt n
    if x.isFinite then some x else none
  | .float x => some x

def text : Number → String
  | .flag b => if b then "True" else "False"
  | .int n => toString n
  | .float x => Double.text x

/-- The greatest number of decimal digits with which an integer is read or written. -/
def maxDigits : Nat := 4300

def isWritable : Number → Bool
  | .int n => n.natAbs < Nat.pow 10 maxDigits
  | _ => true

def isTrue : Number → Bool
  | .flag b => b
  | .int n => n ≠ 0
  | .float x => !(x == 0.0)

instance : OfScientific Number where
  ofScientific digits down places := .float (OfScientific.ofScientific digits down places)

end Number

class Measured (ν : Type) where
  number : ν → Number

instance : Measured Number := ⟨id⟩

instance : Measured Float := ⟨.float⟩

end DependencyRanking
