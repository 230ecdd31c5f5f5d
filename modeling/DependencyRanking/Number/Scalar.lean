import DependencyRanking.Decimal.Places
import DependencyRanking.Number.Basic

/-!
# The arithmetic of the measures

The measures are written once over a scalar type. They run on doubles, where every operation
rounds, and can be read over the rational numbers, where none does.
-/
namespace DependencyRanking

/-- The operations that the measures need. Comparison may be partial: an undefined double is
neither below nor above anything, and differs from itself. -/
class Scalar (α : Type) extends Zero α, One α, Add α, Sub α, Mul α, Div α, Neg α, LT α, LE α,
    BEq α, OfScientific α where
  [decLt : DecidableLT α]
  [decLe : DecidableLE α]
  ofNat : Nat → α
  ofInt : Int → α
  atMost : α → Int → Bool
  ratio : Int → Int → α
  abs : α → α
  floor : α → Nat
  roundPlaces : Nat → α → α
  roundInt : α → Int

-- A type that has its own arithmetic keeps it; the class serves generic scalars only.
attribute [instance (100)] Scalar.toZero Scalar.toOne Scalar.toAdd Scalar.toSub Scalar.toMul
  Scalar.toDiv Scalar.toNeg Scalar.toLT Scalar.toLE Scalar.toBEq Scalar.toOfScientific

instance (priority := 100) Scalar.decidableLt {α : Type} [Scalar α] (a b : α) :
    Decidable (a < b) :=
  Scalar.decLt a b

instance (priority := 100) Scalar.decidableLe {α : Type} [Scalar α] (a b : α) :
    Decidable (a ≤ b) :=
  Scalar.decLe a b

instance : Scalar Float where
  zero := 0.0
  one := 1.0
  ofNat := Float.ofNat
  ofInt := Double.ofInt
  atMost x n := decide (Number.float x ≤ Number.int n)
  ratio a b := Double.ofQuotient ((a < 0) != (b < 0)) a.natAbs b.natAbs
  abs := Float.abs
  floor := Double.floorNat
  roundPlaces := Double.roundPlaces
  roundInt := Double.roundInt

end DependencyRanking
