import Mathlib
import DependencyRanking.Number.Scalar

/-!
# The measures without rounding

Over the rational numbers every operation of the measures is exact; only rounding to places still
rounds, a half to the even neighbour. Laws of the measures that hold up to rounding hold there as
they stand.
-/
namespace DependencyRanking

def roundRat (x : ℚ) (scale : ℕ) : ℤ := roundHalfEvenInt (x.num * scale) x.den

instance Scalar.exact : Scalar ℚ where
  ofNat n := n
  ofInt n := n
  atMost x n := decide (x ≤ n)
  ratio a b := a / b
  abs x := |x|
  floor x := ⌊x⌋₊
  roundPlaces places x := roundRat x (10 ^ places) / 10 ^ places
  roundInt x := roundRat x 1

end DependencyRanking
