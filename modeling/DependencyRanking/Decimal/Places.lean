import DependencyRanking.Decimal.Scientific

/-!
# Rounding a double to decimal places

The exact value is rounded to the nearest multiple of `10^-places`, ties to the even multiple, and
the multiple is read back as a double. The sign is kept, also that of a zero.
-/
namespace DependencyRanking.Double

def roundPlaces (places : Nat) (x : Float) : Float :=
  match Parts.ofFloat x with
  | .undefined => x
  | .infinite _ => x
  | .finite negative m e =>
    let (num, den) := quotient m e
    ofDecimal negative (roundHalfEven (num * Nat.pow 10 places) den) (-(places : Int))

def roundInt (x : Float) : Int :=
  match Parts.ofFloat x with
  | .undefined => 0
  | .infinite _ => 0
  | .finite negative m e =>
    let (num, den) := quotient m e
    let n : Int := roundHalfEven num den
    if negative then -n else n

def floorNat (x : Float) : Nat :=
  match Parts.ofFloat x with
  | .undefined => 0
  | .infinite _ => 0
  | .finite negative m e =>
    let (num, den) := quotient m e
    if negative then 0 else num / den

end DependencyRanking.Double
