import DependencyRanking.Decimal.Basic

/-!
# Scientific notation with a fixed number of places

`Double.scientific p x` writes one digit before the point and `p` after it, rounded from the exact
value with ties to even, and an exponent of at least two digits.
-/
namespace DependencyRanking

def Decimal.scientific (d : Decimal) (places : Nat) : String :=
  let digits := (toString d.digits).toList
  let tail := digits.drop 1
  String.ofList (digits.take 1) ++ (if tail.isEmpty then "" else "." ++ String.ofList tail)
    ++ exponentText (d.exponent + places)

def Double.quotient (mantissa : Nat) (exponent : Int) : Nat × Nat :=
  if exponent < 0 then (mantissa, Nat.pow 2 (-exponent).toNat)
  else (mantissa * Nat.pow 2 exponent.toNat, 1)

def Double.scientific (places : Nat) (x : Float) : String :=
  match Parts.ofFloat x with
  | .undefined => "nan"
  | .infinite negative => if negative then "-inf" else "inf"
  | .finite negative m e =>
    let sign := if negative then "-" else ""
    if m = 0 then
      sign ++ "0" ++ (if places = 0 then "" else "." ++ String.ofList (List.replicate places '0'))
        ++ "e+00"
    else
      let (num, den) := Double.quotient m e
      sign ++ (Decimal.roundSignificant num den places).scientific places

end DependencyRanking
