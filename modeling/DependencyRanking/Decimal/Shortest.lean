import DependencyRanking.Decimal.Basic

/-!
# The shortest text of a double

Of the decimals that read back as a given double, the shortest is chosen, and of the shortest the
nearest. `text` writes it by position from `0.0001` up to below `10^16`, always with a point, and
in scientific notation outside that range.
-/
namespace DependencyRanking

namespace Decimal

/-- The values that read back as the double `m · 2^e`, in units of `1 / den`: its own value, the
lowest and the highest one, and whether the two ends belong. -/
structure Interval where
  low : Nat
  value : Nat
  high : Nat
  den : Nat
  closed : Bool

/-- The lower neighbour is half as far below a power of two. -/
def Interval.ofDouble (mantissa : Nat) (exponent : Int) : Interval :=
  let below := if mantissa = Nat.pow 2 52 ∧ -1074 < exponent then 1 else 2
  let unit := exponent - 2
  let factor := if unit < 0 then 1 else Nat.pow 2 unit.toNat
  { low := (4 * mantissa - below) * factor
    value := 4 * mantissa * factor
    high := (4 * mantissa + 2) * factor
    den := if unit < 0 then Nat.pow 2 (-unit).toNat else 1
    closed := mantissa % 2 = 0 }

/-- The nearer of the two multiples of `10^exponent` around the value, if it or else its
companion lies in the interval. A tie goes to the even multiple. -/
def Interval.pick (i : Interval) (exponent : Int) : Option Decimal :=
  let (value, den) := onGrid i.value i.den exponent
  let low := (onGrid i.low i.den exponent).1
  let high := (onGrid i.high i.den exponent).1
  let q := value / den
  let down := if i.closed then low ≤ q * den else low < q * den
  let up := if i.closed then (q + 1) * den ≤ high else (q + 1) * den < high
  if down ∧ up then some ⟨roundHalfEven value den, exponent⟩
  else if down then some ⟨q, exponent⟩
  else if up then some ⟨q + 1, exponent⟩
  else none

def Interval.search (i : Interval) (leading : Int) : (more places : Nat) → Decimal
  | 0, places => roundSignificant i.value i.den places
  | more + 1, places =>
    match i.pick (leading - places) with
    | some d => d
    | none => i.search leading more (places + 1)

/-- The shortest decimal that reads back as `mantissa · 2^exponent`; seventeen digits always do. -/
def shortest (mantissa : Nat) (exponent : Int) : Decimal :=
  let i := Interval.ofDouble mantissa exponent
  i.search (leadingExponent i.value i.den) 16 0

def stripZeros (digits : List Char) : List Char :=
  (digits.reverse.dropWhile (· == '0')).reverse

def text (d : Decimal) : String :=
  let digits := (toString d.digits).toList
  let leading : Int := d.exponent + digits.length - 1
  let kept := stripZeros digits
  if -4 ≤ leading ∧ leading < 16 then
    if leading < 0 then
      "0." ++ String.ofList (List.replicate (-leading - 1).toNat '0' ++ kept)
    else
      let whole := leading.toNat + 1
      let padded := kept ++ List.replicate (whole - kept.length) '0'
      let tail := padded.drop whole
      String.ofList (padded.take whole) ++ "."
        ++ String.ofList (if tail.isEmpty then ['0'] else tail)
  else
    let tail := kept.drop 1
    String.ofList (kept.take 1) ++ (if tail.isEmpty then "" else "." ++ String.ofList tail)
      ++ exponentText leading

end Decimal

def Double.text (x : Float) : String :=
  match Parts.ofFloat x with
  | .undefined => "nan"
  | .infinite negative => if negative then "-inf" else "inf"
  | .finite negative 0 _ => if negative then "-0.0" else "0.0"
  | .finite negative m e => (if negative then "-" else "") ++ (Decimal.shortest m e).text

end DependencyRanking
