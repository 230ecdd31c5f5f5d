import DependencyRanking.Number.Rounding

/-!
# The exact value of a double

A finite double is `±m · 2^e`. `Parts.ofFloat` reads sign, `m` and `e` off the bits, and
`ofQuotient` goes back: it rounds an exact quotient once, to the nearest double, ties to even.
-/
namespace DependencyRanking.Double

/-- What a double stands for. -/
inductive Parts where
  | undefined
  | infinite (negative : Bool)
  | finite (negative : Bool) (mantissa : Nat) (exponent : Int)
deriving DecidableEq, Repr

def Parts.ofFloat (x : Float) : Parts :=
  let bits : Nat := x.toBits.toNat
  let negative : Bool := bits / Nat.pow 2 63 % 2 = 1
  let biased : Nat := bits / Nat.pow 2 52 % Nat.pow 2 11
  let fraction : Nat := bits % Nat.pow 2 52
  if biased = 2047 then
    if fraction = 0 then .infinite negative else .undefined
  else if biased = 0 then .finite negative fraction (-1074)
  else .finite negative (fraction + Nat.pow 2 52) ((biased : Int) - 1075)

def scaled (negative : Bool) (mantissa : Nat) (exponent base : Int) : Int :=
  let m : Int := mantissa * Nat.pow 2 (exponent - base).toNat
  if negative then -m else m

def Parts.compare? : Parts → Parts → Option Ordering
  | .undefined, _ => none
  | _, .undefined => none
  | .infinite s, .infinite t => some (compare (!s) (!t))
  | .infinite s, .finite .. => some (if s then .lt else .gt)
  | .finite .., .infinite t => some (if t then .gt else .lt)
  | .finite s m e, .finite t n f =>
    let base := min e f
    some (compare (scaled s m e base) (scaled t n f base))

def binaryExponent (num den : Nat) : Int :=
  let guess : Int := (num.log2 : Int) - den.log2
  let reached :=
    if guess < 0 then den ≤ num * Nat.pow 2 (-guess).toNat else den * Nat.pow 2 guess.toNat ≤ num
  if reached then guess else guess - 1

/-- The double with bits for `mantissa · 2^exponent`, where the exponent is at least `-1074` and
the mantissa fills 53 bits unless the exponent is the least one. -/
def assemble (negative : Bool) (mantissa : Nat) (exponent : Int) : Float :=
  let magnitude := (exponent + 1074).toNat * Nat.pow 2 52 + mantissa
  let bounded := min magnitude (2047 * Nat.pow 2 52)
  Float.ofBits (UInt64.ofNat (if negative then Nat.pow 2 63 + bounded else bounded))

/-- The double nearest to `±num / den`, ties to even; infinite if that is too large. -/
def ofQuotient (negative : Bool) (num den : Nat) : Float :=
  if num = 0 then assemble negative 0 (-1074)
  else
    let exponent := max (binaryExponent num den - 52) (-1074)
    let mantissa :=
      if exponent < 0 then roundHalfEven (num * Nat.pow 2 (-exponent).toNat) den
      else roundHalfEven num (den * Nat.pow 2 exponent.toNat)
    assemble negative mantissa exponent

def ofInt (n : Int) : Float := ofQuotient (n < 0) n.natAbs 1

def ofDecimal (negative : Bool) (digits : Nat) (exponent : Int) : Float :=
  if exponent < 0 then ofQuotient negative digits (Nat.pow 10 (-exponent).toNat)
  else ofQuotient negative (digits * Nat.pow 10 exponent.toNat) 1

end DependencyRanking.Double
