import DependencyRanking.Number.Double

/-!
# Positive quotients on decimal grids

A positive quotient `num / den` is placed between powers of ten, and rounded to a number of
significant digits. Both are exact: only natural numbers are used.
-/
namespace DependencyRanking

structure Decimal where
  digits : Nat
  exponent : Int
deriving DecidableEq, Repr

namespace Decimal

def reaches (num den : Nat) (k : Int) : Bool :=
  if k < 0 then den ≤ num * Nat.pow 10 (-k).toNat else den * Nat.pow 10 k.toNat ≤ num

/-- The greatest `k` with `10^k ≤ num / den`, for a positive quotient. The guess from the binary
exponent is at most one off. -/
def leadingExponent (num den : Nat) : Int :=
  let guess := Double.binaryExponent num den * 30103 / 100000
  if reaches num den (guess + 1) then guess + 1
  else if reaches num den guess then guess
  else guess - 1

def onGrid (num den : Nat) (k : Int) : Nat × Nat :=
  if k < 0 then (num * Nat.pow 10 (-k).toNat, den) else (num, den * Nat.pow 10 k.toNat)

/-- The decimal with `places + 1` significant digits nearest to `num / den`, ties to even. -/
def roundSignificant (num den places : Nat) : Decimal :=
  let exponent := leadingExponent num den - places
  let (n, d) := onGrid num den exponent
  let digits := roundHalfEven n d
  if digits = Nat.pow 10 (places + 1) then ⟨Nat.pow 10 places, exponent + 1⟩ else ⟨digits, exponent⟩

def exponentText (k : Int) : String :=
  let size := toString k.natAbs
  let padded := if size.length < 2 then "0" ++ size else size
  (if k < 0 then "e-" else "e+") ++ padded

end Decimal

end DependencyRanking
