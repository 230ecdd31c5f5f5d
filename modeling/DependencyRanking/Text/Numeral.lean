import DependencyRanking.Number.Double
import DependencyRanking.Text.Blank
import DependencyRanking.Text.Digit

/-!
# Reading numbers from text

Blanks around a number are dropped, the separators of ASCII excepted. Digits of any script are
accepted, and single underscores between digits.
-/
namespace DependencyRanking.Text

def isMargin (c : Char) : Bool := isBlankChar c && !(28 ≤ c.toNat && c.toNat ≤ 31)

def trimMargins (cs : List Char) : List Char :=
  ((cs.dropWhile isMargin).reverse.dropWhile isMargin).reverse

def splitSign : List Char → Bool × List Char
  | '-' :: rest => (true, rest)
  | '+' :: rest => (false, rest)
  | cs => (false, cs)

def startsWithDigit : List Char → Bool
  | [] => false
  | c :: _ => (digitValue? c).isSome

def digitsFrom (afterDigit : Bool) : List Char → List Nat × List Char
  | [] => ([], [])
  | c :: rest =>
    match digitValue? c with
    | some d =>
      let p := digitsFrom true rest
      (d :: p.1, p.2)
    | none =>
      if afterDigit && c == '_' && startsWithDigit rest then digitsFrom false rest
      else ([], c :: rest)

def splitDigits (cs : List Char) : List Nat × List Char := digitsFrom false cs

def ofDigits (digits : List Nat) : Nat := digits.foldl (fun n d => 10 * n + d) 0

def readInteger? (text : String) : Option Int :=
  let (negative, cs) := splitSign (trimMargins text.toList)
  match splitDigits cs with
  | ([], _) => none
  | (digits, []) =>
    let n : Int := ofDigits digits
    some (if negative then -n else n)
  | _ => none

/-- The double nearest to `±digits · 10^exponent`. Exponents that lie far outside the range of
doubles need no powers of ten. -/
def doubleOf (negative : Bool) (digits : List Nat) (exponent : Int) : Float :=
  let n := ofDigits digits
  let size : Int := (toString n).length + exponent
  if n = 0 then Double.ofQuotient negative 0 1
  else if 400 < size then Double.ofQuotient negative (Nat.pow 10 400) 1
  else if size < -400 then Double.ofQuotient negative 0 1
  else Double.ofDecimal negative n exponent

def readExponent? : List Char → Option Int
  | [] => some 0
  | c :: rest =>
    if c = 'e' ∨ c = 'E' then
      let (negative, cs) := splitSign rest
      match splitDigits cs with
      | ([], _) => none
      | (digits, []) =>
        let n : Int := ofDigits digits
        some (if negative then -n else n)
      | _ => none
    else none

def readDecimal? (negative : Bool) (cs : List Char) : Option Float :=
  let (whole, rest) := splitDigits cs
  let (tenths, rest) := match rest with
    | '.' :: rest => splitDigits rest
    | rest => ([], rest)
  if whole.isEmpty ∧ tenths.isEmpty then none
  else (readExponent? rest).map fun e => doubleOf negative (whole ++ tenths) (e - tenths.length)

def readDouble? (text : String) : Option Float :=
  let (negative, cs) := splitSign (trimMargins text.toList)
  let name := String.ofList (cs.map Char.toLower)
  if name = "inf" ∨ name = "infinity" then some (if negative then -1.0 / 0.0 else 1.0 / 0.0)
  else if name = "nan" then some (0.0 / 0.0)
  else readDecimal? negative cs

end DependencyRanking.Text
