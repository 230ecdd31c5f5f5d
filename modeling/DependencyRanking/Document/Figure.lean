import DependencyRanking.Document.Basic
import DependencyRanking.Text.Numeral

/-!
# Numbers, dates and times in a settings document

Integers are decimal, hexadecimal, octal or binary; doubles have a fraction or an exponent. Single
underscores may stand between digits. Only of a decimal integer the digits are limited. Dates and
times are checked and written in one form.
-/
namespace DependencyRanking.Document

def isDecimalDigit (c : Char) : Bool := '0' ≤ c && c ≤ '9'

def digitsWhile (isDigit : Char → Bool) (afterDigit : Bool) : List Char → List Char × List Char
  | [] => ([], [])
  | c :: rest =>
    if isDigit c then
      let p := digitsWhile isDigit true rest
      (c :: p.1, p.2)
    else if afterDigit && c == '_' && (rest.head?.any isDigit) then digitsWhile isDigit false rest
    else ([], c :: rest)

def valueOf (base : Nat) (digits : List Char) : Nat :=
  digits.foldl (fun n c => base * n + (if isDecimalDigit c then c.toNat - 48
    else if 'a' ≤ c then c.toNat - 87 else c.toNat - 55)) 0

def decimalDigits (cs : List Char) : List Char × List Char := digitsWhile isDecimalDigit false cs

def isHexDigit (c : Char) : Bool :=
  isDecimalDigit c || ('a' ≤ c && c ≤ 'f') || ('A' ≤ c && c ≤ 'F')

def isOctalDigit (c : Char) : Bool := '0' ≤ c && c ≤ '7'

def isBinaryDigit (c : Char) : Bool := c == '0' || c == '1'

def readBased (base : Nat) (isDigit : Char → Bool) (cs : List Char) : Option (Value × List Char) :=
  match digitsWhile isDigit false cs with
  | ([], _) => none
  | (digits, rest) => some (.number (.int (valueOf base digits)), rest)

def readWhole : List Char → Option (List Char × List Char)
  | [] => none
  | c :: rest =>
    if c = '0' then some (['0'], rest)
    else if isDecimalDigit c then some (decimalDigits (c :: rest))
    else none

def readFraction : List Char → List Char × List Char
  | '.' :: rest =>
    match decimalDigits rest with
    | ([], _) => ([], '.' :: rest)
    | p => p
  | cs => ([], cs)

def readPower (cs : List Char) : Option Int × List Char :=
  match cs with
  | [] => (none, [])
  | c :: rest =>
    if c = 'e' ∨ c = 'E' then
      let (negative, after) := Text.splitSign rest
      match decimalDigits after with
      | ([], _) => (none, c :: rest)
      | (digits, left) =>
        let n : Int := valueOf 10 digits
        (some (if negative then -n else n), left)
    else (none, c :: rest)

/-- The integer with some decimal digits, unless they are too many. -/
def integerOf (negative : Bool) (digits : List Char) : Except Fault Value :=
  if Number.maxDigits < digits.length then .error .tooLong
  else
    let n : Int := valueOf 10 digits
    .ok (.number (.int (if negative then -n else n)))

def readDecimalNumber (cs : List Char) : Option (Except Fault Value × List Char) :=
  let (negative, after) := Text.splitSign cs
  match readWhole after with
  | none => none
  | some (whole, rest) =>
    let (tenths, rest) := readFraction rest
    let (power, rest) := readPower rest
    if tenths.isEmpty ∧ power.isNone then some (integerOf negative whole, rest)
    else
      let digits := (whole ++ tenths).map fun c => c.toNat - 48
      let x := Text.doubleOf negative digits (power.getD 0 - tenths.length)
      some (.ok (.number (.float x)), rest)

def readSpecial (cs : List Char) : Option (Value × List Char) :=
  let (negative, after) := Text.splitSign cs
  match after with
  | 'i' :: 'n' :: 'f' :: rest =>
    some (.number (.float (if negative then -1.0 / 0.0 else 1.0 / 0.0)), rest)
  | 'n' :: 'a' :: 'n' :: rest => some (.number (.float (0.0 / 0.0)), rest)
  | _ => none

def readPrefixed (cs : List Char) : Option (Value × List Char) :=
  match cs with
  | '0' :: 'x' :: rest => readBased 16 isHexDigit rest
  | '0' :: 'o' :: rest => readBased 8 isOctalDigit rest
  | '0' :: 'b' :: rest => readBased 2 isBinaryDigit rest
  | _ => none

def readNumber (cs : List Char) : Except Fault (Value × List Char) :=
  match readPrefixed cs with
  | some r => .ok r
  | none =>
    match readDecimalNumber cs with
    | some (value, rest) => value.map fun v => (v, rest)
    | none => orMalformed (readSpecial cs)

def readPair (least most : Nat) : List Char → Option (Nat × List Char)
  | a :: b :: rest =>
    if isDecimalDigit a && isDecimalDigit b then
      let n := valueOf 10 [a, b]
      if least ≤ n ∧ n ≤ most then some (n, rest) else none
    else none
  | _ => none

def readChar (c : Char) : List Char → Option (List Char)
  | d :: rest => if d = c then some rest else none
  | [] => none

def twoDigits (n : Nat) : String := (if n < 10 then "0" else "") ++ toString n

def fractionText (digits : List Char) : String :=
  let kept := (digits ++ List.replicate 6 '0').take 6
  if kept.all (· == '0') then "" else "." ++ String.ofList kept

def readTime (cs : List Char) : Option (String × List Char) := do
  let (hour, cs) ← readPair 0 23 cs
  let cs ← readChar ':' cs
  let (minute, cs) ← readPair 0 59 cs
  let cs ← readChar ':' cs
  let (second, cs) ← readPair 0 59 cs
  let whole := twoDigits hour ++ ":" ++ twoDigits minute ++ ":" ++ twoDigits second
  match cs with
  | '.' :: rest =>
    let digits := rest.takeWhile isDecimalDigit
    if digits.isEmpty then some (whole, cs)
    else some (whole ++ fractionText digits, rest.dropWhile isDecimalDigit)
  | _ => some (whole, cs)

def readOffset (cs : List Char) : String × List Char :=
  match cs with
  | [] => ("", [])
  | c :: rest =>
    if c = 'Z' ∨ c = 'z' then ("+00:00", rest)
    else if c = '+' ∨ c = '-' then
      let distance := do
        let (hours, more) ← readPair 0 23 rest
        let more ← readChar ':' more
        let (minutes, more) ← readPair 0 59 more
        let sign := if c = '-' ∧ 0 < hours + minutes then "-" else "+"
        some (sign ++ twoDigits hours ++ ":" ++ twoDigits minutes, more)
      distance.getD ("", cs)
    else ("", cs)

def daysIn (year month : Nat) : Nat :=
  if month = 2 then
    if year % 4 = 0 ∧ (year % 100 ≠ 0 ∨ year % 400 = 0) then 29 else 28
  else if month = 4 ∨ month = 6 ∨ month = 9 ∨ month = 11 then 30
  else 31

inductive DateReading where
  | noDate
  | invalid
  | date (written : String) (rest : List Char)

def readClock (cs : List Char) : String × List Char :=
  match cs with
  | [] => ("", [])
  | c :: rest =>
    if c = 'T' ∨ c = 't' ∨ c = ' ' then
      match readTime rest with
      | some (time, more) =>
        let (offset, more) := readOffset more
        (" " ++ time ++ offset, more)
      | none => ("", cs)
    else ("", cs)

def readDay (cs : List Char) : Option ((List Char × Nat × Nat) × List Char) :=
  match cs with
  | a :: b :: c :: d :: rest =>
    if [a, b, c, d].all isDecimalDigit then do
      let rest ← readChar '-' rest
      let (month, rest) ← readPair 1 12 rest
      let rest ← readChar '-' rest
      let (day, rest) ← readPair 1 31 rest
      some (([a, b, c, d], month, day), rest)
    else none
  | _ => none

def readDate (cs : List Char) : DateReading :=
  match readDay cs with
  | none => .noDate
  | some ((yearDigits, month, day), rest) =>
    let year := valueOf 10 yearDigits
    if year = 0 ∨ daysIn year month < day then .invalid
    else
      let (clock, rest) := readClock rest
      .date
        (String.ofList yearDigits ++ "-" ++ twoDigits month ++ "-" ++ twoDigits day ++ clock) rest

def readFigure (cs : List Char) : Except Fault (Value × List Char) :=
  match readDate cs with
  | .invalid => .error .malformed
  | .date written rest => .ok (.moment written, rest)
  | .noDate =>
    match readTime cs with
    | some (written, rest) => .ok (.moment written, rest)
    | none => readNumber cs

end DependencyRanking.Document
