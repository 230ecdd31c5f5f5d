import DependencyRanking.Document.Basic

/-!
# Texts in a settings document

Texts stand between single or double quotes, on one line or, between triple quotes, on several.
Double quotes allow escapes; a backslash at the end of a line skips the blanks that follow.
-/
namespace DependencyRanking.Document

def hexValue? (c : Char) : Option Nat :=
  if '0' ≤ c ∧ c ≤ '9' then some (c.toNat - 48)
  else if 'a' ≤ c ∧ c ≤ 'f' then some (c.toNat - 87)
  else if 'A' ≤ c ∧ c ≤ 'F' then some (c.toNat - 55)
  else none

def charOfHex? (digits : List Char) : Option Char := do
  let values ← digits.mapM hexValue?
  let code := values.foldl (fun n d => 16 * n + d) 0
  if code < 0xD800 ∨ (0xE000 ≤ code ∧ code ≤ 0x10FFFF) then some (Char.ofNat code) else none

def simpleEscape? (c : Char) : Option Char :=
  match c with
  | 'b' => some '\x08'
  | 't' => some '\t'
  | 'n' => some '\n'
  | 'f' => some '\x0c'
  | 'r' => some '\r'
  | '"' => some '"'
  | '\\' => some '\\'
  | _ => none

def prepend (c : Char) (reading : Option (List Char × List Char)) :
    Option (List Char × List Char) :=
  reading.map fun r => (c :: r.1, r.2)

def readBasic : List Char → Option (List Char × List Char)
  | [] => none
  | '"' :: rest => some ([], rest)
  | '\\' :: 'u' :: a :: b :: c :: d :: rest =>
    match charOfHex? [a, b, c, d] with
    | some ch => prepend ch (readBasic rest)
    | none => none
  | '\\' :: 'U' :: a :: b :: c :: d :: e :: f :: g :: h :: rest =>
    match charOfHex? [a, b, c, d, e, f, g, h] with
    | some ch => prepend ch (readBasic rest)
    | none => none
  | '\\' :: c :: rest =>
    match simpleEscape? c with
    | some ch => prepend ch (readBasic rest)
    | none => none
  | c :: rest => if isForbidden c then none else prepend c (readBasic rest)

/-- Where a reader of several lines stands: in the text, after a backslash and spaces, or past the
end of the line after a backslash. -/
inductive LineMode where
  | inText
  | beforeNewline
  | afterNewline
deriving DecidableEq

/-- Up to two more quotes belong to a text of several lines. -/
def extraQuotes (quote : Char) : List Char → List Char × List Char
  | a :: b :: rest =>
    if a = quote then if b = quote then ([quote, quote], rest) else ([quote], b :: rest)
    else ([], a :: b :: rest)
  | [a] => if a = quote then ([quote], []) else ([], [a])
  | [] => ([], [])

def readBasicLines : LineMode → List Char → Option (List Char × List Char)
  | _, [] => none
  | .beforeNewline, c :: rest =>
    if isSpace c then readBasicLines .beforeNewline rest
    else if c = '\n' then readBasicLines .afterNewline rest
    else none
  | .afterNewline, ' ' :: rest => readBasicLines .afterNewline rest
  | .afterNewline, '\t' :: rest => readBasicLines .afterNewline rest
  | .afterNewline, '\n' :: rest => readBasicLines .afterNewline rest
  | _, '"' :: '"' :: '"' :: rest => some (extraQuotes '"' rest)
  | _, '\\' :: ' ' :: rest => readBasicLines .beforeNewline rest
  | _, '\\' :: '\t' :: rest => readBasicLines .beforeNewline rest
  | _, '\\' :: '\n' :: rest => readBasicLines .afterNewline rest
  | _, '\\' :: 'u' :: a :: b :: c :: d :: rest =>
    match charOfHex? [a, b, c, d] with
    | some ch => prepend ch (readBasicLines .inText rest)
    | none => none
  | _, '\\' :: 'U' :: a :: b :: c :: d :: e :: f :: g :: h :: rest =>
    match charOfHex? [a, b, c, d, e, f, g, h] with
    | some ch => prepend ch (readBasicLines .inText rest)
    | none => none
  | _, '\\' :: c :: rest =>
    match simpleEscape? c with
    | some ch => prepend ch (readBasicLines .inText rest)
    | none => none
  | _, c :: rest => if isForbiddenInLines c then none else prepend c (readBasicLines .inText rest)

def readLiteral : List Char → Option (List Char × List Char)
  | [] => none
  | c :: rest =>
    if c = '\'' then some ([], rest)
    else if isForbidden c then none
    else prepend c (readLiteral rest)

def readLiteralLines : List Char → Option (List Char × List Char)
  | [] => none
  | '\'' :: '\'' :: '\'' :: rest => some (extraQuotes '\'' rest)
  | c :: rest => if isForbiddenInLines c then none else prepend c (readLiteralLines rest)

def dropNewline : List Char → List Char
  | '\n' :: rest => rest
  | cs => cs

def readText : List Char → Option (List Char × List Char)
  | '"' :: '"' :: '"' :: rest => readBasicLines .inText (dropNewline rest)
  | '\'' :: '\'' :: '\'' :: rest => readLiteralLines (dropNewline rest)
  | '"' :: rest => readBasic rest
  | '\'' :: rest => readLiteral rest
  | _ => none

end DependencyRanking.Document
