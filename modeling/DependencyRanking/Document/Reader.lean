import DependencyRanking.Document.Figure
import DependencyRanking.Document.Quotation
import DependencyRanking.Document.Tree

/-!
# Reading a settings document

A value may hold values, so the readers call each other; every call passes on a smaller allowance,
and as every call also uses up a character, the length of the text is allowance enough. A statement
is carried out as soon as it is read, so of several faults the first in the text counts.
-/
namespace DependencyRanking.Document

def isBareKeyChar (c : Char) : Bool := c.isAlphanum || c == '-' || c == '_'

def readKeyPart (cs : List Char) : Option (String × List Char) :=
  match cs with
  | '"' :: rest => (readBasic rest).map fun r => (String.ofList r.1, r.2)
  | '\'' :: rest => (readLiteral rest).map fun r => (String.ofList r.1, r.2)
  | _ =>
    let bare := cs.takeWhile isBareKeyChar
    if bare.isEmpty then none else some (String.ofList bare, cs.dropWhile isBareKeyChar)

def readKey : (allowance : Nat) → List Char → Option (Path × List Char)
  | 0, _ => none
  | allowance + 1, cs => do
    let (part, rest) ← readKeyPart cs
    match skipSpaces rest with
    | '.' :: more =>
      let (parts, after) ← readKey allowance (skipSpaces more)
      some (part :: parts, after)
    | rest => some ([part], rest)

def skipComment (cs : List Char) : Option (List Char) :=
  match cs with
  | '#' :: rest =>
    if (rest.takeWhile (· != '\n')).any isForbidden then none else some (rest.dropWhile (· != '\n'))
  | _ => some cs

def skipFiller : (allowance : Nat) → List Char → Option (List Char)
  | 0, _ => none
  | allowance + 1, cs =>
    match cs.dropWhile isSpaceOrNewline with
    | '#' :: rest => do
      let after ← skipComment ('#' :: rest)
      skipFiller allowance after
    | rest => some rest

def readQuoted (cs : List Char) : Except Fault (Value × List Char) :=
  orMalformed ((readText cs).map fun r => (.text (String.ofList r.1), r.2))

mutual

def readValue : (allowance : Nat) → List Char → Except Fault (Value × List Char)
  | 0, _ => .error .malformed
  | allowance + 1, cs =>
    match cs with
    | '"' :: _ => readQuoted cs
    | '\'' :: _ => readQuoted cs
    | 't' :: 'r' :: 'u' :: 'e' :: rest => .ok (.number (.flag true), rest)
    | 'f' :: 'a' :: 'l' :: 's' :: 'e' :: rest => .ok (.number (.flag false), rest)
    | '[' :: rest => do
      let rest ← orMalformed (skipFiller allowance rest)
      let (items, rest) ← readItems allowance rest
      pure (.list items, rest)
    | '\x7b' :: rest =>
      match skipSpaces rest with
      | '\x7d' :: rest => .ok (.table [], rest)
      | rest => do
        let (entries, rest) ← readEntries allowance {} rest
        pure (.table entries, rest)
    | _ => readFigure cs

def readItems : (allowance : Nat) → List Char → Except Fault (List Value × List Char)
  | 0, _ => .error .malformed
  | allowance + 1, cs =>
    match cs with
    | ']' :: rest => .ok ([], rest)
    | _ => do
      let (item, rest) ← readValue allowance cs
      match ← orMalformed (skipFiller allowance rest) with
      | ']' :: rest => pure ([item], rest)
      | ',' :: rest =>
        let rest ← orMalformed (skipFiller allowance rest)
        let (items, rest) ← readItems allowance rest
        pure (item :: items, rest)
      | _ => .error .malformed

def readEntries : (allowance : Nat) → InlineDraft → List Char → Except Fault (Entries × List Char)
  | 0, _, _ => .error .malformed
  | allowance + 1, draft, cs => do
    let ((key, value), rest) ← readEntry allowance cs
    let draft ← orMalformed (draft.add key value)
    match skipSpaces rest with
    | '\x7d' :: rest => pure (draft.entries, rest)
    | ',' :: rest => readEntries allowance draft (skipSpaces rest)
    | _ => .error .malformed

def readEntry : (allowance : Nat) → List Char → Except Fault ((Path × Value) × List Char)
  | 0, _ => .error .malformed
  | allowance + 1, cs => do
    let (key, rest) ← orMalformed (readKey allowance cs)
    match rest with
    | '=' :: rest =>
      let (value, rest) ← readValue allowance (skipSpaces rest)
      pure ((key, value), rest)
    | _ => .error .malformed

end

def readHead (allowance : Nat) (cs : List Char) : Option (Statement × List Char) :=
  match cs with
  | '[' :: '[' :: rest => do
    let (key, rest) ← readKey allowance (skipSpaces rest)
    match rest with
    | ']' :: ']' :: rest => some (.tableArray key, rest)
    | _ => none
  | '[' :: rest => do
    let (key, rest) ← readKey allowance (skipSpaces rest)
    match rest with
    | ']' :: rest => some (.table key, rest)
    | _ => none
  | _ => none

def readStatement (allowance : Nat) (cs : List Char) : Except Fault (Statement × List Char) :=
  match cs with
  | '[' :: _ => orMalformed (readHead allowance cs)
  | _ => do
    let ((key, value), rest) ← readEntry allowance cs
    pure (.entry key value, rest)

def readStatements : (allowance : Nat) → Draft → List Char → Except Fault Draft
  | 0, _, _ => .error .malformed
  | allowance + 1, draft, cs =>
    match skipSpaces cs with
    | [] => .ok draft
    | '\n' :: rest => readStatements allowance draft rest
    | '#' :: rest => do
      let after ← orMalformed (skipComment ('#' :: rest))
      readStatements allowance draft (dropNewline after)
    | cs => do
      let (statement, rest) ← readStatement allowance cs
      let draft ← orMalformed (draft.apply statement)
      match ← orMalformed (skipComment (skipSpaces rest)) with
      | [] => pure draft
      | '\n' :: rest => readStatements allowance draft rest
      | _ => .error .malformed

def joinNewlines : List Char → List Char
  | '\r' :: '\n' :: rest => '\n' :: joinNewlines rest
  | c :: rest => c :: joinNewlines rest
  | [] => []

def read (text : String) : Except Fault Entries := do
  let cs := joinNewlines text.toList
  let draft ← readStatements (2 * cs.length + 4) {} cs
  pure draft.entries

end DependencyRanking.Document
