import DependencyRanking.Number.Basic
import DependencyRanking.Text.Quoted

/-!
# Values that callers, files and variables hand in

Edges and settings arrive as values of any kind and are checked before use. `display` writes a
value as it stands in a list or a message about an edge; `plain` leaves a text without quotes.
-/
namespace DependencyRanking

inductive Value where
  | absent
  | number (n : Number)
  | text (s : String)
  | list (items : List Value)
  | tuple (items : List Value)
  | table (entries : List (String × Value))
  | moment (written : String)

namespace Value

instance : Inhabited Value := ⟨absent⟩

def kindName : Value → String
  | absent => "NoneType"
  | number (.flag _) => "bool"
  | number (.int _) => "int"
  | number (.float _) => "float"
  | text _ => "str"
  | list _ => "list"
  | tuple _ => "tuple"
  | table _ => "dict"
  | moment _ => "datetime"

mutual

def display : Value → String
  | absent => "None"
  | number n => n.text
  | text s => Text.quoted s
  | list items => "[" ++ ", ".intercalate (displayItems items) ++ "]"
  | tuple [] => "()"
  | tuple [item] => "(" ++ item.display ++ ",)"
  | tuple items => "(" ++ ", ".intercalate (displayItems items) ++ ")"
  | table entries => "\x7b" ++ ", ".intercalate (displayEntries entries) ++ "\x7d"
  | moment written => written

def displayItems : List Value → List String
  | [] => []
  | item :: rest => item.display :: displayItems rest

def displayEntries : List (String × Value) → List String
  | [] => []
  | (key, value) :: rest => (Text.quoted key ++ ": " ++ value.display) :: displayEntries rest

end

def plain : Value → String
  | text s => s
  | v => v.display

mutual

def isWritable : Value → Bool
  | number n => n.isWritable
  | list items => areWritable items
  | tuple items => areWritable items
  | table entries => areEntriesWritable entries
  | _ => true

def areWritable : List Value → Bool
  | [] => true
  | item :: rest => item.isWritable && areWritable rest

def areEntriesWritable : List (String × Value) → Bool
  | [] => true
  | (_, value) :: rest => value.isWritable && areEntriesWritable rest

end

def isTrue : Value → Bool
  | absent => false
  | number n => n.isTrue
  | text s => s ≠ ""
  | list items => !items.isEmpty
  | tuple items => !items.isEmpty
  | table entries => !entries.isEmpty
  | moment _ => true

def items? : Value → Option (List Value)
  | text s => some (s.toList.map fun c => .text (String.singleton c))
  | list items => some items
  | tuple items => some items
  | table entries => some (entries.map fun e => .text e.1)
  | _ => none

end Value

end DependencyRanking
