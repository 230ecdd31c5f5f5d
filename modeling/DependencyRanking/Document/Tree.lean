import DependencyRanking.Document.Basic
import DependencyRanking.Table

/-!
# Putting a settings document together

Statements are carried out in order on a tree of tables. Two lists of keys say what later statements
may no longer do: a table that was opened by a head or by a dotted key is not opened again, and
what an inline value holds is not added to.
-/
namespace DependencyRanking.Document

/-- Changes the table at a path, making the tables on the way. With `throughArrays`, the last table
of an array stands for the array. -/
def updateAt (throughArrays : Bool) (change : Entries → Option Entries) :
    Path → Entries → Option Entries
  | [], entries => change entries
  | key :: path, entries =>
    match entryAt? key entries with
    | none => (updateAt throughArrays change path []).map fun t => putEntry key (.table t) entries
    | some (.table sub) =>
      (updateAt throughArrays change path sub).map fun t => putEntry key (.table t) entries
    | some (.list items) =>
      match throughArrays, items.getLast? with
      | true, some (.table sub) =>
        (updateAt throughArrays change path sub).map fun t =>
          putEntry key (.list (items.dropLast ++ [.table t])) entries
      | _, _ => none
    | some _ => none

def addNew (key : String) (value : Value) (entries : Entries) : Option Entries :=
  if (entryAt? key entries).isSome then none else some (entries ++ [(key, value)])

def splitLast : Path → Path × String
  | [] => ([], "")
  | [key] => ([], key)
  | key :: rest =>
    let p := splitLast rest
    (key :: p.1, p.2)

def isClosed : Value → Bool
  | .table _ => true
  | .list _ => true
  | _ => false

def isWithin (keys : List Path) (key : Path) : Bool := keys.any (·.isPrefixOf key)

/-- An inline table under construction: its entries, and the keys of inline values. -/
structure InlineDraft where
  entries : Entries := []
  closed : List Path := []

def InlineDraft.add (d : InlineDraft) (key : Path) (value : Value) : Option InlineDraft :=
  if isWithin d.closed key then none
  else
    (updateAt false (addNew (splitLast key).2 value) (splitLast key).1 d.entries).map fun entries =>
      ⟨entries, if isClosed value then key :: d.closed else d.closed⟩

inductive Statement where
  | table (key : Path)
  | tableArray (key : Path)
  | entry (key : Path) (value : Value)

/-- A document under construction: its entries, the table that is open, the keys that cannot be
opened again, those that are about to join them, and the keys of inline values. -/
structure Draft where
  entries : Entries := []
  header : Path := []
  opened : List Path := []
  pending : List Path := []
  closed : List Path := []

namespace Draft

/-- Before a head, the tables that dotted keys have opened count as opened. -/
def settle (d : Draft) : Draft := { d with opened := d.pending ++ d.opened, pending := [] }

def openTable (d : Draft) (key : Path) : Option Draft :=
  let d := d.settle
  if key ∈ d.opened ∨ isWithin d.closed key then none
  else
    (updateAt true some key d.entries).map fun entries =>
      { d with entries, header := key, opened := key :: d.opened }

def appendTable (key : String) (entries : Entries) : Option Entries :=
  match entryAt? key entries with
  | none => some (entries ++ [(key, .list [.table []])])
  | some (.list items) => some (putEntry key (.list (items ++ [.table []])) entries)
  | some _ => none

def openNext (d : Draft) (key : Path) : Option Draft :=
  let d := d.settle
  if isWithin d.closed key then none
  else
    (updateAt true (appendTable (splitLast key).2) (splitLast key).1 d.entries).map fun entries =>
      { d with
        entries
        header := key
        opened := key :: d.opened.filter fun k => !key.isPrefixOf k
        closed := d.closed.filter fun k => !key.isPrefixOf k }

def passedThrough (header key : Path) : List Path :=
  (List.range (key.length - 1)).map fun i => header ++ key.take (i + 1)

def addEntry (d : Draft) (key : Path) (value : Value) : Option Draft :=
  let passed := passedThrough d.header key
  let parent := d.header ++ (splitLast key).1
  if passed.any (· ∈ d.opened) ∨ isWithin d.closed parent then none
  else
    (updateAt true (addNew (splitLast key).2 value) parent d.entries).map fun entries =>
      { d with
        entries
        pending := passed ++ d.pending
        closed := if isClosed value then (d.header ++ key) :: d.closed else d.closed }

def apply (d : Draft) : Statement → Option Draft
  | .table key => d.openTable key
  | .tableArray key => d.openNext key
  | .entry key value => d.addEntry key value

end Draft

end DependencyRanking.Document
