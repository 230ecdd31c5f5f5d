import DependencyRanking.Entity.RelationGraph
import DependencyRanking.Text.Capital

/-!
# Names for groups of entities

A group takes its name from a head that most of its names share, else from its most referenced
entity, else from the one file it is described in.
-/
namespace DependencyRanking

inductive NameSource where
  | sharedHead
  | coreEntity
  | fileName
deriving DecidableEq, Repr

def NameSource.name : NameSource → String
  | sharedHead => "prefix"
  | coreEntity => "core-entity"
  | fileName => "filename"

structure ClusterName where
  name : String
  confidence : Nat
  source : NameSource
deriving DecidableEq, Repr

def startsPart (c : Char) : Bool := 'A' ≤ c && c ≤ 'Z'

def headPart : List Char → List Char
  | [] => []
  | c :: rest => c :: rest.takeWhile fun d => !startsPart d

def afterHead : List Char → List Char
  | [] => []
  | _ :: rest => rest.dropWhile fun d => !startsPart d

def nameHead? (name : String) : Option String :=
  let cs := name.toList
  if !(afterHead cs).isEmpty && 3 ≤ (headPart cs).length then some (String.ofList (headPart cs))
  else none

/-- The head that at least three in five of some names share, if there are at least two names. -/
def sharedHead (names : List String) : Option String :=
  if names.length < 2 then none
  else
    let heads := names.filterMap nameHead?
    (distinct heads).find? fun head => 3 * names.length ≤ 5 * heads.count head

def mostReferenced (nodes : Table String RelationNode) (names : List String) :
    Option String × Nat :=
  names.foldl
    (fun best name =>
      match nodes.get? name with
      | some node => if best.2 < node.inDegree then (some name, node.inDegree) else best
      | none => best)
    (none, 0)

def coreEntity (nodes : Table String RelationNode) (names : List String) : Option String :=
  let best := mostReferenced nodes names
  if 2 ≤ best.2 then best.1 else none

def pluralize (name : String) : String :=
  if name.toList.getLast? = some 's' then name else name ++ "s"

def lastPart (path : String) : String :=
  let parts := ((path.toList.splitOn '/').map String.ofList).filter fun p => p ≠ "" ∧ p ≠ "."
  parts.getLastD ""

/-- The last part of a path without its suffix. A point that stands first or last starts none. -/
def fileStem (path : String) : String :=
  let cs := (lastPart path).toList
  let suffix := (cs.reverse.takeWhile (· ≠ '.')).length
  let stem := cs.take (cs.length - suffix - 1)
  if suffix = 0 ∨ suffix = cs.length ∨ stem.isEmpty then String.ofList cs else String.ofList stem

def filesOf (nodes : Table String RelationNode) (names : List String) : List String :=
  distinct (names.filterMap fun name => (nodes.get? name).map RelationNode.file)

def nameAfterFile (nodes : Table String RelationNode) (names : List String) : ClusterName :=
  match filesOf nodes names with
  | [file] =>
    let stem := fileStem file
    if stem ≠ "" ∧ stem ≠ "schema" then ⟨Text.capitalize stem, 50, .fileName⟩
    else ⟨"", 0, .fileName⟩
  | _ => ⟨"", 0, .fileName⟩

def nameCluster (nodes : Table String RelationNode) (names : List String) : ClusterName :=
  match sharedHead names with
  | some head => ⟨pluralize head, 85, .sharedHead⟩
  | none =>
    match coreEntity nodes names with
    | some core =>
      if core ≠ "" ∧ 2 ≤ names.length then ⟨pluralize core, 75, .coreEntity⟩
      else nameAfterFile nodes names
    | none => nameAfterFile nodes names

end DependencyRanking
