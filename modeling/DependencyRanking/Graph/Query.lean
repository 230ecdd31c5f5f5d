import DependencyRanking.Graph.Basic

/-!
# Questions about a graph

A module may be asked for by a value of any kind. Numbers and missing values name no module; lists
and tables cannot be asked for at all.
-/
namespace DependencyRanking

inductive GraphQuestion where
  | outgoing
  | incoming
  | inDegree
  | outDegree
  | hasSelfLoop
  | contains
deriving DecidableEq, Repr

inductive GraphAnswer where
  | modules (ids : List ModuleId)
  | count (n : Nat)
  | truth (b : Bool)
deriving DecidableEq, Repr

namespace ModuleGraph

def askedFor (v : Value) : Except RankingError (Option ModuleId) :=
  match v with
  | .text s => .ok (some s)
  | .list _ => .error .wrongType
  | .table _ => .error .wrongType
  | _ => .ok none

def answerFor (g : ModuleGraph) (m : ModuleId) : GraphQuestion → GraphAnswer
  | .outgoing => .modules (g.outgoing m)
  | .incoming => .modules (g.incoming m)
  | .inDegree => .count (g.inDegree m)
  | .outDegree => .count (g.outDegree m)
  | .hasSelfLoop => .truth (g.hasSelfLoop m)
  | .contains => .truth (g.contains m)

def answerForNone : GraphQuestion → GraphAnswer
  | .outgoing => .modules []
  | .incoming => .modules []
  | .inDegree => .count 0
  | .outDegree => .count 0
  | .hasSelfLoop => .truth false
  | .contains => .truth false

def answer (g : ModuleGraph) (q : GraphQuestion) (v : Value) : Except RankingError GraphAnswer := do
  match ← askedFor v with
  | some m => pure (g.answerFor m q)
  | none => pure (answerForNone q)

end ModuleGraph

end DependencyRanking
