import DependencyRanking.Error

/-!
# Given numbers as doubles

The measures are computed on doubles. An integer beyond all doubles has none, which is an error.
-/
namespace DependencyRanking.Number

def nearest (n : Number) : Except RankingError Float :=
  match n.toFloat? with
  | some x => .ok x
  | none => .error .numberTooLarge

def nearestAll (ns : List Number) : Except RankingError (List Float) := ns.mapM nearest

def ofValue (v : Value) : Except RankingError Number :=
  match v with
  | .number n => .ok n
  | _ => .error .wrongType

end DependencyRanking.Number
