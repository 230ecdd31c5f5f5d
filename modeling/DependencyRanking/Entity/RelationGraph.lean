import DependencyRanking.Distinct
import DependencyRanking.Table

/-!
# Entities of a data schema and their references

Entities are known by name. An entity that is described several times counts with its last
description, but the references of every description reach their targets.
-/
namespace DependencyRanking

structure EntityModel where
  name : String
  file : String
  relations : List String
deriving DecidableEq, Repr

structure RelationNode where
  model : String
  file : String
  relations : List String
  referencedBy : List String
  inDegree : Nat
  outDegree : Nat
deriving DecidableEq, Repr

def referrers (models : List EntityModel) (target : String) : List String :=
  models.flatMap fun m => (m.relations.filter (· = target)).map fun _ => m.name

def relationNode (models : List EntityModel) (m : EntityModel) : RelationNode :=
  let sources := referrers models m.name
  ⟨m.name, m.file, m.relations, sources, sources.length, m.relations.length⟩

/-- The nodes of all entities by name, in the order of their first descriptions. -/
def relationGraph (models : List EntityModel) : Table String RelationNode :=
  (Table.ofPairs (models.map fun m => (m.name, m))).mapValues fun _ m => relationNode models m

end DependencyRanking
