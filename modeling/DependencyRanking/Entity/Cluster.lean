import DependencyRanking.Entity.Naming
import DependencyRanking.Graph.ModuleId
import DependencyRanking.Graph.Search

/-!
# Domains among entities

Entities that refer to each other in a circle belong together. A group whose name is sure enough is
a cluster; all other entities stay unclustered.
-/
namespace DependencyRanking

structure EntityCluster where
  name : String
  core : Option String
  models : List String
  confidence : Nat
  source : NameSource
deriving DecidableEq, Repr

structure EntityDomains where
  nodes : List RelationNode
  clusters : List EntityCluster
  unclustered : List String
deriving DecidableEq, Repr

def isInsignificant (nodes : Table String RelationNode) (members : List String) : Bool :=
  match members with
  | [name] => (nodes.get? name).any fun node => node.inDegree < 3 && node.outDegree < 3
  | _ => false

def clusterOf? (nodes : Table String RelationNode) (members : List String) :
    Option EntityCluster :=
  if isInsignificant nodes members then none
  else
    let found := nameCluster nodes members
    if found.confidence < 60 then none
    else some ⟨found.name, coreEntity nodes members, members, found.confidence, found.source⟩

def entityGroups (nodes : Table String RelationNode) :
    Except RankingError (List (List String)) := do
  let groups ← strongComponents nodes.keys fun name =>
    ((nodes.get? name).map RelationNode.relations).getD []
  pure (groups.map sortIds)

/-- The clusters of a schema, largest first, and what belongs to none, ascending. -/
def entityDomains (models : List EntityModel) : Except RankingError EntityDomains := do
  let nodes := relationGraph models
  let groups ← entityGroups nodes
  let clusters := groups.filterMap (clusterOf? nodes)
  let loose := (groups.filter fun members => (clusterOf? nodes members).isNone).flatten
  pure
    { nodes := nodes.values
      clusters := clusters.mergeSort fun a b => decide (b.models.length ≤ a.models.length)
      unclustered := sortIds loose }

def domainOf (clusters : List EntityCluster) (fallback model : String) : String × Nat :=
  match clusters.find? fun c => model ∈ c.models with
  | some c => (c.name, c.confidence)
  | none => (fallback, 30)

end DependencyRanking
