import DependencyRanking.Error
import DependencyRanking.Graph.ModuleId
import DependencyRanking.Text.Blank

/-!
# The dependency graph of modules

An edge `(a, b)` says that `a` depends on `b`. The graph keeps, for every module, what it depends
on in the order of the edges, and what depends on it in ascending order. `ofEdges` builds it from
checked edges, `read?` from values of any kind.
-/
namespace DependencyRanking

structure ModuleGraph where
  adjacency : Table ModuleId (List ModuleId)
  reverse : Table ModuleId (List ModuleId)
  edgeCount : Nat

namespace ModuleGraph

def nodes (g : ModuleGraph) : List ModuleId := sortIds g.adjacency.keys

def outgoing (g : ModuleGraph) (m : ModuleId) : List ModuleId := g.adjacency.getD m []

def incoming (g : ModuleGraph) (m : ModuleId) : List ModuleId := g.reverse.getD m []

def outDegree (g : ModuleGraph) (m : ModuleId) : Nat := (g.outgoing m).length

def inDegree (g : ModuleGraph) (m : ModuleId) : Nat := (g.incoming m).length

def hasSelfLoop (g : ModuleGraph) (m : ModuleId) : Bool := m ∈ g.outgoing m

def contains (g : ModuleGraph) (m : ModuleId) : Bool := g.adjacency.contains m

def nodeCount (g : ModuleGraph) : Nat := g.adjacency.size

theorem nodup_nodes (g : ModuleGraph) : g.nodes.Nodup := nodup_sortIds g.adjacency.nodup_keys

@[simp] theorem mem_nodes (g : ModuleGraph) (m : ModuleId) :
    m ∈ g.nodes ↔ m ∈ g.adjacency.keys := by
  simp [nodes]

/-- Equality up to the order of the keys; the order of the dependencies of a module counts. -/
def same (g h : ModuleGraph) : Bool :=
  g.adjacency.sameEntries h.adjacency && g.reverse.sameEntries h.reverse
    && g.edgeCount == h.edgeCount

structure Draft where
  adjacency : Table ModuleId (List ModuleId) := ∅
  edgeCount : Nat := 0

def Draft.addNode (d : Draft) (m : ModuleId) : Draft :=
  { d with adjacency := d.adjacency.insertNew m [] }

def Draft.addEdge (d : Draft) (edge : ModuleId × ModuleId) : Draft :=
  let d := (d.addNode edge.1).addNode edge.2
  let known := d.adjacency.getD edge.1 []
  if edge.2 ∈ known then d
  else ⟨d.adjacency.insert edge.1 (known ++ [edge.2]), d.edgeCount + 1⟩

def dependents (entries : List (ModuleId × List ModuleId)) (m : ModuleId) : List ModuleId :=
  (entries.filter fun e => m ∈ e.2).map Prod.fst

def Draft.graph (d : Draft) : ModuleGraph :=
  let sorted := d.adjacency.entries.mergeSort fun a b => decide (a.1 ≤ b.1)
  { adjacency := d.adjacency
    reverse := d.adjacency.mapValues fun m _ => dependents sorted m
    edgeCount := d.edgeCount }

def ofEdges (edges : List (ModuleId × ModuleId)) (isolated : List ModuleId) : ModuleGraph :=
  (edges.foldl Draft.addEdge (isolated.foldl Draft.addNode {})).graph

def edgesOf (dependencies : Table ModuleId (List ModuleId)) : List (ModuleId × ModuleId) :=
  dependencies.entries.flatMap fun e => e.2.map (e.1, ·)

def readId (value source target : Value) (role : IdRole) : Except RankingError ModuleId :=
  match value with
  | .text s =>
    if Text.isBlank s then .error (.invalidEdge source target (.blank role)) else .ok s
  | other => .error (.invalidEdge source target (.notText role other.kindName))

def readNode (value : Value) : Except RankingError ModuleId := readId value value .absent .isolated

def readEdge (value : Value) : Except RankingError (ModuleId × ModuleId) :=
  match value with
  | .text _ => .error (.invalidEdge value .absent .textForPair)
  | _ =>
    match value.items? with
    | some [source, target] => do
      let a ← readId source source target .endpoint
      let b ← readId target source target .endpoint
      pure (a, b)
    | _ => .error (.invalidEdge value .absent .notPair)

def itemsOf (value : Value) : Except RankingError (List Value) :=
  match value.items? with
  | some items => .ok items
  | none => .error .wrongType

def read? (edges isolated : Value) : Except RankingError ModuleGraph := do
  let nodes ← (← itemsOf isolated).mapM readNode
  let pairs ← (← itemsOf edges).mapM readEdge
  pure (ofEdges pairs nodes)

def putDependency (d : Value × Value) : List (Value × Value) → List (Value × Value)
  | [] => [d]
  | e :: rest =>
    match d.1, e.1 with
    | .text a, .text b => if a = b then (e.1, d.2) :: rest else e :: putDependency d rest
    | _, _ => e :: putDependency d rest

/-- Builds the graph from modules with their dependencies; every named module becomes a node. If a
module is named twice, the last dependencies count. -/
def readDependencies? (dependencies : List (Value × Value)) : Except RankingError ModuleGraph := do
  let merged := dependencies.foldl (fun ds d => putDependency d ds) []
  let edges ← merged.mapM fun d => do
    let targets ← itemsOf d.2
    pure (targets.map fun t => Value.tuple [d.1, t])
  read? (.list edges.flatten) (.list (merged.map Prod.fst))

end ModuleGraph

end DependencyRanking
