import DependencyRanking.Centrality.Ranking
import DependencyRanking.Coupling
import DependencyRanking.Graph.Level
import DependencyRanking.Statistics

/-!
# A safe order of refactoring

The levels of the condensation become phases: the modules of a level that lie on no cycle share
one phase, and every cycle of the level follows in a phase of its own. A phase names the phases
that have to be finished before it, and the risk of its riskiest module.
-/
namespace DependencyRanking

inductive PhaseCategory where
  | leaf
  | intermediate
  | core
  | cycle
deriving DecidableEq, Repr

def PhaseCategory.name : PhaseCategory → String
  | leaf => "leaf"
  | intermediate => "intermediate"
  | core => "core"
  | cycle => "cycle"

structure Phase where
  order : Nat
  modules : List ModuleId
  risk : RiskLevel
  canParallelize : Bool
  prerequisites : List Nat
  isCycle : Bool
  category : PhaseCategory
deriving DecidableEq, Repr

structure Plan where
  phases : List Phase := []
  cycles : List (List ModuleId) := []
  leaves : List ModuleId := []
  core : List ModuleId := []
  totalModules : Nat := 0
  risk : RiskLevel := .low
deriving DecidableEq, Repr

namespace Plan

variable {ν : Type} [Measured ν]

def metricsOf (coupling : Table ModuleId (CouplingMetrics ν)) (m : ModuleId) :
    Except RankingError (CouplingMetrics ν) :=
  match coupling.get? m with
  | some metrics => .ok metrics
  | none => .error .missingEntry

/-- The modules whose afferent coupling is positive and reaches the quantile of all of them. -/
def coreModules {α : Type} [Scalar α] (afferents : List (ModuleId × Int)) (q : α) :
    Except RankingError (List ModuleId) := do
  let cutoff ← quantile (afferents.map fun a => Scalar.ofInt a.2) q
  pure ((afferents.filter fun a => 0 < a.2 && Scalar.atMost cutoff a.2).map Prod.fst)

/-- What the phases have in common: the components, their edges and the metrics of the modules. -/
structure Setting (ν : Type) where
  condensation : Condensation
  coupling : Table ModuleId (CouplingMetrics ν)
  risks : RiskCutoffs
  leaves : List ModuleId
  core : List ModuleId

structure Draft where
  phases : List Phase := []
  cycles : List (List ModuleId) := []
  phaseOf : Table Nat Nat := ∅

namespace Setting

def isCycleAt (s : Setting ν) (i : Nat) : Bool :=
  match s.condensation.components[i]? with
  | some c => c.isCycle
  | none => false

def modulesAt (s : Setting ν) (i : Nat) : List ModuleId :=
  match s.condensation.components[i]? with
  | some c => c.nodes
  | none => []

/-- The groups of a level that become phases: what lies on no cycle, then every cycle. -/
def groups (s : Setting ν) (level : List Nat) : List (List Nat) :=
  let acyclic := level.filter fun i => !s.isCycleAt i
  (if acyclic.isEmpty then [] else [acyclic]) ++ (level.filter s.isCycleAt).map ([·])

def prerequisites (s : Setting ν) (phaseOf : Table Nat Nat) (group : List Nat) :
    Except RankingError (List Nat) := do
  let orders ← (group.flatMap fun i => s.condensation.successors.getD i []).mapM fun j =>
    match phaseOf.get? j with
    | some order => Except.ok order
    | none => Except.error RankingError.missingEntry
  pure ((distinct orders).mergeSort fun a b => decide (a ≤ b))

def worstScore (s : Setting ν) (modules : List ModuleId) : Except RankingError Number := do
  let scores ← modules.mapM fun m => do
    let metrics ← metricsOf s.coupling m
    pure (Measured.number metrics.riskScore)
  match scores with
  | [] => .error .nothingToChoose
  | x :: rest => .ok (rest.foldl (fun worst y => if worst < y then y else worst) x)

def categoryOf (s : Setting ν) (isCycle : Bool) (modules : List ModuleId) : PhaseCategory :=
  if isCycle then .cycle
  else if modules.all (· ∈ s.leaves) then .leaf
  else if modules.all (· ∈ s.core) then .core
  else .intermediate

def members (s : Setting ν) (group : List Nat) : List ModuleId :=
  sortIds (group.flatMap s.modulesAt)

def isCycleGroup (s : Setting ν) (group : List Nat) : Bool :=
  match group with
  | [i] => s.isCycleAt i
  | _ => false

/-- The risk of a group by its worst score; a cycle has a high risk at least. -/
def riskFor (s : Setting ν) (group : List Nat) (score : Number) : RiskLevel :=
  if s.isCycleGroup group then (s.risks.level score).atLeast .high else s.risks.level score

def addPhase (s : Setting ν) (d : Draft) (group : List Nat) : Except RankingError Draft := do
  let order := d.phases.length + 1
  let modules := s.members group
  let prerequisites ← s.prerequisites d.phaseOf group
  let score ← s.worstScore modules
  let phase : Phase :=
    { order
      modules
      risk := s.riskFor group score
      canParallelize := 1 < group.length
      prerequisites
      isCycle := s.isCycleGroup group
      category := s.categoryOf (s.isCycleGroup group) modules }
  pure
    { phases := d.phases ++ [phase]
      cycles := if s.isCycleGroup group then d.cycles ++ [modules] else d.cycles
      phaseOf := group.foldl (fun t i => t.insert i order) d.phaseOf }

end Setting

def make (g : ModuleGraph) (components : List Component)
    (coupling : Table ModuleId (CouplingMetrics ν)) (config : RankingConfig) :
    Except RankingError Plan :=
  let nodes := g.nodes
  if nodes = [] then .ok {}
  else do
    let metrics ← nodes.mapM (metricsOf coupling)
    let counted := nodes.zip metrics
    let leaves := (counted.filter fun m => m.2.efferent = 0).map Prod.fst
    let q ← config.coreQuantile.nearest
    let _ ← Number.nearestAll (metrics.map fun m => .int m.afferent)
    let core ← coreModules (counted.map fun m => (m.1, m.2.afferent)) q
    let condensation := g.condense components
    let setting : Setting ν := { condensation, coupling, risks := config.risks, leaves, core }
    let levels ← condensation.levels
    let draft ← (levels.flatMap setting.groups).foldlM setting.addPhase {}
    pure
      { phases := draft.phases
        cycles := draft.cycles
        leaves
        core
        totalModules := nodes.length
        risk := .highest (draft.phases.map (·.risk)) }

def recordCycles (p : Plan) : Traced Unit :=
  if p.cycles.isEmpty then pure ()
  else
    .record .info "modrank.ranking.safe_order"
      ("Found " ++ toString p.cycles.length ++ " dependency cycle(s) to refactor as units")

def trace (g : ModuleGraph) (components : List Component)
    (coupling : Table ModuleId (CouplingMetrics ν)) (config : RankingConfig) : Traced Plan := do
  let plan ← Traced.ofExcept (make g components coupling config)
  plan.recordCycles
  pure plan

end Plan

end DependencyRanking
