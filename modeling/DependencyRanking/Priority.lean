import DependencyRanking.Coupling
import DependencyRanking.Number.Nearest

/-!
# Priorities of changes

A change that touches central modules, or modules that many others depend on, is pulled forward: a
boost that is zero or negative is added to its priority, and the result is at least one. The boosts
are averages over the touched modules, rounded to two places.

`enrich` is the arithmetic, `enrichRanked` applies it to tables of scores and couplings,
`reasonRanked` gives the reason, and `enrichGiven` does both for numbers in the form in which they
were given.
-/
namespace DependencyRanking

def pathSegments (path : String) : List String :=
  ((path.toList.splitOn '/').map String.ofList).filter (· ≠ "")

def moduleOfSegment (isModule : ModuleId → Bool) (segment : String) : Option ModuleId :=
  if isModule segment then some segment
  else if isModule ("@" ++ segment) then some ("@" ++ segment)
  else none

/-- The module a path belongs to: the path itself, or else what the last of its segments that names
a module does name. -/
def moduleOfPath (isModule : ModuleId → Bool) (path : String) : Option ModuleId :=
  if isModule path then some path
  else (pathSegments path).reverse.findSome? (moduleOfSegment isModule)

def touchedModules (isModule : ModuleId → Bool) (paths : List String) : List ModuleId :=
  paths.filterMap (moduleOfPath isModule)

structure Touched (α : Type) where
  share : α
  afferent : Int

structure Enrichment (α : Type) where
  priority : α
  rankBoost : α
  couplingBoost : α

section Arithmetic

variable {α : Type} [Scalar α]

def totalShare (touched : List (Touched α)) : α := (touched.map Touched.share).foldl (· + ·) 0

def totalAfferent (touched : List (Touched α)) : Int :=
  (touched.map Touched.afferent).foldl (· + ·) 0

def rankBoost (touched : List (Touched α)) : α :=
  -Scalar.roundPlaces 2 (totalShare touched / Scalar.ofNat touched.length * 5.0)

def couplingBoost (touched : List (Touched α)) : α :=
  -Scalar.roundPlaces 2 (Scalar.ratio (totalAfferent touched) touched.length * 0.3)

/-- Adds the boosts of at least one touched module to a priority, down to one at most. -/
def enrich (priority : α) (touched : List (Touched α)) : Enrichment α :=
  let boosted := priority + rankBoost touched + couplingBoost touched
  { priority := Scalar.roundPlaces 1 (if 1 < boosted then boosted else 1)
    rankBoost := rankBoost touched
    couplingBoost := couplingBoost touched }

def touch (ranks : Table ModuleId α) (afferents : Table ModuleId Int) (m : ModuleId) : Touched α :=
  ⟨ranks.getD m 0 / Scalar.ofNat (max ranks.size 1), afferents.getD m 0⟩

def enrichRanked (priority : α) (paths : List String) (ranks : Table ModuleId α)
    (afferents : Table ModuleId Int) : Enrichment α :=
  match touchedModules ranks.contains paths with
  | [] => ⟨priority, 0, 0⟩
  | touched => enrich priority (touched.map (touch ranks afferents))

def Enrichment.reason (text : α → String) (e : Enrichment α) : String :=
  let parts :=
    (if e.rankBoost < -1.0 then ["high centrality (PR boost: " ++ text e.rankBoost ++ ")"] else [])
    ++ (if e.couplingBoost < -0.5 then ["high coupling (Ca boost: " ++ text e.couplingBoost ++ ")"]
      else [])
  if parts.isEmpty then "standard priority" else ", ".intercalate parts

def reasonRanked (text : α → String) (priority : α) (paths : List String)
    (ranks : Table ModuleId α) (afferents : Table ModuleId Int) : String :=
  if paths.isEmpty then "no affected files"
  else if (touchedModules ranks.contains paths).isEmpty then "no matching modules"
  else (enrichRanked priority paths ranks afferents).reason text

end Arithmetic

structure PriorityChange where
  priority : Number
  rankBoost : Float
  couplingBoost : Float
  reason : String

namespace PriorityChange

def unchanged (priority : Number) (reason : String) : PriorityChange := ⟨priority, 0.0, 0.0, reason⟩

def bounded (x : Float) : Except RankingError Float :=
  if x.isFinite then .ok x else .error .numberTooLarge

def shareOf (rank : Number) (count : Nat) : Except RankingError Float :=
  match rank with
  | .float x => .ok (x / Float.ofNat count)
  | .flag b => bounded (Scalar.ratio b.toNat count)
  | .int n => bounded (Scalar.ratio n count)

def enrichGiven (priority : Number) (paths : List String) (ranks : Table ModuleId Number)
    (afferents : Table ModuleId Int) : Except RankingError PriorityChange :=
  if paths.isEmpty then .ok (unchanged priority "no affected files")
  else
    match touchedModules ranks.contains paths with
    | [] => .ok (unchanged priority "no matching modules")
    | modules => do
      let touched ← modules.mapM fun m => do
        let share ← shareOf (ranks.getD m (.float 0.0)) (max ranks.size 1)
        pure (Touched.mk share (afferents.getD m 0))
      let _ ← bounded (Scalar.ratio (totalAfferent touched) touched.length)
      let start ← priority.nearest
      let e := enrich start touched
      pure ⟨.float e.priority, e.rankBoost, e.couplingBoost, e.reason Double.text⟩

end PriorityChange

end DependencyRanking
