import DependencyRanking.Graph.Level

/-!
# A flat order, dependencies first

The components are placed one by one. Of those that are ready, the least central comes first, where
a component counts by its least central module, and of several the one with the least module.
The modules of a component stay together, in ascending order.
-/
namespace DependencyRanking

structure ReadyComponent where
  rank : Number
  first : ModuleId
  position : Nat

namespace ReadyComponent

def precedes (a b : ReadyComponent) : Bool :=
  if a.rank == b.rank then
    decide (a.first < b.first) || (a.first == b.first && decide (a.position < b.position))
  else decide (a.rank < b.rank)

def takeFirst : ReadyComponent → List ReadyComponent → ReadyComponent × List ReadyComponent
  | a, [] => (a, [])
  | a, b :: rest =>
    if precedes b a then
      let p := takeFirst b rest
      (p.1, a :: p.2)
    else
      let p := takeFirst a rest
      (p.1, b :: p.2)

theorem length_takeFirst (a : ReadyComponent) (rest : List ReadyComponent) :
    (takeFirst a rest).2.length = rest.length := by
  induction rest generalizing a with
  | nil => rfl
  | cons b rest ih =>
    unfold takeFirst
    split <;> simp [ih]

/-- The component at a position, by its least rank; modules without a rank count as zero. -/
def at? (components : List Component) (rank : ModuleId → Option Number) (i : Nat) :
    Except RankingError ReadyComponent :=
  match components[i]? with
  | none => .error .positionOutOfRange
  | some c =>
    match c.nodes with
    | [] => .error .nothingToChoose
    | m :: rest =>
      let rankOf := fun m => (rank m).getD (.float 0.0)
      let least := rest.foldl (fun low m => if rankOf m < low then rankOf m else low) (rankOf m)
      .ok ⟨least, m, i⟩

end ReadyComponent

theorem length_of_mapM {α β : Type} {f : α → Except RankingError β} {as : List α} {bs : List β}
    (h : as.mapM f = .ok bs) : bs.length = as.length := by
  induction as generalizing bs with
  | nil =>
    cases h
    rfl
  | cons a rest ih =>
    simp only [List.mapM_cons, bind, Except.bind] at h
    split at h
    · cases h
    · split at h
      · cases h
      · rename_i hr
        cases h
        simp [ih hr]

/-- The positions in the order in which they are placed, from what is ready on. -/
def placeFrom (c : Condensation) (rank : ModuleId → Option Number) (remaining : List Int)
    (ready : List ReadyComponent) : Except RankingError (List Nat) :=
  match _hr : ready with
  | [] => .ok []
  | a :: rest =>
    let taken := ReadyComponent.takeFirst a rest
    match _h : peel c.predecessors remaining [taken.1.position] with
    | .error e => .error e
    | .ok counts =>
      match _hm : counts.ready.mapM (ReadyComponent.at? c.components rank) with
      | .error e => .error e
      | .ok more => do
        let later ← placeFrom c rank counts.remaining (taken.2 ++ more)
        pure (taken.1.position :: later)
termination_by tally Int.toNat remaining + ready.length
decreasing_by
  have h₁ := weight_peel _h
  have h₂ := length_of_mapM _hm
  have h₃ := ReadyComponent.length_takeFirst a rest
  unfold Countdown.weight at h₁
  simp only [List.length_append, List.length_cons]
  omega

def Condensation.placements (c : Condensation) (rank : ModuleId → Option Number) :
    Except RankingError (List Nat) := do
  let counts := initialCounts c.successors
  let ready ← (initialReady counts).mapM (ReadyComponent.at? c.components rank)
  placeFrom c rank counts ready

/-- The modules of a graph, dependencies first and the least central first where that is free. -/
def ModuleGraph.topologicalOrder (g : ModuleGraph) (components : List Component)
    (rank : ModuleId → Option Number) : Except RankingError (List ModuleId) := do
  let c := g.condense components
  let positions ← c.placements rank
  pure (positions.flatMap fun i => ((c.components[i]?).map Component.nodes).getD [])

end DependencyRanking
