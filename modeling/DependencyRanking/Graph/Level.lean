import DependencyRanking.Graph.Condensation

/-!
# Peeling a condensation, dependencies first

A position is ready when all positions it depends on are placed. `settle` takes one dependency off
the count of a dependent and notes the dependent when none is left. `levels` places all ready
positions at once, round by round.

The counts and the ready positions together never grow, so peeling ends on any input.
-/
namespace DependencyRanking

/-- The dependencies still to be placed, by position, and the positions that have become ready. -/
structure Countdown where
  remaining : List Int
  ready : List Nat := []

namespace Countdown

def settle (c : Countdown) (dependent : Nat) : Except RankingError Countdown :=
  match c.remaining[dependent]? with
  | some count =>
    .ok ⟨c.remaining.set dependent (count - 1),
      if count = 1 then c.ready ++ [dependent] else c.ready⟩
  | none => .error .positionOutOfRange

def settleAll (c : Countdown) (dependents : List Nat) : Except RankingError Countdown :=
  dependents.foldlM settle c

def weight (c : Countdown) : Nat := tally Int.toNat c.remaining + c.ready.length

theorem sum_set_le (counts : List Int) (i : Nat) (n : Int) (h : counts[i]? = some n) :
    tally Int.toNat (counts.set i (n - 1)) + (if n = 1 then 1 else 0)
      ≤ tally Int.toNat counts := by
  induction counts generalizing i with
  | nil => simp at h
  | cons a rest ih =>
    cases i with
    | zero =>
      simp only [List.getElem?_cons_zero, Option.some.injEq] at h
      subst h
      simp only [List.set_cons_zero, tally_cons]
      split <;> omega
    | succ i =>
      simp only [List.getElem?_cons_succ] at h
      have := ih i h
      simp only [List.set_cons_succ, tally_cons]
      omega

theorem weight_settle {c d : Countdown} {i : Nat} (h : c.settle i = .ok d) :
    d.weight ≤ c.weight := by
  unfold settle at h
  split at h
  · rename_i n hn
    cases h
    have := sum_set_le c.remaining i n hn
    unfold weight
    by_cases h1 : n = 1
    · simp only [h1, if_true, List.length_append, List.length_singleton] at *
      omega
    · simp only [h1, if_false] at *
      omega
  · cases h

theorem weight_settleAll {c d : Countdown} {is : List Nat} (h : c.settleAll is = .ok d) :
    d.weight ≤ c.weight := by
  induction is generalizing c with
  | nil =>
    cases h
    exact Nat.le_refl _
  | cons i rest ih =>
    simp only [settleAll, List.foldlM_cons, bind, Except.bind] at h
    split at h
    · cases h
    · rename_i u hu
      exact Nat.le_trans (ih h) (weight_settle hu)

end Countdown

def initialCounts (successors : List (List Nat)) : List Int :=
  successors.map fun s => (s.length : Int)

def initialReady (counts : List Int) : List Nat :=
  (counts.zipIdx.filter fun c => c.1 = 0).map Prod.snd

def entriesAt (table : List (List Nat)) (positions : List Nat) :
    Except RankingError (List Nat) := do
  let lists ← positions.mapM fun i =>
    match table[i]? with
    | some entries => Except.ok entries
    | none => Except.error RankingError.positionOutOfRange
  pure lists.flatten

/-- Places the current positions and collects those that become ready by it. -/
def peel (predecessors : List (List Nat)) (remaining : List Int) (current : List Nat) :
    Except RankingError Countdown := do
  let dependents ← entriesAt predecessors current
  Countdown.settleAll { remaining } dependents

theorem weight_peel {predecessors : List (List Nat)} {remaining : List Int} {current : List Nat}
    {c : Countdown} (h : peel predecessors remaining current = .ok c) :
    c.weight ≤ tally Int.toNat remaining := by
  simp only [peel, bind, Except.bind] at h
  split at h
  · cases h
  · exact Countdown.weight_settleAll h

def levelsFrom (predecessors : List (List Nat)) (remaining : List Int) (current : List Nat) :
    Except RankingError (List (List Nat)) :=
  if current = [] then .ok []
  else
    match _h : peel predecessors remaining current with
    | .error e => .error e
    | .ok c => do
      let rest ← levelsFrom predecessors c.remaining (c.ready.mergeSort fun a b => decide (a ≤ b))
      pure (current :: rest)
termination_by tally Int.toNat remaining + (if current = [] then 0 else 1)
decreasing_by
  have := weight_peel _h
  unfold Countdown.weight at this
  rename_i hc
  rw [if_neg hc]
  split
  · omega
  · rename_i hr
    have : 0 < c.ready.length := by
      apply Nat.pos_of_ne_zero
      intro e
      exact hr (by simp [List.length_eq_zero_iff.1 e])
    omega

def levelsOf (successors predecessors : List (List Nat)) : Except RankingError (List (List Nat)) :=
  let counts := initialCounts successors
  levelsFrom predecessors counts (initialReady counts)

/-- The levels of a condensation: first what depends on nothing, then, round by round, what depends
on earlier levels only. -/
def Condensation.levels (c : Condensation) : Except RankingError (List (List Nat)) :=
  levelsOf c.successors c.predecessors

end DependencyRanking
