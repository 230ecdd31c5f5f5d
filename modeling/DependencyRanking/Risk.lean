import DependencyRanking.Error

/-!
# Risk levels

Four levels in a fixed order, and the cutoffs that a measure has to reach for each of them.
-/
namespace DependencyRanking

inductive RiskLevel where
  | low
  | medium
  | high
  | critical
deriving DecidableEq, Repr

namespace RiskLevel

def rank : RiskLevel → Nat
  | low => 0
  | medium => 1
  | high => 2
  | critical => 3

def name : RiskLevel → String
  | low => "low"
  | medium => "medium"
  | high => "high"
  | critical => "critical"

def ofName? (s : String) : Except RankingError RiskLevel :=
  match [low, medium, high, critical].find? (·.name = s) with
  | some level => .ok level
  | none => .error .unknownRiskLevel

theorem rank_injective {a b : RiskLevel} (h : a.rank = b.rank) : a = b := by
  cases a <;> cases b <;> simp_all [rank]

def atLeast (level floor : RiskLevel) : RiskLevel :=
  if floor.rank ≤ level.rank then level else floor

theorem le_atLeast (level floor : RiskLevel) : floor.rank ≤ (level.atLeast floor).rank := by
  unfold atLeast
  split
  · assumption
  · exact Nat.le_refl _

def highest (levels : List RiskLevel) : RiskLevel := levels.foldl (fun a b => b.atLeast a) low

end RiskLevel

structure RiskCutoffs where
  critical : Number
  high : Number
  medium : Number

def RiskCutoffs.level (c : RiskCutoffs) (measure : Number) : RiskLevel :=
  if c.critical ≤ measure then .critical
  else if c.high ≤ measure then .high
  else if c.medium ≤ measure then .medium
  else .low

end DependencyRanking
