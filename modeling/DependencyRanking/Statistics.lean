import DependencyRanking.Error
import DependencyRanking.Number.Scalar

/-!
# Quantiles and shares of a sample

`quantile` interpolates between neighbours in the sorted sample. `percentBelow` is the share of a
sample below a value, in whole percent.
-/
namespace DependencyRanking

variable {α : Type} [Scalar α]

def between (a b t : α) : α :=
  let d := b - a
  if (0.5 : α) ≤ t then b - d * (1 - t) else a + d * t

def pointAt (sorted : List α) (x : α) : α :=
  let last := sorted.length - 1
  if Scalar.ofNat last ≤ x then
    let top := sorted.getD last 0
    between top top (x + 1)
  else
    let i := Scalar.floor x
    between (sorted.getD i 0) (sorted.getD (i + 1) 0) (x - Scalar.ofNat i)

/-- The quantile `q` of a sample, zero for an empty one. An undefined entry makes it undefined. -/
def quantile (sample : List α) (q : α) : Except RankingError α :=
  if sample.isEmpty then .ok 0
  else if (0 : α) ≤ q ∧ q ≤ 1 then
    match sample.find? fun x => !(x == x) with
    | some undefined => .ok undefined
    | none =>
      let sorted := sample.mergeSort fun a b => decide (a ≤ b)
      .ok (pointAt sorted (Scalar.ofNat (sample.length - 1) * q))
  else .error .quantileOutOfRange

/-- The percentage of a sample strictly below a value, reckoned in `α` and rounded, a half to even;
zero for an empty sample. -/
def percentBelow (α : Type) [Scalar α] {ν : Type} [LT ν] [DecidableLT ν] (value : ν)
    (sample : List ν) : Int :=
  if sample.isEmpty then 0
  else
    let below := sample.countP fun x => decide (x < value)
    Scalar.roundInt ((Scalar.ratio below sample.length : α) * Scalar.ofNat 100)

end DependencyRanking
