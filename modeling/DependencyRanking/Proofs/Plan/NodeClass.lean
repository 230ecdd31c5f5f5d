import DependencyRanking.Plan.NodeClass
import DependencyRanking.Proofs.Number.Rounding
import DependencyRanking.Proofs.Outcome

/-!
# The order of the classes

A percentage below a value rises with the value, and the class rises with both percentages: what
keeps a module from being a leaf keeps every more central module from it too, although core is asked
for only after leaf. So a module that is at least as central as another is not classed lower.
-/
namespace DependencyRanking

section Percentages

variable {ν : Type} {sample : List ν} {a b : ν}

theorem percentBelow_eq [LT ν] [DecidableLT ν] (a : ν) (sample : List ν) :
    percentBelow ℚ a sample = roundRat (sample.countP (· < a) / sample.length * 100) 1 := by
  unfold percentBelow
  split
  · rename_i hempty
    rw [List.isEmpty_iff.1 hempty, List.countP_nil, Nat.cast_zero, zero_div, zero_mul]
    exact (roundRat_eq (k := 0) (by simp)).symm
  · rfl

theorem percentBelow_mono [LinearOrder ν] (sample : List ν) (hab : a ≤ b) :
    percentBelow ℚ a sample ≤ percentBelow ℚ b sample := by
  have hcount : sample.countP (· < a) ≤ sample.countP (· < b) := by
    refine List.countP_mono_left fun x _ hx => ?_
    rw [decide_eq_true_eq] at hx ⊢
    exact hx.trans_le hab
  rw [percentBelow_eq, percentBelow_eq]
  refine roundRat_mono 1 ?_
  gcongr

end Percentages

namespace NodeClass

def rank : NodeClass → ℕ
  | leaf => 0
  | intermediate => 1
  | core => 2

theorem ofPercentages_mono {a b c d r s : ℤ} (ha : 0 ≤ a) (hab : a ≤ b) (hcd : c ≤ d)
    (hrs : r ≤ s) : (ofPercentages a c r).rank ≤ (ofPercentages b d s).rank := by
  have hleaf : b = 0 ∨ (d < 20 ∧ s < 20) → a = 0 ∨ (c < 20 ∧ r < 20) := by omega
  have hcore : 80 ≤ c ∨ 80 ≤ r → 80 ≤ d ∨ 80 ≤ s := by omega
  unfold ofPercentages
  by_cases hl : a = 0 ∨ (c < 20 ∧ r < 20)
  · rw [if_pos hl]
    exact Nat.zero_le _
  · rw [if_neg hl, if_neg (mt hleaf hl)]
    by_cases hc : 80 ≤ c ∨ 80 ≤ r
    · rw [if_pos hc, if_pos (hcore hc)]
    · rw [if_neg hc]
      split
      · decide
      · exact le_refl _

section Doubles

theorem percentBelowGiven_eq {value : Number} {sample : List Number} {x : Float} {xs : List Float}
    (hvalue : value.nearest = .ok x) (hsample : Number.nearestAll sample = .ok xs) :
    percentBelowGiven value sample = .ok (percentBelow Float x xs) := by
  unfold percentBelowGiven
  split
  · rename_i hempty
    rw [List.isEmpty_iff.1 hempty] at hsample
    cases hsample
    rfl
  · rw [hsample, hvalue]
    rfl

/-- For scores that are doubles the class that is given out is the one reckoned in doubles, unless
a coupling is beyond all doubles. -/
theorem classifyGiven_eq {afferents : Table ModuleId ℤ} (ranks : Table ModuleId Float) (m : ModuleId)
    (h : ∀ a ∈ afferents.values, (Double.ofInt a).isFinite = true) :
    classifyGiven afferents (ranks.mapValues fun _ => .float) m =
      .ok (classify Float afferents ranks m) := by
  have hint : ∀ a ∈ afferents.values, (Number.int a).nearest = .ok (Double.ofInt a) := by
    intro a ha
    simp [Number.nearest, Number.toFloat?, h a ha]
  have hcouplings : Number.nearestAll (afferents.values.map .int) =
      .ok (afferents.values.map Double.ofInt) := by
    rw [Number.nearestAll, List.mapM_map]
    exact Outcome.mapM_of_eq_ok hint
  have hscores : Number.nearestAll (ranks.mapValues fun _ => .float).values = .ok ranks.values := by
    have hvalues : (ranks.mapValues fun _ => Number.float).values = ranks.values.map .float := by
      simp [Table.values, Table.mapValues, Function.comp_def]
    rw [hvalues, Number.nearestAll, List.mapM_map]
    exact (Outcome.mapM_of_eq_ok fun x _ => rfl).trans (by rw [List.map_id'])
  have hscore : ((ranks.mapValues fun _ => Number.float).getD m (.float 0.0)).nearest =
      .ok (ranks.getD m 0) :=
    congrArg Number.nearest (Table.getD_mapValues (fun _ => Number.float) ranks m 0.0)
  unfold classifyGiven classify
  cases hm : afferents.get? m with
  | none => rfl
  | some a =>
    dsimp only
    rw [percentBelowGiven_eq (hint a (Table.mem_values_of_get? hm)) hcouplings,
      percentBelowGiven_eq hscore hscores]
    rfl

end Doubles

variable {ν : Type} [LinearOrder ν] [Zero ν] {afferents : Table ModuleId ℤ}
variable {ranks : Table ModuleId ν} {u w : ModuleId} {a b : ℤ}

/-- Of two modules with coupling, one that has at most the afferent coupling and at most the score of
the other is not in a higher class, for scores of any kind that can be compared. -/
theorem classify_mono (hnonneg : ∀ m a, afferents.get? m = some a → 0 ≤ a)
    (hu : afferents.get? u = some a) (hw : afferents.get? w = some b) (hab : a ≤ b)
    (hranks : ranks.getD u 0 ≤ ranks.getD w 0) :
    (classify ℚ afferents ranks u).rank ≤ (classify ℚ afferents ranks w).rank := by
  have hcast : (Scalar.ofInt a : ℚ) ≤ Scalar.ofInt b := Int.cast_le.2 hab
  unfold classify
  rw [hu, hw]
  exact ofPercentages_mono (hnonneg u a hu) hab (percentBelow_mono _ hcast)
    (percentBelow_mono _ hranks)

theorem classify_mono_unranked :
    let afferents := Table.ofPairs [("a", 1), ("b", 1), ("c", 0), ("d", 4), ("e", 1)]
    let ranks : Table ModuleId ℚ := Table.ofPairs [("d", 1 / 2), ("b", 3 / 2), ("x", 2)]
    (∀ m a, afferents.get? m = some a → 0 ≤ a) ∧ afferents.get? "a" = some 1 ∧
      afferents.get? "d" = some 4 ∧ ranks.getD "a" 0 ≤ ranks.getD "d" 0 ∧
      (classify ℚ afferents ranks "a").rank ≤ (classify ℚ afferents ranks "d").rank ∧
      classify ℚ afferents ranks "a" = intermediate ∧ classify ℚ afferents ranks "d" = core := by
  intro afferents ranks
  have hnonneg : ∀ m a, afferents.get? m = some a → 0 ≤ a := by
    have hall : ∀ e ∈ afferents.entries, 0 ≤ e.2 := by decide
    exact fun m a h => hall (m, a) ((afferents.mem_entries_iff m a).2 h)
  have hranks : ranks.getD "a" 0 ≤ ranks.getD "d" 0 := show (0 : ℚ) ≤ 1 / 2 by norm_num
  exact ⟨hnonneg, rfl, rfl, hranks, classify_mono hnonneg rfl rfl (by decide) hranks,
    by decide +kernel, by decide +kernel⟩

end NodeClass

end DependencyRanking
