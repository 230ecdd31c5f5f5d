import DependencyRanking.Plan
import DependencyRanking.Proofs.Number.Finite
import DependencyRanking.Proofs.Number.Value
import DependencyRanking.Settings.Config

/-!
# Choosing the core modules

A checked configuration holds a quantile between zero and one, which has a double between zero and
one. So the core modules are chosen without an error.
-/
namespace DependencyRanking

namespace Number

theorem nearest_unit {n : Number} (h : RankingConfig.isUnit n = true) :
    ∃ q, n.nearest = .ok q ∧ (0.0 : Float) ≤ q ∧ q ≤ 1.0 := by
  unfold RankingConfig.isUnit at h
  rw [Bool.and_eq_true, decide_eq_true_eq, decide_eq_true_eq] at h
  obtain ⟨h0, h1⟩ := h
  cases n with
  | flag b =>
    cases b with
    | false => exact ⟨0.0, rfl, by decide, by decide⟩
    | true => exact ⟨1.0, rfl, by decide, by decide⟩
  | int n =>
    have hn : n = 0 ∨ n = 1 := by
      have hlow := (zero_le_int n).1 h0
      have hhigh := (int_le_one n).1 h1
      omega
    rcases hn with rfl | rfl
    · exact ⟨Double.ofInt 0, rfl, by decide, by decide⟩
    · exact ⟨Double.ofInt 1, rfl, by decide, by decide⟩
  | float x => exact ⟨x, rfl, (float_le_float 0.0 x).1 h0, (float_le_float x 1.0).1 h1⟩

end Number

theorem quantile_ok (sample : List Float) {q : Float} (h0 : (0.0 : Float) ≤ q) (h1 : q ≤ 1.0) :
    ∃ x, quantile sample q = .ok x := by
  unfold quantile
  split
  · exact ⟨_, rfl⟩
  · split
    · split
      · exact ⟨_, rfl⟩
      · exact ⟨_, rfl⟩
    · rename_i hq
      exact absurd ⟨h0, h1⟩ hq

theorem Plan.coreModules_ok (afferents : List (ModuleId × Int)) {q : Float}
    (h0 : (0.0 : Float) ≤ q) (h1 : q ≤ 1.0) : ∃ core, coreModules afferents q = .ok core := by
  obtain ⟨x, hx⟩ := quantile_ok (afferents.map fun a => Scalar.ofInt a.2) h0 h1
  unfold coreModules
  rw [hx]
  exact ⟨_, rfl⟩

end DependencyRanking
