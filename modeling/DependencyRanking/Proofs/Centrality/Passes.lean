import DependencyRanking.Centrality.PageRank
import Mathlib.Data.Nat.Basic

/-!
# The passes of a run

A run starts from scores that are all one. It makes passes until one changes the scores little
enough or the cap is reached, and reports the last pass that it has made: the scores, the number of
passes, the change, and whether that is small enough. This holds for any arithmetic of the scores.
-/
namespace DependencyRanking.PageRank

section Stopping

variable {α : Type} {small strict : α → Bool} {change : Nat → α} {cap larger k j : Nat}

/-- Of at most `cap` passes with some changes, the pass after `k` passes is the last one. -/
structure StopsAt (small : α → Bool) (change : Nat → α) (cap k : Nat) : Prop where
  lt_cap : k < cap
  large_before : ∀ j < k, small (change j) = false
  small_or_cap : small (change k) = true ∨ k + 1 = cap

namespace StopsAt

theorem le (h : StopsAt small change cap k) (hs : StopsAt strict change cap j)
    (himp : ∀ x, strict x = true → small x = true) : k ≤ j := by
  by_contra hlt
  have hlarge := h.large_before j (by omega)
  rcases hs.small_or_cap with hsmall | hcap
  · rw [himp _ hsmall] at hlarge
    cases hlarge
  · have hk := h.lt_cap
    omega

theorem unique (h : StopsAt small change cap k) (hj : StopsAt small change cap j) : k = j :=
  Nat.le_antisymm (h.le hj fun _ hx => hx) (hj.le h fun _ hx => hx)

theorem raise (h : StopsAt small change cap k) (hsmall : small (change k) = true)
    (hcap : cap ≤ larger) : StopsAt small change larger k :=
  ⟨Nat.lt_of_lt_of_le h.lt_cap hcap, h.large_before, .inl hsmall⟩

theorem succ (hlarge : small (change 0) = false)
    (h : StopsAt small (fun j => change (j + 1)) cap k) : StopsAt small change (cap + 1) (k + 1) where
  lt_cap := Nat.succ_lt_succ h.lt_cap
  large_before j hj := by
    cases j with
    | zero => exact hlarge
    | succ j => exact h.large_before j (Nat.lt_of_succ_lt_succ hj)
  small_or_cap := h.small_or_cap.imp_right fun hcap => by omega

end StopsAt

end Stopping

variable {α : Type} [Scalar α]

def weightsOf (nodes : List ModuleId) (bias : Option (ModuleId → α)) : Scores α :=
  match bias with
  | some bias => teleport nodes bias
  | none => uniform nodes

def scoresAfter (g : ModuleGraph) (d : Damping α) (weights : Scores α) : Nat → Scores α
  | 0 => uniform g.nodes
  | k + 1 => pass g d weights (scoresAfter g d weights k)

def changeAfter (g : ModuleGraph) (d : Damping α) (weights : Scores α) (k : Nat) : α :=
  delta (scoresAfter g d weights k) (scoresAfter g d weights (k + 1))

def endedAt (g : ModuleGraph) (d : Damping α) (weights : Scores α) (small : α → Bool) (k : Nat) :
    Run α :=
  ⟨scoresAfter g d weights (k + 1), k + 1, small (changeAfter g d weights k),
    changeAfter g d weights k⟩

theorem iterate_last (g : ModuleGraph) (d : Damping α) (weights : Scores α) (small : α → Bool)
    {cap : Nat} (hcap : 0 < cap) (performed : Nat) (last : α) :
    ∃ k, StopsAt small (fun j => changeAfter g d weights (performed + j)) cap k ∧
      iterate (pass g d weights) small cap performed last (scoresAfter g d weights performed) =
        endedAt g d weights small (performed + k) := by
  induction cap generalizing performed last with
  | zero => omega
  | succ cap ih =>
    have hnew : pass g d weights (scoresAfter g d weights performed) =
      scoresAfter g d weights (performed + 1) := rfl
    have hchange : delta (scoresAfter g d weights performed)
      (scoresAfter g d weights (performed + 1)) = changeAfter g d weights performed := rfl
    simp only [iterate, hnew, hchange]
    cases hsmall : small (changeAfter g d weights performed) with
    | true =>
      refine ⟨0, ⟨Nat.succ_pos cap, by simp, .inl hsmall⟩, ?_⟩
      simp [endedAt, hsmall]
    | false =>
      cases cap with
      | zero =>
        refine ⟨0, ⟨Nat.one_pos, by simp, .inr rfl⟩, ?_⟩
        simp [iterate, endedAt, hsmall]
      | succ cap =>
        obtain ⟨k, hk, hrun⟩ :=
          ih (Nat.succ_pos cap) (performed + 1) (changeAfter g d weights performed)
        have hnext : ∀ j, performed + 1 + j = performed + (j + 1) := fun j => by omega
        simp only [hnext] at hk hrun
        exact ⟨k + 1, hk.succ hsmall, hrun⟩

section Modules

theorem map_fst_uniform (nodes : List ModuleId) :
    (uniform nodes : Scores α).map Prod.fst = nodes := by
  simp [uniform, Function.comp_def]

theorem map_fst_teleport (nodes : List ModuleId) (bias : ModuleId → α) :
    (teleport nodes bias).map Prod.fst = nodes := by
  unfold teleport
  simp only
  split
  · simp [Function.comp_def]
  · exact map_fst_uniform nodes

theorem map_fst_weightsOf (nodes : List ModuleId) (bias : Option (ModuleId → α)) :
    (weightsOf nodes bias).map Prod.fst = nodes := by
  cases bias with
  | none => exact map_fst_uniform nodes
  | some bias => exact map_fst_teleport nodes bias

theorem map_fst_pass (g : ModuleGraph) (d : Damping α) (weights scores : Scores α) :
    (pass g d weights scores).map Prod.fst = weights.map Prod.fst := by
  simp [pass, Function.comp_def]

theorem map_fst_scoresAfter {g : ModuleGraph} {weights : Scores α} (d : Damping α) (k : Nat)
    (hw : weights.map Prod.fst = g.nodes) :
    (scoresAfter g d weights k).map Prod.fst = g.nodes := by
  cases k with
  | zero => exact map_fst_uniform g.nodes
  | succ k => exact (map_fst_pass g d weights _).trans hw

theorem of_eq_of_mem {scores : Scores α} {e : ModuleId × α} (hn : (scores.map Prod.fst).Nodup)
    (he : e ∈ scores) : Scores.of scores e.1 = e.2 := by
  unfold Scores.of
  rw [(Table.entryAt?_eq_some_iff hn).2 he]
  rfl

theorem map_snd_eq {nodes : List ModuleId} {scores : Scores α} (hk : scores.map Prod.fst = nodes)
    (hn : nodes.Nodup) : scores.map Prod.snd = nodes.map (Scores.of scores) := by
  subst hk
  rw [List.map_map]
  exact List.map_congr_left fun e he => (of_eq_of_mem hn he).symm

end Modules

section Runs

variable {g : ModuleGraph} {small : α → Bool} {cap : Nat} {bias : Option (ModuleId → α)}
variable (hn : g.nodes ≠ [])
include hn

theorem run_last (d : Damping α) (small : α → Bool) (hcap : 0 < cap)
    (bias : Option (ModuleId → α)) :
    ∃ k, StopsAt small (changeAfter g d (weightsOf g.nodes bias)) cap k ∧
      run g d small cap bias = endedAt g d (weightsOf g.nodes bias) small k := by
  have h := iterate_last g d (weightsOf g.nodes bias) small hcap 0 0
  simp only [Nat.zero_add] at h
  unfold run
  rw [if_neg hn]
  exact h

theorem run_of_stopsAt {d : Damping α} {k : Nat}
    (h : StopsAt small (changeAfter g d (weightsOf g.nodes bias)) cap k) :
    run g d small cap bias = endedAt g d (weightsOf g.nodes bias) small k := by
  obtain ⟨j, hj, hrun⟩ := run_last hn d small (Nat.zero_lt_of_lt h.lt_cap) bias
  rw [hrun, hj.unique h]

theorem run_zero (d : Damping α) (small : α → Bool) (bias : Option (ModuleId → α)) :
    run g d small 0 bias = ⟨uniform g.nodes, 0, false, 0⟩ := by
  unfold run
  rw [if_neg hn]
  rfl

theorem run_scores (d : Damping α) (small : α → Bool) (cap : Nat)
    (bias : Option (ModuleId → α)) :
    ∃ k ≤ cap, (0 < cap → 0 < k) ∧
      (run g d small cap bias).scores = scoresAfter g d (weightsOf g.nodes bias) k ∧
      (run g d small cap bias).iterations = k := by
  rcases Nat.eq_zero_or_pos cap with rfl | hcap
  · rw [run_zero hn]
    exact ⟨0, Nat.le_refl 0, fun h => h, rfl, rfl⟩
  · obtain ⟨k, hk, hrun⟩ := run_last hn d small hcap bias
    rw [hrun]
    exact ⟨k + 1, hk.lt_cap, fun _ => Nat.succ_pos k, rfl, rfl⟩

theorem run_converged (d : Damping α) (small : α → Bool) (cap : Nat)
    (bias : Option (ModuleId → α)) : (run g d small cap bias).converged = true ↔
      ∃ k < cap, small (changeAfter g d (weightsOf g.nodes bias) k) = true := by
  rcases Nat.eq_zero_or_pos cap with rfl | hcap
  · rw [run_zero hn]
    simp
  · obtain ⟨k, hk, hrun⟩ := run_last hn d small hcap bias
    rw [hrun]
    constructor
    · intro hsmall
      exact ⟨k, hk.lt_cap, hsmall⟩
    · intro ⟨j, hj, hsmall⟩
      rcases hk.small_or_cap with hlast | hlast
      · exact hlast
      · have hle : ¬ j < k := fun hlt => by
          rw [hk.large_before j hlt] at hsmall
          cases hsmall
        obtain rfl : j = k := by omega
        exact hsmall

theorem run_finalDelta (d : Damping α) (small : α → Bool) (hcap : 1 ≤ cap)
    (bias : Option (ModuleId → α)) :
    ∃ k, (run g d small cap bias).iterations = k + 1 ∧
      (run g d small cap bias).finalDelta = changeAfter g d (weightsOf g.nodes bias) k := by
  obtain ⟨k, -, hrun⟩ := run_last hn d small hcap bias
  rw [hrun]
  exact ⟨k, rfl, rfl⟩

end Runs

end DependencyRanking.PageRank
