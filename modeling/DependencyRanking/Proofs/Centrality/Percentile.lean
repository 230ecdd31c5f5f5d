import DependencyRanking.Centrality.Percentile
import DependencyRanking.Proofs.Number.Value
import DependencyRanking.Proofs.Sorting
import DependencyRanking.Table
import Mathlib.Data.Prod.Lex
import Mathlib.Data.String.Basic

/-!
# Ranks of modules

A module stands before another if its score has the greater value, or the same value and the module
the smaller id. These standings are a linear order, also where a score is undefined, and the order of
ranks is sorted by it.
-/
namespace DependencyRanking

variable {ν : Type} [Measured ν] {scores : List (ModuleId × ν)} {a b : ModuleId × ν} {i j n : Nat}

def standing (s : ModuleId × ν) : (WithBot Extended)ᵒᵈ ×ₗ ModuleId :=
  toLex (OrderDual.toDual (Measured.number s.2).value, s.1)

theorem standing_lt : standing a < standing b ↔
    (Measured.number b.2).value < (Measured.number a.2).value ∨
      (Measured.number a.2).value = (Measured.number b.2).value ∧ a.1 < b.1 := by
  unfold standing
  rw [Prod.Lex.toLex_lt_toLex]
  simp

theorem nodup_standing (h : (scores.map Prod.fst).Nodup) : (scores.map standing).Nodup := by
  refine List.Nodup.of_map (fun k => (ofLex k).2) ?_
  rw [List.map_map]
  exact h

theorem outranks_iff (x y : ν) :
    outranks x y = true ↔ (Measured.number y).value < (Measured.number x).value := by
  unfold outranks
  generalize Measured.number x = m
  generalize Measured.number y = n
  have hnot : ∀ k : Number, (k == k) = false ↔ k.value = ⊥ := by
    intro k
    rw [← Bool.not_eq_true, Number.beq_iff_value]
    simp
  simp only [Bool.or_eq_true, Bool.and_eq_true, decide_eq_true_eq, Bool.not_eq_true',
    Number.lt_iff_value, Number.beq_iff_value, hnot]
  by_cases hn : n.value = ⊥
  · simp [hn, bot_lt_iff_ne_bot]
  · simp [hn]

theorem pairwise_rankOrder (h : (scores.map Prod.fst).Nodup) :
    (rankOrder scores).Pairwise fun a b => standing a < standing b := by
  -- sorting is stable, so modules of one value stay in the order of their ids
  have htrans : ∀ a b c : ModuleId × ν, (!outranks b.2 a.2) = true → (!outranks c.2 b.2) = true →
      (!outranks c.2 a.2) = true := by
    simp only [Bool.not_eq_true', ← Bool.not_eq_true, outranks_iff, not_lt]
    exact fun a b c hab hbc => hbc.trans hab
  have htotal : ∀ a b : ModuleId × ν, (!outranks b.2 a.2 || !outranks a.2 b.2) = true := by
    simp only [Bool.or_eq_true, Bool.not_eq_true', ← Bool.not_eq_true, outranks_iff, not_lt]
    exact fun a b => le_total _ _
  have hle := List.pairwise_mergeSort htrans htotal (scores.mergeSort fun a b => decide (a.1 ≤ b.1))
  refine (hle.and (pairwise_mergeSort_stable htrans htotal (pairwise_mergeSort_key Prod.fst h))).imp ?_
  intro a b hab
  simp only [Bool.not_eq_true', ← Bool.not_eq_true, outranks_iff, not_lt] at hab
  rw [standing_lt]
  rcases hab.1.lt_or_eq with hlt | heq
  · exact .inl hlt
  · exact .inr ⟨heq.symm, hab.2 heq.ge⟩

theorem rankOrder_perm (scores : List (ModuleId × ν)) : (rankOrder scores).Perm scores :=
  (List.mergeSort_perm _ _).trans (List.mergeSort_perm _ _)

theorem eq_rankOrder {l : List (ModuleId × ν)} (h : (scores.map Prod.fst).Nodup)
    (hp : l.Perm scores) (hl : l.Pairwise fun a b => standing a < standing b) :
    l = rankOrder scores := by
  refine List.Perm.eq_of_pairwise ?_ hl (pairwise_rankOrder h) (hp.trans (rankOrder_perm scores).symm)
  exact fun a b _ _ hab hba => absurd hba hab.not_gt

theorem percentileAt_antitone (hij : i ≤ j) (n : Nat) : percentileAt j n ≤ percentileAt i n :=
  Nat.div_le_div_right (Nat.mul_le_mul_left 100 (Nat.sub_le_sub_left hij n))

theorem entryAt?_percentileRanks (h : (scores.map Prod.fst).Nodup)
    (ha : (rankOrder scores)[i]? = some a) :
    entryAt? a.1 (percentileRanks scores) = some (percentileAt i scores.length) := by
  have hkeys : (percentileRanks scores).map Prod.fst = (rankOrder scores).map Prod.fst := by
    unfold percentileRanks
    rw [List.map_map]
    conv_rhs => rw [← List.zipIdx_map_fst 0 (rankOrder scores), List.map_map]
    rfl
  have hn : ((percentileRanks scores).map Prod.fst).Nodup := by
    rw [hkeys]
    exact ((rankOrder_perm scores).map Prod.fst).nodup_iff.2 h
  refine (Table.entryAt?_eq_some_iff hn).2 (List.mem_map.2 ⟨(a, i), ?_, rfl⟩)
  exact List.mem_zipIdx_iff_getElem?.2 ha

end DependencyRanking
