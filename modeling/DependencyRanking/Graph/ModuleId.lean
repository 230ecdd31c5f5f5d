import DependencyRanking.Distinct

/-!
# Module ids

Modules are named by texts and ordered by code points. `sortIds` is the ascending arrangement of a
list of ids, `idSet` the ascending list of its distinct ids.
-/
namespace DependencyRanking

abbrev ModuleId := String

def sortIds (ids : List ModuleId) : List ModuleId := ids.mergeSort fun a b => decide (a ≤ b)

theorem sortIds_perm (ids : List ModuleId) : (sortIds ids).Perm ids := List.mergeSort_perm _ _

@[simp] theorem mem_sortIds {a : ModuleId} {ids : List ModuleId} : a ∈ sortIds ids ↔ a ∈ ids :=
  (sortIds_perm ids).mem_iff

theorem pairwise_sortIds (ids : List ModuleId) : (sortIds ids).Pairwise (· ≤ ·) := by
  have h := @List.pairwise_mergeSort ModuleId (fun a b => decide (a ≤ b))
    (fun a b c h₁ h₂ => by
      simp only [decide_eq_true_eq] at *
      exact String.le_trans h₁ h₂)
    (fun a b => by
      rcases String.le_total a b with h | h <;> simp [h])
    ids
  exact h.imp fun h => by simpa using h

theorem ascending_sortIds {ids : List ModuleId} (h : ids.Nodup) :
    (sortIds ids).Pairwise (· < ·) :=
  ((pairwise_sortIds ids).and ((sortIds_perm ids).nodup_iff.2 h)).imp fun h =>
    Std.lt_of_le_of_ne h.1 h.2

theorem nodup_sortIds {ids : List ModuleId} (h : ids.Nodup) : (sortIds ids).Nodup :=
  (sortIds_perm ids).nodup_iff.2 h

theorem eq_of_perm_of_pairwise {ids ids' : List ModuleId} (h : ids.Perm ids')
    (hs : ids.Pairwise (· ≤ ·)) (hs' : ids'.Pairwise (· ≤ ·)) : ids = ids' := by
  refine List.Perm.eq_of_pairwise ?_ hs hs' h
  intro a b _ _ hab hba
  exact String.le_antisymm hab hba

theorem sortIds_eq_self {ids : List ModuleId} (h : ids.Pairwise (· ≤ ·)) : sortIds ids = ids :=
  eq_of_perm_of_pairwise (sortIds_perm ids) (pairwise_sortIds ids) h

theorem sortIds_eq_of_perm {ids ids' : List ModuleId} (h : ids.Perm ids') :
    sortIds ids = sortIds ids' := by
  refine eq_of_perm_of_pairwise ?_ (pairwise_sortIds ids) (pairwise_sortIds ids')
  exact (sortIds_perm ids).trans (h.trans (sortIds_perm ids').symm)

def idSet (ids : List ModuleId) : List ModuleId := sortIds (distinct ids)

@[simp] theorem mem_idSet {a : ModuleId} {ids : List ModuleId} : a ∈ idSet ids ↔ a ∈ ids := by
  simp [idSet]

theorem nodup_idSet (ids : List ModuleId) : (idSet ids).Nodup :=
  nodup_sortIds (nodup_distinct ids)

theorem ascending_idSet (ids : List ModuleId) : (idSet ids).Pairwise (· < ·) :=
  ascending_sortIds (nodup_distinct ids)

end DependencyRanking
