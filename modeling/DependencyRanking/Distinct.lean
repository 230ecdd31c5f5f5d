/-!
# Lists without repetition

`distinct` keeps the first occurrence of every element.
-/
namespace DependencyRanking

variable {α : Type} [DecidableEq α]

def distinct : List α → List α
  | [] => []
  | a :: rest => a :: (distinct rest).filter (· ≠ a)

@[simp] theorem mem_distinct {a : α} {as : List α} : a ∈ distinct as ↔ a ∈ as := by
  induction as with
  | nil => simp [distinct]
  | cons b rest ih =>
    by_cases h : a = b <;> simp [distinct, h, ih]

theorem nodup_distinct (as : List α) : (distinct as).Nodup := by
  induction as with
  | nil => simp [distinct]
  | cons a rest ih =>
    rw [distinct, List.nodup_cons]
    exact ⟨by simp, ih.sublist List.filter_sublist⟩

theorem distinct_perm {as bs : List α} (h : ∀ a, a ∈ as ↔ a ∈ bs) :
    (distinct as).Perm (distinct bs) := by
  rw [List.perm_ext_iff_of_nodup (nodup_distinct as) (nodup_distinct bs)]
  intro a
  rw [mem_distinct, mem_distinct, h]

theorem distinct_concat (as : List α) (a : α) :
    distinct (as ++ [a]) = if a ∈ as then distinct as else distinct as ++ [a] := by
  induction as with
  | nil => rfl
  | cons b rest ih =>
    rw [List.cons_append, distinct, ih]
    by_cases hr : a ∈ rest
    · simp [distinct, hr]
    · rw [if_neg hr, List.filter_append]
      by_cases hb : a = b
      · simp [distinct, hb]
      · simp [distinct, hr, hb]

end DependencyRanking
