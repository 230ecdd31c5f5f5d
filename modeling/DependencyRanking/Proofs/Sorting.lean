import DependencyRanking.Graph.ModuleId
import Mathlib.Data.List.Nodup
import Mathlib.Data.String.Basic
import Mathlib.Order.Lattice

/-!
# Sorted lists and their maxima

Elements with distinct keys are sorted strictly by key. Sorting is stable: what the order does not
tell apart stays in the order in which it was. A maximum is at most what every element is at most.
-/
namespace DependencyRanking

theorem foldl_max_le_iff {α : Type} [LinearOrder α] {l : List α} {a n : α} :
    l.foldl max a ≤ n ↔ a ≤ n ∧ ∀ x ∈ l, x ≤ n := by
  induction l generalizing a with
  | nil => simp
  | cons x l ih => simp [ih, and_assoc]

section Keys

variable {α κ : Type} [LinearOrder κ] {d : DecidableLE κ}

theorem pairwise_mergeSort_le (key : α → κ) (l : List α) :
    (l.mergeSort fun a b => @decide (key a ≤ key b) (d _ _)).Pairwise fun a b => key a ≤ key b := by
  have hle := @List.pairwise_mergeSort α (fun a b => @decide (key a ≤ key b) (d _ _))
    (fun a b c hab hbc => decide_eq_true
      (le_trans (of_decide_eq_true hab) (of_decide_eq_true hbc)))
    (fun a b => by simpa using le_total (key a) (key b)) l
  exact hle.imp of_decide_eq_true

theorem pairwise_mergeSort_key (key : α → κ) {l : List α} (h : (l.map key).Nodup) :
    (l.mergeSort fun a b => @decide (key a ≤ key b) (d _ _)).Pairwise fun a b => key a < key b := by
  have hne : (l.mergeSort fun a b => @decide (key a ≤ key b) (d _ _)).Pairwise
      fun a b => key a ≠ key b :=
    List.pairwise_map.1 (((List.mergeSort_perm l _).map key).nodup_iff.2 h)
  exact ((pairwise_mergeSort_le key l).and hne).imp fun hab => lt_of_le_of_ne hab.1 hab.2

end Keys

theorem pairwise_mergeSort_stable {α : Type} {le : α → α → Bool} {r : α → α → Prop} {l : List α}
    (htrans : ∀ a b c, le a b = true → le b c = true → le a c = true)
    (htotal : ∀ a b, (le a b || le b a) = true) (hr : l.Pairwise r) :
    (l.mergeSort le).Pairwise fun a b => le b a = true → r a b := by
  -- `a` is sorted in front of what stood behind it, or is strictly above it
  induction l with
  | nil => simp
  | cons a l ih =>
    obtain ⟨ha, hl⟩ := List.pairwise_cons.1 hr
    obtain ⟨front, back, hall, hrest, hfront⟩ := List.mergeSort_cons htrans htotal a l
    have hback : ∀ b ∈ back, b ∈ l := by
      intro b hb
      have hmem : b ∈ l.mergeSort le := hrest ▸ List.mem_append_right front hb
      exact List.mem_mergeSort.1 hmem
    have hp := ih hl
    rw [hrest, List.pairwise_append] at hp
    rw [hall, List.pairwise_append, List.pairwise_cons]
    refine ⟨hp.1, ⟨fun b hb _ => ha b (hback b hb), hp.2.1⟩, fun x hx y hy => ?_⟩
    rcases List.mem_cons.1 hy with rfl | hy
    · exact fun hle => absurd hle (by simpa using hfront x hx)
    · exact hp.2.2 x hx y hy

end DependencyRanking
