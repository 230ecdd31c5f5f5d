import Mathlib.Data.List.Nodup
import Mathlib.Order.Basic
import Mathlib.Data.Nat.Basic

/-!
# The layers of a search stack

The nodes of the open frames cut the stack into layers: each of them, and above it the nodes that
were left without closing a component. No node of a layer links lower than the node that opens it.
-/
namespace DependencyRanking.Search

variable {α : Type} {low low' : α → Nat} {path stack : List α} {u v w : α}

inductive Layered (low : α → Nat) : List α → List α → Prop
  | nil : Layered low [] []
  | cons {v : α} {above path stack : List α} (below : Layered low path stack)
      (bound : ∀ w ∈ above, low v ≤ low w) : Layered low (v :: path) (above ++ v :: stack)

theorem Layered.split (h : Layered low (v :: path) stack) :
    ∃ above below, stack = above ++ v :: below ∧ Layered low path below ∧
      ∀ w ∈ above, low v ≤ low w := by
  cases h with
  | cons below bound => exact ⟨_, _, rfl, below, bound⟩

theorem Layered.eq_nil (h : Layered low [] stack) : stack = [] := by
  cases h
  rfl

theorem Layered.sublist (h : Layered low path stack) : path.Sublist stack := by
  induction h with
  | nil => exact List.Sublist.refl []
  | cons below bound ih =>
    exact (List.Sublist.cons_cons _ ih).trans (List.sublist_append_right _ _)

theorem Layered.congr (h : Layered low path stack) (hl : ∀ x ∈ stack, low' x = low x) :
    Layered low' path stack := by
  induction h with
  | nil => exact .nil
  | @cons v above path stack below bound ih =>
    refine .cons (ih fun x hx => hl x (by simp [hx])) fun w hw => ?_
    rw [hl v (by simp), hl w (by simp [hw])]
    exact bound w hw

theorem Layered.lower (h : Layered low path stack) (hn : stack.Nodup) (hu : u ∈ path)
    (hl : ∀ x, x ≠ u → low' x = low x) (hle : low' u ≤ low u) : Layered low' path stack := by
  -- only nodes of the path are lowered, and these stand in no layer but at the bottom of one
  induction h with
  | nil => exact .nil
  | @cons v above path stack below bound ih =>
    obtain ⟨-, hs, hd⟩ := List.nodup_append.1 hn
    have hfree : ∀ w ∈ above, w ≠ u := by
      intro w hw
      refine hd w hw u ?_
      rcases List.mem_cons.1 hu with rfl | hu
      · exact List.mem_cons_self
      · exact List.mem_cons_of_mem _ (below.sublist.subset hu)
    have hrest : Layered low' path stack := by
      by_cases hp : u ∈ path
      · exact ih (List.nodup_cons.1 hs).2 hp
      · refine below.congr fun x hx => hl x ?_
        rintro rfl
        rcases List.mem_cons.1 hu with rfl | hu
        · exact (List.nodup_cons.1 hs).1 hx
        · exact hp hu
    refine .cons hrest fun w hw => ?_
    rw [hl w (hfree w hw)]
    have hv : low' v ≤ low v := by
      by_cases hvu : v = u
      · exact hvu ▸ hle
      · exact (hl v hvu).le
    exact hv.trans (bound w hw)

theorem Layered.merge (h : Layered low (v :: u :: path) stack) (hle : low u ≤ low v) :
    Layered low (u :: path) stack := by
  obtain ⟨above, rest, rfl, hrest, hv⟩ := h.split
  obtain ⟨above', below, rfl, hbelow, hu⟩ := hrest.split
  have hm : Layered low (u :: path) ((above ++ v :: above') ++ u :: below) := by
    refine .cons hbelow fun w hw => ?_
    rcases List.mem_append.1 hw with hw | hw
    · exact hle.trans (hv w hw)
    · rcases List.mem_cons.1 hw with rfl | hw
      · exact hle
      · exact hu w hw
  simpa using hm

theorem Layered.exists_base {index : α → Nat} (h : Layered low path stack)
    (hd : stack.Pairwise fun v w => index w < index v) (hw : w ∈ stack) :
    ∃ u ∈ path, index u ≤ index w := by
  induction h with
  | nil => exact absurd hw List.not_mem_nil
  | @cons v above path stack below bound ih =>
    obtain ⟨-, hs, ha⟩ := List.pairwise_append.1 hd
    rcases List.mem_append.1 hw with hw | hw
    · exact ⟨v, List.mem_cons_self, (ha w hw v List.mem_cons_self).le⟩
    · rcases List.mem_cons.1 hw with rfl | hw
      · exact ⟨w, List.mem_cons_self, le_rfl⟩
      · obtain ⟨u, hu, hle⟩ := ih (List.pairwise_cons.1 hs).2 hw
        exact ⟨u, List.mem_cons_of_mem _ hu, hle⟩

end DependencyRanking.Search
