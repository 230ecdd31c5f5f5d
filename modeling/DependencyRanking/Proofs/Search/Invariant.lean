import DependencyRanking.Graph.Search
import DependencyRanking.Proofs.Reach
import DependencyRanking.Proofs.Search.Layers

/-!
# What the search keeps

`Placed` ties the tables to the two stacks: a node is discovered when it stands on the stack or in
a component, and indices grow towards the top. `Linked` is about the path of open frames: a path
node reaches all that was discovered after it and is still on the stack, and the low link of a node
bounds the indices of what the node has seen there. `Emitted` says that no edge leaves the
components found so far, however many of them are taken from the front.
-/
namespace DependencyRanking.Search

variable {α : Type} [DecidableEq α] {nodes : List α} {succ : α → List α} {s : Search α}
variable {u v w : α}

def indexOf (s : Search α) (v : α) : Nat := s.index.getD v 0

def lowOf (s : Search α) (v : α) : Nat := s.lowlink.getD v 0

def path (s : Search α) : List α := s.frames.map Prod.fst

def unseen (s : Search α) (v : α) : List α := (entryAt? v s.frames).getD []

structure Placed (nodes : List α) (s : Search α) : Prop where
  listed : ∀ v, s.index.contains v → v ∈ nodes
  rooted : ∀ v ∈ s.roots, v ∈ nodes
  covered : ∀ v ∈ nodes, s.index.contains v ∨ v ∈ s.roots
  placed : ∀ v, s.index.contains v ↔ v ∈ s.stack ∨ v ∈ s.components.flatten
  linked : ∀ v, s.lowlink.contains v = s.index.contains v
  bounded : ∀ v, s.index.contains v → s.indexOf v < s.counter
  nodup : (s.stack ++ s.components.flatten).Nodup
  onStack : ∀ v, v ∈ s.onStack ↔ v ∈ s.stack
  descending : s.stack.Pairwise fun v w => s.indexOf w < s.indexOf v

structure Linked (nodes : List α) (succ : α → List α) (s : Search α) : Prop where
  layered : Layered s.lowOf s.path s.stack
  low_le : ∀ v ∈ s.stack, s.lowOf v ≤ s.indexOf v
  low_lt : ∀ v ∈ s.stack, v ∉ s.path → s.lowOf v < s.indexOf v
  target : ∀ v ∈ s.stack, ∃ w ∈ s.stack, s.indexOf w = s.lowOf v ∧ Reaches nodes succ v w
  reaches : ∀ u ∈ s.path, ∀ w ∈ s.stack, s.indexOf u ≤ s.indexOf w → Reaches nodes succ u w
  seen : ∀ v ∈ s.stack, ∃ before, succ v = before ++ s.unseen v ∧ ∀ w ∈ before, w ∈ nodes →
    s.index.contains w ∧ (w ∈ s.stack → s.lowOf v ≤ s.indexOf w)

structure Emitted (nodes : List α) (succ : α → List α) (components : List (List α)) : Prop where
  closed : ∀ front, front <+: components → Closed nodes succ front.flatten
  joined : ∀ c ∈ components, ∀ v ∈ c, ∀ w ∈ c, Reaches nodes succ v w
  nonempty : [] ∉ components

structure Invariant (nodes : List α) (succ : α → List α) (s : Search α) : Prop where
  placed : Placed nodes s
  linked : Linked nodes succ s
  emitted : Emitted nodes succ s.components

namespace Placed

variable (h : Placed nodes s)
include h

theorem contains_of_mem (hv : v ∈ s.stack) : s.index.contains v := (h.placed v).2 (.inl hv)

theorem nodup_stack : s.stack.Nodup := (List.nodup_append.1 h.nodup).1

theorem ne_of_mem (hv : v ∈ s.stack) (hw : ¬ s.index.contains w) : v ≠ w := by
  rintro rfl
  exact hw (h.contains_of_mem hv)

end Placed

section Discover

variable (s : Search α) (v w : α)

theorem contains_discover :
    (s.discover succ v).index.contains w = (decide (w = v) || s.index.contains w) :=
  Table.contains_insert s.index v w s.counter

theorem indexOf_discover :
    (s.discover succ v).indexOf w = if w = v then s.counter else s.indexOf w := by
  unfold indexOf discover Table.getD
  simp only [Table.get?_insert]
  split <;> rfl

theorem lowOf_discover :
    (s.discover succ v).lowOf w = if w = v then s.counter else s.lowOf w := by
  unfold lowOf discover Table.getD
  simp only [Table.get?_insert]
  split <;> rfl

theorem unseen_discover :
    (s.discover succ v).unseen w = if w = v then succ v else s.unseen w := by
  unfold unseen discover
  by_cases h : w = v
  · simp [entryAt?, h]
  · simp [entryAt?, h, Ne.symm h]

end Discover

theorem Placed.discover (h : Placed nodes s) (hw : w ∈ nodes) (hn : ¬ s.index.contains w) :
    Placed nodes (s.discover succ w) where
  listed x hx := by
    rw [contains_discover, Bool.or_eq_true, decide_eq_true_eq] at hx
    rcases hx with rfl | hx
    · exact hw
    · exact h.listed x hx
  rooted := h.rooted
  covered x hx := by
    rw [contains_discover, Bool.or_eq_true]
    exact (h.covered x hx).imp_left .inr
  placed x := by
    rw [contains_discover, Bool.or_eq_true, decide_eq_true_eq, h.placed x]
    simp [Search.discover, or_assoc]
  linked x := by
    rw [contains_discover, ← h.linked x]
    exact Table.contains_insert s.lowlink w x s.counter
  bounded x hx := by
    rw [contains_discover, Bool.or_eq_true, decide_eq_true_eq] at hx
    rw [indexOf_discover]
    show _ < s.counter + 1
    split
    · omega
    · rename_i hne
      have := h.bounded x (hx.resolve_left hne)
      omega
  nodup := by
    have hf : w ∉ s.stack ++ s.components.flatten := by
      rw [List.mem_append, ← h.placed w]
      exact hn
    exact List.nodup_cons.2 ⟨hf, h.nodup⟩
  onStack x := by
    simp [Search.discover, h.onStack x]
  descending := by
    refine List.pairwise_cons.2 ⟨fun x hx => ?_, h.descending.imp_of_mem fun hx hy hlt => ?_⟩
    · rw [indexOf_discover, indexOf_discover, if_neg (h.ne_of_mem hx hn), if_pos rfl]
      exact h.bounded x (h.contains_of_mem hx)
    · rw [indexOf_discover, indexOf_discover, if_neg (h.ne_of_mem hx hn),
        if_neg (h.ne_of_mem hy hn)]
      exact hlt

theorem Linked.discover (hp : Placed nodes s) (h : Linked nodes succ s)
    (hn : ¬ s.index.contains w) (hr : ∀ u ∈ s.path, Reaches nodes succ u w) :
    Linked nodes succ (s.discover succ w) where
  layered := by
    have hl : Layered (s.discover succ w).lowOf s.path s.stack := by
      refine h.layered.congr fun x hx => ?_
      rw [lowOf_discover, if_neg (hp.ne_of_mem hx hn)]
    have hc : Layered (s.discover succ w).lowOf (w :: s.path) ([] ++ w :: s.stack) :=
      .cons hl fun x hx => absurd hx List.not_mem_nil
    exact hc
  low_le x hx := by
    rw [lowOf_discover, indexOf_discover]
    split
    · exact le_rfl
    · rename_i hne
      exact h.low_le x ((List.mem_cons.1 hx).resolve_left hne)
  low_lt x hx hxp := by
    have hne := List.ne_of_not_mem_cons hxp
    rw [lowOf_discover, indexOf_discover, if_neg hne, if_neg hne]
    exact h.low_lt x ((List.mem_cons.1 hx).resolve_left hne) (List.not_mem_of_not_mem_cons hxp)
  target x hx := by
    rw [lowOf_discover]
    rcases List.mem_cons.1 hx with rfl | hx
    · refine ⟨x, List.mem_cons_self, ?_, .refl x⟩
      rw [indexOf_discover, if_pos rfl, if_pos rfl]
    · obtain ⟨y, hy, he, hxy⟩ := h.target x hx
      refine ⟨y, List.mem_cons_of_mem _ hy, ?_, hxy⟩
      rw [indexOf_discover, if_neg (hp.ne_of_mem hy hn), if_neg (hp.ne_of_mem hx hn), he]
  reaches u hu x hx hle := by
    rw [indexOf_discover, indexOf_discover] at hle
    rcases List.mem_cons.1 hx with rfl | hx
    · rcases List.mem_cons.1 hu with rfl | hu
      · exact .refl _
      · exact hr u hu
    · have hlt := hp.bounded x (hp.contains_of_mem hx)
      rw [if_neg (hp.ne_of_mem hx hn)] at hle
      rcases List.mem_cons.1 hu with rfl | hu
      · rw [if_pos rfl] at hle
        omega
      · rw [if_neg (hp.ne_of_mem (h.layered.sublist.subset hu) hn)] at hle
        exact h.reaches u hu x hx hle
  seen x hx := by
    rw [unseen_discover]
    rcases List.mem_cons.1 hx with rfl | hx
    · exact ⟨[], by simp, fun y hy => absurd hy List.not_mem_nil⟩
    · rw [if_neg (hp.ne_of_mem hx hn)]
      obtain ⟨before, he, hb⟩ := h.seen x hx
      refine ⟨before, he, fun y hy hyn => ?_⟩
      obtain ⟨hc, hle⟩ := hb y hy hyn
      refine ⟨by rw [contains_discover, hc, Bool.or_true], fun hys => ?_⟩
      have hyw : y ≠ w := by
        rintro rfl
        exact hn hc
      rw [lowOf_discover, indexOf_discover, if_neg (hp.ne_of_mem hx hn), if_neg hyw]
      exact hle ((List.mem_cons.1 hys).resolve_left hyw)

theorem Invariant.discover (h : Invariant nodes succ s) (hw : w ∈ nodes)
    (hn : ¬ s.index.contains w) (hr : ∀ u ∈ s.path, Reaches nodes succ u w) :
    Invariant nodes succ (s.discover succ w) :=
  ⟨h.placed.discover hw hn, h.linked.discover h.placed hn hr, h.emitted⟩

theorem Invariant.skipRoot {root : α} {rest : List α} (h : Invariant nodes succ s)
    (hr : s.roots = root :: rest) (hc : s.index.contains root) :
    Invariant nodes succ { s with roots := rest } where
  placed := { h.placed with
    rooted := fun v hv => h.placed.rooted v (hr ▸ List.mem_cons_of_mem _ hv)
    covered := by
      intro v hv
      rcases h.placed.covered v hv with hi | hi
      · exact .inl hi
      · rw [hr] at hi
        rcases List.mem_cons.1 hi with rfl | hi
        · exact .inl hc
        · exact .inr hi }
  linked := { h.linked with }
  emitted := h.emitted

theorem Invariant.advance (frames : List (α × List α)) (rest : List α) (h : Invariant nodes succ s)
    (hp : frames.map Prod.fst = s.path) (hv : s.unseen v = w :: rest)
    (ht : ∀ x, (entryAt? x frames).getD [] = if x = v then rest else s.unseen x)
    (hw : w ∈ nodes → s.index.contains w ∧ (w ∈ s.stack → s.lowOf v ≤ s.indexOf w)) :
    Invariant nodes succ { s with frames } where
  placed := { h.placed with }
  linked := { h.linked with
    layered := by
      have hl := h.linked.layered
      rw [← hp] at hl
      exact hl
    low_lt := by
      intro x hx hxp
      refine h.linked.low_lt x hx ?_
      rw [← hp]
      exact hxp
    reaches := by
      intro u hu
      refine h.linked.reaches u ?_
      rw [← hp]
      exact hu
    seen := by
      intro x hx
      show ∃ before, succ x = before ++ (entryAt? x frames).getD [] ∧ _
      rw [ht x]
      obtain ⟨before, he, hb⟩ := h.linked.seen x hx
      by_cases hxv : x = v
      · subst hxv
        rw [if_pos rfl]
        refine ⟨before ++ [w], by simp [he, hv], fun y hy hyn => ?_⟩
        rcases List.mem_append.1 hy with hy | hy
        · exact hb y hy hyn
        · obtain rfl := List.mem_singleton.1 hy
          exact hw hyn
      · rw [if_neg hxv]
        exact ⟨before, he, hb⟩ }
  emitted := h.emitted

def lowered (s : Search α) (v : α) (bound : Nat) : Search α :=
  { s with lowlink := s.lowlink.insert v (min (s.lowOf v) bound) }

theorem lower_eq (bound : Nat) (hc : s.lowlink.contains v) :
    s.lower v bound = .ok (s.lowered v bound) := by
  obtain ⟨low, hl⟩ := Option.isSome_iff_exists.1 hc
  simp [lower, lowered, lowOf, Table.getD, hl]

theorem lowOf_lowered (s : Search α) (v x : α) (bound : Nat) :
    (s.lowered v bound).lowOf x = if x = v then min (s.lowOf v) bound else s.lowOf x := by
  unfold lowOf lowered Table.getD
  simp only [Table.get?_insert]
  split <;> rfl

theorem lowOf_lowered_le (s : Search α) (v x : α) (bound : Nat) :
    (s.lowered v bound).lowOf x ≤ s.lowOf x := by
  rw [lowOf_lowered]
  split
  · rename_i h
    subst h
    exact Nat.min_le_left _ _
  · exact le_rfl

theorem Invariant.lowered {bound : Nat} (h : Invariant nodes succ s) (hv : v ∈ s.path)
    (ht : ∃ w ∈ s.stack, s.indexOf w = bound ∧ Reaches nodes succ v w) :
    Invariant nodes succ (s.lowered v bound) where
  placed := { h.placed with
    linked := by
      intro x
      have hs := h.placed.contains_of_mem (h.linked.layered.sublist.subset hv)
      have hi : (s.lowered v bound).lowlink.contains x =
          (decide (x = v) || s.lowlink.contains x) := Table.contains_insert _ _ _ _
      rw [hi, h.placed.linked x]
      by_cases hx : x = v
      · subst hx
        simp [Search.lowered, hs]
      · simp [Search.lowered, hx] }
  linked :=
    { layered := by
        refine h.linked.layered.lower h.placed.nodup_stack hv (fun x hx => ?_) ?_
        · rw [lowOf_lowered, if_neg hx]
        · exact lowOf_lowered_le s v v bound
      low_le := fun x hx => (lowOf_lowered_le s v x bound).trans (h.linked.low_le x hx)
      low_lt := fun x hx hxp =>
        (lowOf_lowered_le s v x bound).trans_lt (h.linked.low_lt x hx hxp)
      target := by
        intro x hx
        rw [lowOf_lowered]
        by_cases hxv : x = v
        · subst hxv
          rw [if_pos rfl]
          rcases Nat.le_total (s.lowOf x) bound with hle | hle
          · rw [Nat.min_eq_left hle]
            exact h.linked.target x hx
          · rw [Nat.min_eq_right hle]
            exact ht
        · rw [if_neg hxv]
          exact h.linked.target x hx
      reaches := h.linked.reaches
      seen := by
        intro x hx
        obtain ⟨before, he, hb⟩ := h.linked.seen x hx
        refine ⟨before, he, fun y hy hyn => ⟨(hb y hy hyn).1, fun hys => ?_⟩⟩
        exact (lowOf_lowered_le s v x bound).trans ((hb y hy hyn).2 hys) }
  emitted := h.emitted

end DependencyRanking.Search
