import DependencyRanking.Distinct
import DependencyRanking.Proofs.Outcome
import DependencyRanking.Proofs.Search.Run

/-!
# How many steps a search takes

A step uses up a root, or a successor that the open frame still has to look at, or that frame. A
node that is discovered is exchanged for a frame with its successors. So all searches of a graph are
equally long: one step for every listed root, and for every distinct node one step for each of its
successors and one to leave it.

No step fails on the way. The nodes of the open frames have their index and their low link, and
stand on the stack, so popping the stack meets each of them.
-/
namespace DependencyRanking.Search

variable {α : Type} [DecidableEq α] {nodes : List α} {succ : α → List α} {s t : Search α}
variable {v w : α} {n : Nat}

section Length

def undiscovered (nodes : List α) (index : Table α Nat) : List α :=
  (distinct nodes).filter fun v => !index.contains v

def stepsOf (succ : α → List α) : List α → Nat := tally fun v => (succ v).length + 1

def stepsLeft (nodes : List α) (succ : α → List α) (s : Search α) : Nat :=
  s.roots.length + stepsOf succ (undiscovered nodes s.index) +
    tally (fun f => f.2.length + 1) s.frames

theorem mem_undiscovered {index : Table α Nat} :
    v ∈ undiscovered nodes index ↔ v ∈ nodes ∧ ¬ index.contains v := by
  simp [undiscovered]

theorem nodup_undiscovered (nodes : List α) (index : Table α Nat) :
    (undiscovered nodes index).Nodup := (nodup_distinct nodes).filter _

theorem undiscovered_perm {index : Table α Nat} (hv : v ∈ nodes) (hi : ¬ index.contains v)
    (n : Nat) : (undiscovered nodes index).Perm (v :: undiscovered nodes (index.insert v n)) := by
  have hnot : v ∉ undiscovered nodes (index.insert v n) := by
    simp [mem_undiscovered, Table.contains_insert]
  refine (List.perm_ext_iff_of_nodup (nodup_undiscovered _ _)
    (List.nodup_cons.2 ⟨hnot, nodup_undiscovered _ _⟩)).2 fun w => ?_
  rw [List.mem_cons, mem_undiscovered, mem_undiscovered, Table.contains_insert]
  by_cases hw : w = v
  · simp [hw, hv, hi]
  · simp [hw]

theorem stepsLeft_discover (hw : w ∈ nodes) (hi : ¬ s.index.contains w) :
    (s.discover succ w).stepsLeft nodes succ = s.stepsLeft nodes succ := by
  have hsum : stepsOf succ (undiscovered nodes s.index) = (succ w).length + 1 +
      stepsOf succ (undiscovered nodes (s.index.insert w s.counter)) := by
    unfold stepsOf
    rw [tally_perm _ (undiscovered_perm hw hi s.counter), tally_cons]
  simp only [stepsLeft, discover, hsum, tally_cons]
  omega

theorem stepsLeft_congr (hr : t.roots = s.roots) (hf : t.frames = s.frames)
    (hi : t.index = s.index) : t.stepsLeft nodes succ = s.stepsLeft nodes succ := by
  unfold stepsLeft
  rw [hr, hf, hi]

theorem stepsLeft_visit (h : visit nodes succ v w s = .ok t) :
    t.stepsLeft nodes succ = s.stepsLeft nodes succ := by
  unfold visit at h
  split at h
  · rename_i hw
    split at h
    · rename_i hi
      cases h
      exact stepsLeft_discover hw (by simp [Table.contains, hi])
    · split at h
      · obtain ⟨hr, hf, hi⟩ := lower_eq_ok h
        exact stepsLeft_congr hr hf hi
      · cases h
        rfl
  · cases h
    rfl

theorem stepsLeft_step (h : Invariant nodes succ s) (ht : s.step nodes succ = .ok (some t)) :
    t.stepsLeft nodes succ + 1 = s.stepsLeft nodes succ := by
  unfold step at ht
  split at ht
  · -- a successor less to look at
    rename_i v w rest below hf
    obtain ⟨u, hu, he⟩ := Outcome.map_eq_ok.1 ht
    cases he
    rw [stepsLeft_visit hu]
    simp only [stepsLeft, hf, tally_cons, List.length_cons]
    omega
  · -- a frame less
    rename_i v below hf
    obtain ⟨u, hu, he⟩ := Outcome.map_eq_ok.1 ht
    cases he
    obtain ⟨hr, hb, hi⟩ := leave_eq_ok hu
    rw [stepsLeft_congr hr hb hi]
    simp only [stepsLeft, hf, tally_cons, List.length_nil]
    omega
  · -- a root less
    rename_i hf
    split at ht
    · cases ht
    · rename_i root rest hr
      cases ht
      have hroot : root ∈ nodes := h.placed.rooted root (hr ▸ List.mem_cons_self)
      have hleft : stepsLeft nodes succ { s with roots := rest } + 1 = s.stepsLeft nodes succ := by
        simp only [stepsLeft, hr, List.length_cons]
        omega
      split
      · exact hleft
      · rename_i hc
        rw [stepsLeft_discover hroot hc]
        exact hleft

end Length

inductive VisitedAfter (nodes : List α) (succ : α → List α) : Nat → Search α → Prop
  | start : VisitedAfter nodes succ 0 (start nodes)
  | next {n : Nat} {s t : Search α} (before : VisitedAfter nodes succ n s)
      (h : s.step nodes succ = .ok (some t)) : VisitedAfter nodes succ (n + 1) t

theorem VisitedAfter.visited (h : VisitedAfter nodes succ n s) : Visited nodes succ s := by
  induction h with
  | start => exact .start
  | next _ hs ih => exact .next ih hs

theorem Visited.exists_after (h : Visited nodes succ s) : ∃ n, VisitedAfter nodes succ n s := by
  induction h with
  | start => exact ⟨0, .start⟩
  | next _ hs ih =>
    obtain ⟨n, hn⟩ := ih
    exact ⟨n + 1, .next hn hs⟩

theorem stepsLeft_start (nodes : List α) (succ : α → List α) :
    (start nodes).stepsLeft nodes succ = nodes.length + stepsOf succ (distinct nodes) := by
  have hall : undiscovered nodes (∅ : Table α Nat) = distinct nodes :=
    List.filter_eq_self.2 fun _ _ => rfl
  unfold start stepsLeft
  rw [hall]
  rfl

theorem VisitedAfter.add_stepsLeft (h : VisitedAfter nodes succ n s) :
    n + s.stepsLeft nodes succ = nodes.length + stepsOf succ (distinct nodes) := by
  induction h with
  | start => rw [Nat.zero_add, stepsLeft_start]
  | next before hs ih =>
    have hstep := stepsLeft_step before.visited.invariant hs
    omega

/-- Nothing that a step may ask for is missing: what it looks up is in the tables, and popping the
stack for a node of the path meets it before the stack is empty. -/
structure Supplied (s : Search α) : Prop where
  index : ∀ v ∈ s.path, s.index.contains v
  lowlink : ∀ v ∈ s.path, s.lowlink.contains v
  onStack : ∀ v ∈ s.onStack, s.index.contains v
  popped : ∀ v ∈ s.path, ∃ above rest, s.stack = above ++ v :: rest ∧ v ∉ above ∧
    popThrough v s.stack = some (above ++ [v], rest)

namespace Invariant

variable (h : Invariant nodes succ s)
include h

theorem supplied : Supplied s := by
  have hindex : ∀ v ∈ s.path, s.index.contains v := fun v hv =>
    h.placed.contains_of_mem (h.linked.layered.sublist.subset hv)
  refine ⟨hindex, fun v hv => ?_, fun v hv => ?_, fun v hv => ?_⟩
  · rw [h.placed.linked v]
    exact hindex v hv
  · exact h.placed.contains_of_mem ((h.placed.onStack v).1 hv)
  · obtain ⟨above, rest, hs⟩ := List.append_of_mem (h.linked.layered.sublist.subset hv)
    have habove := notMem_above h hs
    exact ⟨above, rest, hs, habove, hs ▸ popThrough_append habove⟩

theorem exists_step : ∃ next, s.step nodes succ = .ok next := by
  rcases h.step with ⟨-, -, hn⟩ | ⟨t, ht, -⟩
  · exact ⟨none, hn⟩
  · exact ⟨some t, ht⟩

variable (hr : s.roots = []) (hf : s.frames = [])
include hr hf

theorem stepsLeft_eq_zero : s.stepsLeft nodes succ = 0 := by
  have hall : undiscovered nodes s.index = [] := by
    refine List.filter_eq_nil_iff.2 fun v hv => ?_
    have hi := (h.placed.covered v (mem_distinct.1 hv)).resolve_right (by simp [hr])
    simp [hi]
  unfold stepsLeft
  rw [hr, hf, hall]
  rfl

end Invariant

/-- A search never fails: whatever a step looks up or pops is there. It ends, with both stacks empty,
after one step for every listed root, every distinct node and every successor of a distinct node. -/
theorem run_ends (nodes : List α) (succ : α → List α) :
    (∀ n s, VisitedAfter nodes succ n s →
      n + s.stepsLeft nodes succ = nodes.length + stepsOf succ (distinct nodes) ∧
        Supplied s ∧ ∃ next, s.step nodes succ = .ok next) ∧
    ∃ s, VisitedAfter nodes succ (nodes.length + stepsOf succ (distinct nodes)) s ∧
      s.step nodes succ = .ok none ∧ run nodes succ (start nodes) = .ok s ∧
      s.roots = [] ∧ s.frames = [] ∧ s.stack = [] ∧ s.onStack = [] ∧
      strongComponents nodes succ = .ok s.components := by
  refine ⟨fun n s hs => ⟨hs.add_stepsLeft, hs.visited.invariant.supplied,
    hs.visited.invariant.exists_step⟩, ?_⟩
  obtain ⟨s, hrun, hvis, hf, hr⟩ := (Visited.start : Visited nodes succ (start nodes)).run
  have h := hvis.invariant
  have hstack := h.stack_eq_nil hf
  obtain ⟨n, hn⟩ := hvis.exists_after
  have hlength := hn.add_stepsLeft
  rw [h.stepsLeft_eq_zero hr hf, Nat.add_zero] at hlength
  refine ⟨s, hlength ▸ hn, ?_, hrun, hr, hf, hstack, ?_, ?_⟩
  · unfold step
    rw [hf, hr]
  · refine List.eq_nil_iff_forall_not_mem.2 fun v hv => ?_
    rw [h.placed.onStack v, hstack] at hv
    exact List.not_mem_nil hv
  · unfold strongComponents
    rw [hrun]
    rfl

end DependencyRanking.Search
