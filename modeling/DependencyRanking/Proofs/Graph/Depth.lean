import DependencyRanking.Proofs.Graph.Cycle
import DependencyRanking.Proofs.Graph.Schedule
import Mathlib.Order.Bounds.Basic

/-!
# Depth

The depth of a module is the greatest number of times that a chain of dependencies from it passes
on to another component. Contracted, such a chain is a chain of positions, and the number of a level
is the length of the longest chain from each of its positions.
-/
namespace DependencyRanking

variable {successors levels : List (List Nat)} {placed : List Nat} {i j k n : Nat}

/-- A chain of `n` steps leads on from a position. -/
inductive Descent (successors : List (List Nat)) : Nat → Nat → Prop
  | stay (i : Nat) : Descent successors i 0
  | step {i j n : Nat} (edge : j ∈ successors.getD i []) (rest : Descent successors j n) :
      Descent successors i (n + 1)

namespace Levelled

theorem ne_nil (h : Levelled successors placed levels) : ∀ level ∈ levels, level ≠ [] := by
  induction h with
  | nil stuck => exact fun level hl => absurd hl List.not_mem_nil
  | cons nonempty ascending ready rest ih => exact List.forall_mem_cons.2 ⟨nonempty, ih⟩

theorem exists_previous (h : Levelled successors placed levels) (hi : PlacedAt levels i (k + 1)) :
    ∃ j ∈ successors.getD i [], PlacedAt levels j k := by
  -- what the first level does not take up waits for something in it
  induction h generalizing k with
  | nil stuck =>
    obtain ⟨level, hk, -⟩ := hi
    cases hk
  | @cons placed level levels nonempty ascending ready rest ih =>
    cases k with
    | succ k =>
      obtain ⟨j, hj, hk⟩ := ih hi
      exact ⟨j, hj, hk⟩
    | zero =>
      obtain ⟨next, hnext, hi⟩ := hi
      cases rest with
      | nil stuck => cases hnext
      | @cons _ next' levels' nonempty' ascending' ready' rest' =>
        cases hnext
        obtain ⟨hlt, hnot, hall⟩ := (ready' i).1 hi
        rw [List.mem_append, not_or] at hnot
        have hwait : ∃ j ∈ successors.getD i [], j ∉ placed := by
          by_contra hno
          simp only [not_exists, not_and, not_not] at hno
          exact hnot.2 ((ready i).2 ⟨hlt, hnot.1, hno⟩)
        obtain ⟨j, hj, hjp⟩ := hwait
        exact ⟨j, hj, level, rfl, (List.mem_append.1 (hall j hj)).resolve_left hjp⟩

theorem descent (h : Levelled successors placed levels) (hi : PlacedAt levels i k) :
    Descent successors i k := by
  induction k generalizing i with
  | zero => exact .stay i
  | succ k ih =>
    obtain ⟨j, hj, hk⟩ := h.exists_previous hi
    exact .step hj (ih hk)

theorem le_of_descent (h : Levelled successors [] levels) (hi : PlacedAt levels i k)
    (hn : Descent successors i n) : n ≤ k := by
  induction hn generalizing k with
  | stay i => exact Nat.zero_le k
  | step edge rest ih =>
    obtain ⟨l, hlk, hl⟩ := (h.peeled.scheduled.earlier hi edge).resolve_left List.not_mem_nil
    exact (ih hl).trans_lt hlk

theorem isGreatest (h : Levelled successors [] levels) (hi : PlacedAt levels i k) :
    IsGreatest {n | Descent successors i n} k :=
  ⟨h.descent hi, fun _ hn => h.le_of_descent hi hn⟩

end Levelled

namespace ModuleGraph

variable {g : ModuleGraph} {components : List Component} {c : Component} {u v : ModuleId}
variable {ms : List ModuleId}

/-- A chain of dependencies leads on from a module and passes `n` times into another component. -/
inductive Descends (g : ModuleGraph) : ModuleId → Nat → Prop
  | stay (u : ModuleId) : Descends g u 0
  | within {u v : ModuleId} {n : Nat} (edge : g.Depends u v) (back : g.Reaches v u)
      (rest : Descends g v n) : Descends g u n
  | across {u v : ModuleId} {n : Nat} (edge : g.Depends u v) (away : ¬ g.Reaches v u)
      (rest : Descends g v n) : Descends g u (n + 1)

def HasDepth (g : ModuleGraph) (u : ModuleId) (n : Nat) : Prop :=
  IsGreatest {k | g.Descends u k} n

def IsDependencyChain (g : ModuleGraph) (ms : List ModuleId) : Prop :=
  ms.IsChain g.Depends ∧ ∀ m ∈ ms, m ∈ g.nodes

theorem HasDepth.unique {k n : Nat} (h : g.HasDepth u k) (h' : g.HasDepth u n) : k = n :=
  IsGreatest.unique h h'

theorem Descends.of_reaches (huv : g.Reaches u v) (hvu : g.Reaches v u) (h : g.Descends v n) :
    g.Descends u n := by
  induction huv using Relation.ReflTransGen.head_induction_on with
  | refl => exact h
  | @head u w huw hwv ih =>
    have hwu : g.Reaches w u := hwv.trans hvu
    exact .within huw hwu (ih (hvu.tail huw))

theorem descends_of_isChain (hacyclic : ∀ m, ¬ g.OnCycle m)
    (h : (u :: ms).IsChain g.Depends) : g.Descends u ms.length := by
  -- without cycles every step leads into another component
  induction ms generalizing u with
  | nil => exact .stay u
  | cons v rest ih =>
    obtain ⟨huv, hrest⟩ := List.isChain_cons_cons.1 h
    refine .across huv (fun hvu => hacyclic u ?_) (ih hrest)
    exact Relation.TransGen.head' huv hvu

theorem exists_isChain (h : g.Descends u n) :
    ∃ ms, (u :: ms).IsChain g.Depends ∧ n ≤ ms.length := by
  induction h with
  | stay u => exact ⟨[], .singleton u, Nat.le_refl 0⟩
  | within edge back rest ih =>
    obtain ⟨ms, hms, hn⟩ := ih
    exact ⟨_, List.isChain_cons_cons.2 ⟨edge, hms⟩, hn.trans (Nat.le_succ _)⟩
  | across edge away rest ih =>
    obtain ⟨ms, hms, hn⟩ := ih
    exact ⟨_, List.isChain_cons_cons.2 ⟨edge, hms⟩, Nat.succ_le_succ hn⟩

theorem mem_nodes_of_isChain (hm : g.Mirrored) (hu : u ∈ g.nodes)
    (h : (u :: ms).IsChain g.Depends) : ∀ m ∈ u :: ms, m ∈ g.nodes := by
  induction ms generalizing u with
  | nil => simpa using hu
  | cons v rest ih =>
    obtain ⟨huv, hrest⟩ := List.isChain_cons_cons.1 h
    exact List.forall_mem_cons.2 ⟨hu, ih (hm.target_mem u v huv) hrest⟩

namespace Partitioned

variable (hp : g.Partitioned components) (hm : g.Mirrored)
include hp hm

theorem descent_of_descends (h : g.Descends u n) (hc : components[i]? = some c)
    (hu : u ∈ c.nodes) : Descent (g.condense components).successors i n := by
  induction h generalizing i c with
  | stay u => exact .stay i
  | @within u v n edge back rest ih =>
    have hv := (hp.mem_iff_mutual hm (List.mem_of_getElem? hc) hu).2 ⟨.single edge, back⟩
    exact ih hc hv
  | @across u v n edge away rest ih =>
    obtain ⟨j, d, hd, hv⟩ := hp.exists_position (hm.target_mem u v edge)
    have hji : j ≠ i := by
      rintro rfl
      obtain rfl := Option.some.inj (hc.symm.trans hd)
      exact away (hp.joined c (List.mem_of_getElem? hc) v hv u hu)
    exact .step (hp.mem_successors_of_depends hc hd hu hv hji edge) (ih hd hv)

omit hm in
theorem descends_of_descent (h : Descent (g.condense components).successors i n)
    (hc : components[i]? = some c) (hu : u ∈ c.nodes) : g.Descends u n := by
  induction h generalizing u c with
  | stay i => exact .stay u
  | @step i j n edge rest ih =>
    have hlt := hp.successor_lt edge
    obtain ⟨-, c', hc', w, hw, v, hwv, hv⟩ := mem_successors.1 edge
    obtain rfl := Option.some.inj (hc.symm.trans hc')
    obtain ⟨d, hd, hvd⟩ := (membershipOf_of_disjoint hp.disjoint).1 hv
    have haway : ¬ g.Reaches v w := fun hvw =>
      absurd (hp.backward j i d c hd hc v hvd w hw hvw) (Nat.not_le.2 hlt)
    have hcm := List.mem_of_getElem? hc
    exact .of_reaches (hp.joined c hcm u hu w hw) (hp.joined c hcm w hw u hu)
      (.across hwv haway (ih hd hvd))

theorem hasDepth {levels : List (List Nat)}
    (h : Levelled (g.condense components).successors [] levels) (hi : PlacedAt levels i k)
    (hc : components[i]? = some c) (hu : u ∈ c.nodes) : g.HasDepth u k := by
  constructor
  · exact hp.descends_of_descent (h.descent hi) hc hu
  · exact fun n hn => h.le_of_descent hi (hp.descent_of_descends hm hn hc hu)

end Partitioned

end ModuleGraph

end DependencyRanking
