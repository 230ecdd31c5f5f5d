import Mathlib.Logic.Relation

/-!
# Reachability through listed nodes

A graph is given by a list of nodes and a successor function. Only successors that are listed
count, so the paths are those of the graph induced on the list.
-/
namespace DependencyRanking

variable {α : Type} {nodes : List α} {succ : α → List α} {vs : List α} {u v w : α}

def Leads (nodes : List α) (succ : α → List α) (v w : α) : Prop := w ∈ succ v ∧ w ∈ nodes

def Reaches (nodes : List α) (succ : α → List α) : α → α → Prop :=
  Relation.ReflTransGen (Leads nodes succ)

def Mutual (nodes : List α) (succ : α → List α) (v w : α) : Prop :=
  Reaches nodes succ v w ∧ Reaches nodes succ w v

theorem Reaches.refl (v : α) : Reaches nodes succ v v := Relation.ReflTransGen.refl

theorem Reaches.trans (h₁ : Reaches nodes succ u v) (h₂ : Reaches nodes succ v w) :
    Reaches nodes succ u w := Relation.ReflTransGen.trans h₁ h₂

theorem Leads.reaches (h : Leads nodes succ v w) : Reaches nodes succ v w :=
  Relation.ReflTransGen.single h

theorem Reaches.listed (h : Reaches nodes succ v w) (hv : v ∈ nodes) : w ∈ nodes := by
  induction h with
  | refl => exact hv
  | tail _ hl _ => exact hl.2

def Closed (nodes : List α) (succ : α → List α) (vs : List α) : Prop :=
  ∀ v ∈ vs, ∀ w, Leads nodes succ v w → w ∈ vs

theorem Closed.nil : Closed nodes succ [] := by
  intro v hv
  exact absurd hv List.not_mem_nil

theorem Closed.mem_of_reaches (hc : Closed nodes succ vs) (h : Reaches nodes succ v w)
    (hv : v ∈ vs) : w ∈ vs := by
  induction h with
  | refl => exact hv
  | tail _ hl ih => exact hc _ ih _ hl

end DependencyRanking
