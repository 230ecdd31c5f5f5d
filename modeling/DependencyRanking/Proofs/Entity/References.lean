import DependencyRanking.Entity.RelationGraph
import Mathlib.Algebra.BigOperators.Group.List.Basic
import Mathlib.Algebra.GroupWithZero.Nat
import Mathlib.Data.List.Induction
import Mathlib.Data.List.Nodup

/-!
# References and where they come from

A node keeps the references of the last description of its entity, but is referred to by every
description of the others. The two directions agree unless a description that was replaced refers
to an entity of the schema.
-/
namespace DependencyRanking

variable {models : List EntityModel} {m : EntityModel} {node source target : RelationNode}

theorem Table.get?_ofPairs {κ ν : Type} [DecidableEq κ] (pairs : List (κ × ν)) (k : κ) :
    (Table.ofPairs pairs).get? k = (pairs.filter fun p => p.1 = k).getLast?.map Prod.snd := by
  induction pairs using List.reverseRecOn with
  | nil => rfl
  | append_singleton pairs p ih =>
    have hconcat : Table.ofPairs (pairs ++ [p]) = (Table.ofPairs pairs).insert p.1 p.2 :=
      List.foldl_concat _ _ _ _
    rw [hconcat, Table.get?_insert, ih, List.filter_append]
    by_cases hk : k = p.1
    · simp [hk]
    · simp [hk, Ne.symm hk]

def descriptionsOf (models : List EntityModel) (name : String) : List EntityModel :=
  models.filter fun m => m.name = name

theorem get?_relationGraph (models : List EntityModel) (name : String) :
    (relationGraph models).get? name =
      (descriptionsOf models name).getLast?.map (relationNode models) := by
  unfold relationGraph descriptionsOf
  rw [Table.get?_mapValues, Table.get?_ofPairs, List.filter_map, List.getLast?_map]
  simp [Function.comp_def]

theorem name_of_mem_descriptionsOf {name : String} (hm : m ∈ descriptionsOf models name) :
    m.name = name := by
  simpa using (List.mem_filter.1 hm).2

theorem get?_relationGraph_of_mem (hn : (models.map EntityModel.name).Nodup) (hm : m ∈ models) :
    (relationGraph models).get? m.name = some (relationNode models m) := by
  have hmem : m ∈ descriptionsOf models m.name := List.mem_filter.2 ⟨hm, by simp⟩
  obtain ⟨n, hlast⟩ := Option.ne_none_iff_exists'.1
    (mt List.getLast?_eq_none_iff.1 (List.ne_nil_of_mem hmem))
  have hlisted := List.mem_of_getLast? hlast
  have hsame : n = m := List.inj_on_of_nodup_map hn (List.mem_filter.1 hlisted).1 hm
    (name_of_mem_descriptionsOf hlisted)
  rw [get?_relationGraph, hlast, hsame]
  rfl

theorem exists_description (hnode : node ∈ (relationGraph models).values) :
    ∃ m, (descriptionsOf models node.model).getLast? = some m ∧ node = relationNode models m := by
  obtain ⟨⟨name, _⟩, hentry, rfl⟩ := List.mem_map.1 hnode
  rw [Table.mem_entries_iff, get?_relationGraph, Option.map_eq_some_iff] at hentry
  obtain ⟨m, hlast, rfl⟩ := hentry
  have hname : m.name = name := name_of_mem_descriptionsOf (List.mem_of_getLast? hlast)
  refine ⟨m, ?_, rfl⟩
  rw [show (relationNode models m).model = name from hname, hlast]

theorem count_referrers (models : List EntityModel) (source target : String) :
    (referrers models target).count source =
      ((descriptionsOf models source).map fun m => m.relations.count target).sum := by
  unfold referrers descriptionsOf
  induction models with
  | nil => rfl
  | cons m rest ih =>
    rw [List.flatMap_cons, List.count_append, ih, List.map_const', List.count_replicate,
      ← List.countP_eq_length_filter]
    by_cases hname : m.name = source
    · simp [hname, List.count, beq_eq_decide]
    · simp [hname]

theorem count_referrers_eq_iff (hlast : (descriptionsOf models m.name).getLast? = some m)
    (target : String) : (referrers models target).count m.name = m.relations.count target ↔
      ∀ replaced ∈ (descriptionsOf models m.name).dropLast, target ∉ replaced.relations := by
  obtain ⟨replaced, hsplit⟩ := List.getLast?_eq_some_iff.1 hlast
  rw [count_referrers, hsplit, List.dropLast_concat, List.map_append, List.sum_append,
    List.map_singleton, List.sum_singleton, Nat.add_eq_right, List.sum_eq_zero_iff_forall_eq_nat]
  simp only [List.forall_mem_map, List.count_eq_zero]

/-- How often a node is referred to by another is how often the other refers to it, unless a
replaced description of the other refers to it as well. The degrees count what the node lists. -/
theorem referencedBy_count_iff (hsource : source ∈ (relationGraph models).values)
    (htarget : target ∈ (relationGraph models).values) :
    (target.referencedBy.count source.model = source.relations.count target.model ↔
      ∀ replaced ∈ (descriptionsOf models source.model).dropLast,
        target.model ∉ replaced.relations) ∧
    target.inDegree = target.referencedBy.length ∧ target.outDegree = target.relations.length := by
  obtain ⟨m, hlast, rfl⟩ := exists_description hsource
  obtain ⟨n, -, rfl⟩ := exists_description htarget
  exact ⟨count_referrers_eq_iff hlast n.name, rfl, rfl⟩

theorem referencedBy_count_redescribed :
    let models : List EntityModel :=
      [⟨"Order", "", ["Item"]⟩, ⟨"Item", "", ["Order"]⟩, ⟨"Item", "", ["Order", "Order"]⟩]
    let order := relationNode models ⟨"Order", "", ["Item"]⟩
    let item := relationNode models ⟨"Item", "", ["Order", "Order"]⟩
    order ∈ (relationGraph models).values ∧ item ∈ (relationGraph models).values ∧
      item.referencedBy.count order.model = order.relations.count item.model ∧
      order.referencedBy.count item.model ≠ item.relations.count order.model := by
  intro models order item
  have horder : order ∈ (relationGraph models).values := by decide
  have hitem : item ∈ (relationGraph models).values := by decide
  refine ⟨horder, hitem, ?_, fun heq => ?_⟩
  · exact (referencedBy_count_iff horder hitem).1.2 (by decide)
  · exact absurd ((referencedBy_count_iff hitem horder).1.1 heq) (by decide)

/-- References do not mirror each other once a description that refers to an entity is replaced by
one that does not. -/
theorem exists_referencedBy_count_ne :
    let models : List EntityModel :=
      [⟨"Order", "", ["Item"]⟩, ⟨"Order", "", []⟩, ⟨"Item", "", []⟩]
    ¬ ∀ source ∈ (relationGraph models).values, ∀ target ∈ (relationGraph models).values,
      target.referencedBy.count source.model = source.relations.count target.model := by
  decide

end DependencyRanking
