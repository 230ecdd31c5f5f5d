import DependencyRanking.Proofs.Entity.Domains
import DependencyRanking.Proofs.Entity.References
import Mathlib.Data.List.Nodup
import Mathlib.Data.List.Sort

/-!
# Schemas in another order

The search visits the entities of a schema and their references in the order in which they stand,
but its groups are classes and their members are sorted. What decides the name of a group, the
files and the degrees of its members, does not depend on the order either. So the same schema in
another order has the same clusters.
-/
namespace DependencyRanking

structure EntityModel.Same (m m' : EntityModel) : Prop where
  name : m.name = m'.name
  file : m.file = m'.file
  relations : m.relations.Perm m'.relations

/-- The same descriptions in any order, each with its references in any order. -/
def Rearranged (models models' : List EntityModel) : Prop :=
  ∃ middle, models.Perm middle ∧ List.Forall₂ EntityModel.Same middle models'

structure RelationNode.Alike (n n' : RelationNode) : Prop where
  file : n.file = n'.file
  relations : n.relations.Perm n'.relations
  inDegree : n.inDegree = n'.inDegree
  outDegree : n.outDegree = n'.outDegree

structure AlikeTables (nodes nodes' : Table String RelationNode) : Prop where
  keys : nodes.keys.Perm nodes'.keys
  node : ∀ name, Option.Rel RelationNode.Alike (nodes.get? name) (nodes'.get? name)

variable {models models' : List EntityModel} {m m' : EntityModel}
variable {nodes nodes' : Table String RelationNode} {groups groups' : List (List String)}
variable {members : List String}

namespace Rearranged

theorem names_perm (h : Rearranged models models') :
    (models.map EntityModel.name).Perm (models'.map EntityModel.name) := by
  obtain ⟨middle, hperm, hsame⟩ := h
  have hnames : middle.map EntityModel.name = models'.map EntityModel.name := by
    rw [← List.forall₂_eq_eq_eq, List.forall₂_map_left_iff, List.forall₂_map_right_iff]
    exact hsame.imp fun m m' hm => hm.name
  exact hnames ▸ hperm.map EntityModel.name

theorem exists_same (h : Rearranged models models') (hm : m ∈ models) :
    ∃ m' ∈ models', m.Same m' := by
  obtain ⟨middle, hperm, hsame⟩ := h
  have hmiddle : m ∈ middle := hperm.mem_iff.1 hm
  clear hperm hm
  induction hsame with
  | nil => exact absurd hmiddle List.not_mem_nil
  | @cons n n' _ rest' hn _ ih =>
    rcases List.mem_cons.1 hmiddle with rfl | hrest
    · exact ⟨n', List.mem_cons_self, hn⟩
    · obtain ⟨m', hm', hs⟩ := ih hrest
      exact ⟨m', List.mem_cons_of_mem n' hm', hs⟩

theorem referrers_perm (h : Rearranged models models') (target : String) :
    (referrers models target).Perm (referrers models' target) := by
  obtain ⟨middle, hperm, hsame⟩ := h
  refine (hperm.flatMap_right _).trans ?_
  clear hperm
  induction hsame with
  | nil => exact List.Perm.nil
  | cons hm _ ih =>
    rw [List.flatMap_cons, hm.name]
    exact ((hm.relations.filter _).map _).append ih

theorem alikeTables (h : Rearranged models models') (hn : (models.map EntityModel.name).Nodup) :
    AlikeTables (relationGraph models) (relationGraph models') where
  keys := by
    rw [keys_relationGraph, keys_relationGraph]
    exact distinct_perm fun name => h.names_perm.mem_iff
  node name := by
    have hn' := h.names_perm.nodup_iff.1 hn
    by_cases hname : name ∈ models.map EntityModel.name
    · obtain ⟨m, hm, rfl⟩ := List.mem_map.1 hname
      obtain ⟨m', hm', hs⟩ := h.exists_same hm
      have hdegree := (h.referrers_perm m'.name).length_eq
      rw [get?_relationGraph_of_mem hn hm, hs.name, get?_relationGraph_of_mem hn' hm']
      refine .some ⟨hs.file, hs.relations, ?_, hs.relations.length_eq⟩
      change (referrers models m.name).length = _
      rw [hs.name]
      exact hdegree
    · have hnone : ∀ ms : List EntityModel, name ∉ ms.map EntityModel.name →
          (relationGraph ms).get? name = none := by
        intro ms hms
        rw [← mem_distinct, ← keys_relationGraph, ← Table.contains_iff] at hms
        simpa [Table.contains] using hms
      rw [hnone models hname, hnone models' (mt h.names_perm.mem_iff.2 hname)]
      exact .none

end Rearranged

namespace AlikeTables

variable (h : AlikeTables nodes nodes')
include h

theorem get?_cases (name : String) :
    (nodes.get? name = none ∧ nodes'.get? name = none) ∨
      ∃ n n', nodes.get? name = some n ∧ nodes'.get? name = some n' ∧ n.Alike n' := by
  have hrel := h.node name
  generalize nodes.get? name = x at hrel ⊢
  generalize nodes'.get? name = x' at hrel ⊢
  cases hrel with
  | some hn => exact .inr ⟨_, _, rfl, rfl, hn⟩
  | none => exact .inl ⟨rfl, rfl⟩

theorem agree {β : Type} (ask : Option RelationNode → β)
    (hask : ∀ n n', n.Alike n' → ask (some n) = ask (some n')) (name : String) :
    ask (nodes.get? name) = ask (nodes'.get? name) := by
  rcases h.get?_cases name with ⟨hnode, hnode'⟩ | ⟨n, n', hnode, hnode', hn⟩
  · rw [hnode, hnode']
  · rw [hnode, hnode']
    exact hask n n' hn

theorem refers_eq : Refers nodes = Refers nodes' := by
  funext a b
  have hask := h.agree (fun x => ∃ node, x = some node ∧ b ∈ node.relations)
    (fun n n' hn => by simp [hn.relations.mem_iff]) a
  unfold Refers
  simp only [← and_assoc, exists_and_right]
  rw [hask, h.keys.mem_iff]

theorem isInsignificant_eq : isInsignificant nodes = isInsignificant nodes' := by
  funext members
  unfold isInsignificant
  split
  · exact h.agree (fun x => x.any fun node => node.inDegree < 3 && node.outDegree < 3)
      (fun n n' hn => by simp [hn.inDegree, hn.outDegree]) _
  · rfl

theorem coreEntity_eq : coreEntity nodes = coreEntity nodes' := by
  have hmost : mostReferenced nodes = mostReferenced nodes' := by
    funext names
    unfold mostReferenced
    congr 1
    funext best name
    rcases h.get?_cases name with ⟨hnode, hnode'⟩ | ⟨n, n', hnode, hnode', hn⟩
    · rw [hnode, hnode']
    · rw [hnode, hnode']
      simp only [hn.inDegree]
  unfold coreEntity
  rw [hmost]

theorem nameAfterFile_eq : nameAfterFile nodes = nameAfterFile nodes' := by
  have hfiles : filesOf nodes = filesOf nodes' := by
    funext names
    unfold filesOf
    congr 2
    funext name
    exact h.agree (Option.map RelationNode.file) (fun n n' hn => congrArg some hn.file) name
  unfold nameAfterFile
  rw [hfiles]

theorem clusterOf?_eq : clusterOf? nodes = clusterOf? nodes' := by
  unfold clusterOf? nameCluster
  rw [h.isInsignificant_eq, h.coreEntity_eq, h.nameAfterFile_eq]

end AlikeTables

namespace Grouped

theorem nodup (hg : Grouped nodes groups) : groups.Nodup := by
  have hflat := List.nodup_flatten.1 (hg.perm.nodup_iff.2 nodes.nodup_keys)
  refine hflat.2.imp_of_mem fun {c d} hc _ hdisjoint heq => ?_
  subst heq
  obtain ⟨a, ha⟩ := List.exists_mem_of_ne_nil c (hg.nonempty c hc)
  exact hdisjoint ha ha

theorem mem_of_mem (hg : Grouped nodes groups) (hg' : Grouped nodes' groups')
    (hkeys : nodes.keys.Perm nodes'.keys) (hrefers : Refers nodes = Refers nodes')
    (hmembers : members ∈ groups) : members ∈ groups' := by
  obtain ⟨a, ha⟩ := List.exists_mem_of_ne_nil members (hg.nonempty members hmembers)
  have hkey : a ∈ nodes.keys := hg.perm.mem_iff.1 (List.mem_flatten.2 ⟨members, hmembers, ha⟩)
  obtain ⟨members', hmembers', ha'⟩ :=
    List.mem_flatten.1 (hg'.perm.mem_iff.2 (hkeys.mem_iff.1 hkey))
  have hsame : members = members' := by
    apply (hg.ascending members hmembers).eq_of_mem_iff (hg'.ascending members' hmembers')
    intro b
    rw [hg.mem_iff members hmembers a ha, hg'.mem_iff members' hmembers' a ha', hrefers]
  exact hsame ▸ hmembers'

theorem perm_groups (hg : Grouped nodes groups) (hg' : Grouped nodes' groups')
    (h : AlikeTables nodes nodes') : groups.Perm groups' := by
  rw [List.perm_ext_iff_of_nodup hg.nodup hg'.nodup]
  intro members
  constructor
  · exact hg.mem_of_mem hg' h.keys h.refers_eq
  · exact hg'.mem_of_mem hg h.keys.symm h.refers_eq.symm

end Grouped

/-- A schema with one description for each entity has the same clusters and the same unclustered
entities in whatever order the descriptions and their references stand. -/
theorem entityDomains_rearranged (hn : (models.map EntityModel.name).Nodup)
    (h : Rearranged models models') :
    ∃ d d', entityDomains models = .ok d ∧ entityDomains models' = .ok d' ∧
      d.clusters.Perm d'.clusters ∧ d.unclustered = d'.unclustered := by
  have htables := h.alikeTables hn
  obtain ⟨groups, hok, hg⟩ := entityGroups_grouped (relationGraph models)
  obtain ⟨groups', hok', hg'⟩ := entityGroups_grouped (relationGraph models')
  have hgroups := hg.perm_groups hg' htables
  refine ⟨_, _, Outcome.bind_eq_ok.2 ⟨groups, hok, rfl⟩, Outcome.bind_eq_ok.2 ⟨groups', hok', rfl⟩,
    ?_, ?_⟩
  · dsimp only
    rw [← htables.clusterOf?_eq]
    exact (List.mergeSort_perm _ _).trans
      ((hgroups.filterMap _).trans (List.mergeSort_perm _ _).symm)
  · dsimp only
    rw [← htables.clusterOf?_eq]
    exact sortIds_eq_of_perm (hgroups.filter _).flatten

theorem entityDomains_rearranged_social :
    let models : List EntityModel :=
      [⟨"User", "schema", ["Post"]⟩, ⟨"Post", "schema", ["Comment", "User"]⟩,
        ⟨"Comment", "schema", ["User"]⟩]
    let models' : List EntityModel :=
      [⟨"Comment", "schema", ["User"]⟩, ⟨"Post", "schema", ["User", "Comment"]⟩,
        ⟨"User", "schema", ["Post"]⟩]
    (models.map EntityModel.name).Nodup ∧ Rearranged models models' ∧
      ∃ d d', entityDomains models = .ok d ∧ entityDomains models' = .ok d' ∧
        d.clusters.Perm d'.clusters ∧ d.unclustered = d'.unclustered := by
  intro models models'
  have hn : (models.map EntityModel.name).Nodup := by decide
  have h : Rearranged models models' := by
    refine ⟨[⟨"Comment", "schema", ["User"]⟩, ⟨"Post", "schema", ["Comment", "User"]⟩,
      ⟨"User", "schema", ["Post"]⟩], by decide, ?_⟩
    refine .cons ⟨rfl, rfl, .refl _⟩ (.cons ⟨rfl, rfl, ?_⟩ (.cons ⟨rfl, rfl, .refl _⟩ .nil))
    exact List.Perm.swap _ _ _
  exact ⟨hn, h, entityDomains_rearranged hn h⟩

end DependencyRanking
