import DependencyRanking.Entity.Cluster
import DependencyRanking.Proofs.Outcome
import DependencyRanking.Proofs.Search.Components
import DependencyRanking.Proofs.Sorting
import Mathlib.Data.List.Induction
import Mathlib.Data.List.Perm.Basic

/-!
# Where the entities of a schema end up

The groups of a schema are the classes of entities that reach each other. A group becomes a cluster
as a whole, or all of its entities are unclustered. An entity alone is named after its file at best,
which is not sure enough, so it never becomes a cluster.
-/
namespace DependencyRanking

open Relation (ReflTransGen)

variable {nodes : Table String RelationNode} {members : List String} {cluster : EntityCluster}

def Refers (nodes : Table String RelationNode) (a b : String) : Prop :=
  ∃ node, nodes.get? a = some node ∧ b ∈ node.relations ∧ b ∈ nodes.keys

theorem keys_ofPairs {κ ν : Type} [DecidableEq κ] (pairs : List (κ × ν)) :
    (Table.ofPairs pairs).keys = distinct (pairs.map Prod.fst) := by
  induction pairs using List.reverseRecOn with
  | nil => rfl
  | append_singleton pairs p ih =>
    have hconcat : Table.ofPairs (pairs ++ [p]) = (Table.ofPairs pairs).insert p.1 p.2 :=
      List.foldl_concat _ _ _ _
    rw [hconcat, Table.keys_insert, ih, List.map_append, List.map_singleton, distinct_concat]
    simp only [mem_distinct]

theorem keys_relationGraph (models : List EntityModel) :
    (relationGraph models).keys = distinct (models.map EntityModel.name) := by
  unfold relationGraph
  rw [Table.keys_mapValues, keys_ofPairs, List.map_map]
  rfl

section Groups

def relationsOf (nodes : Table String RelationNode) (name : String) : List String :=
  ((nodes.get? name).map RelationNode.relations).getD []

theorem leads_eq_refers (nodes : Table String RelationNode) :
    Leads nodes.keys (relationsOf nodes) = Refers nodes := by
  funext a b
  unfold Leads relationsOf Refers
  cases hget : nodes.get? a with
  | none => simp
  | some node => simp

/-- Groups that hold every entity once, each of them a whole class of entities that reach each
other. -/
structure Grouped (nodes : Table String RelationNode) (groups : List (List String)) : Prop where
  perm : groups.flatten.Perm nodes.keys
  nonempty : ∀ members ∈ groups, members ≠ []
  ascending : ∀ members ∈ groups, members.Pairwise (· < ·)
  mem_iff : ∀ members ∈ groups, ∀ a ∈ members, ∀ b, b ∈ members ↔
    ReflTransGen (Refers nodes) a b ∧ ReflTransGen (Refers nodes) b a

theorem entityGroups_grouped (nodes : Table String RelationNode) :
    ∃ groups, entityGroups nodes = .ok groups ∧ Grouped nodes groups := by
  obtain ⟨cs, hok, he, hn, hcover⟩ := strongComponents_emitted nodes.keys (relationsOf nodes)
  have hreach : Reaches nodes.keys (relationsOf nodes) = ReflTransGen (Refers nodes) := by
    unfold Reaches
    rw [leads_eq_refers]
  have hflat : (cs.map sortIds).flatten.Perm cs.flatten := by
    rw [← List.flatMap_def, ← List.flatMap_id]
    exact List.Perm.flatMap_left cs fun c _ => sortIds_perm c
  refine ⟨cs.map sortIds, ?_, hflat.trans ?_, ?_, ?_, ?_⟩
  · exact Outcome.bind_eq_ok.2 ⟨cs, hok, rfl⟩
  · exact (List.perm_ext_iff_of_nodup hn nodes.nodup_keys).2 hcover
  · intro members hmembers
    obtain ⟨c, hc, rfl⟩ := List.mem_map.1 hmembers
    obtain ⟨a, ha⟩ := List.exists_mem_of_ne_nil c fun hnil => he.nonempty (hnil ▸ hc)
    exact List.ne_nil_of_mem (mem_sortIds.2 ha)
  · intro members hmembers
    obtain ⟨c, hc, rfl⟩ := List.mem_map.1 hmembers
    exact ascending_sortIds ((List.nodup_flatten.1 hn).1 c hc)
  · intro members hmembers a ha b
    obtain ⟨c, hc, rfl⟩ := List.mem_map.1 hmembers
    rw [mem_sortIds] at ha ⊢
    rw [he.mem_iff_mutual hn hcover hc ha, Mutual, hreach]

end Groups

section Names

theorem confidence_nameAfterFile (nodes : Table String RelationNode) (names : List String) :
    (nameAfterFile nodes names).confidence ≤ 50 := by
  unfold nameAfterFile
  split
  · dsimp only
    split
    · exact Nat.le_refl 50
    · exact Nat.zero_le 50
  · exact Nat.zero_le 50

theorem confidence_of_length_lt {names : List String} (h : names.length < 2) :
    (nameCluster nodes names).confidence ≤ 50 := by
  have hhead : sharedHead names = none := if_pos h
  unfold nameCluster
  rw [hhead]
  dsimp only
  split
  · rename_i core _
    rw [if_neg fun hcore => absurd hcore.2 (Nat.not_le.2 h)]
    exact confidence_nameAfterFile nodes names
  · exact confidence_nameAfterFile nodes names

theorem clusterOf?_eq_some (h : clusterOf? nodes members = some cluster) :
    cluster.models = members ∧ 60 ≤ cluster.confidence ∧ 2 ≤ members.length := by
  unfold clusterOf? at h
  split at h
  · cases h
  · dsimp only at h
    split at h
    · cases h
    · rename_i hsure
      cases h
      refine ⟨rfl, Nat.le_of_not_lt hsure, Nat.le_of_not_lt fun hlt => hsure ?_⟩
      exact (confidence_of_length_lt hlt).trans_lt (by decide)

end Names

theorem perm_clusters (nodes : Table String RelationNode) (groups : List (List String)) :
    ((groups.filterMap (clusterOf? nodes)).flatMap EntityCluster.models ++
      (groups.filter fun members => (clusterOf? nodes members).isNone).flatten).Perm
        groups.flatten := by
  induction groups with
  | nil => exact List.Perm.nil
  | cons members rest ih =>
    cases hcluster : clusterOf? nodes members with
    | none =>
      rw [List.filterMap_cons_none hcluster, List.filter_cons_of_pos (by simp [hcluster]),
        List.flatten_cons, List.flatten_cons]
      exact (List.perm_append_comm_assoc _ _ _).trans (ih.append_left members)
    | some cluster =>
      rw [List.filterMap_cons_some hcluster, List.filter_cons_of_neg (by simp [hcluster]),
        List.flatMap_cons, (clusterOf?_eq_some hcluster).1, List.append_assoc, List.flatten_cons]
      exact ih.append_left members

/-- Domains of a schema that hold every entity once, with clusters that are whole classes of at
least two entities that reach each other. -/
structure Clustered (models : List EntityModel) (d : EntityDomains) : Prop where
  once : (d.clusters.flatMap EntityCluster.models ++ d.unclustered).Perm
    (distinct (models.map EntityModel.name))
  component : ∀ c ∈ d.clusters, ∀ a ∈ c.models, ∀ b, b ∈ c.models ↔
    ReflTransGen (Refers (relationGraph models)) a b ∧
      ReflTransGen (Refers (relationGraph models)) b a
  several : ∀ c ∈ d.clusters, 2 ≤ c.models.length
  ascending : ∀ c ∈ d.clusters, c.models.Pairwise (· < ·)
  confidence : ∀ c ∈ d.clusters, 60 ≤ c.confidence
  descending : d.clusters.Pairwise fun c c' => c'.models.length ≤ c.models.length
  unclustered : d.unclustered.Pairwise (· < ·)

theorem pairwise_largest_first (clusters : List EntityCluster) :
    (clusters.mergeSort fun c c' => decide (c'.models.length ≤ c.models.length)).Pairwise
      fun c c' => c'.models.length ≤ c.models.length := by
  have h := @List.pairwise_mergeSort EntityCluster
    (fun c c' => decide (c'.models.length ≤ c.models.length))
    (fun x y z hxy hyz => by
      simp only [decide_eq_true_eq] at *
      exact hyz.trans hxy)
    (fun x y => by simpa using le_total y.models.length x.models.length) clusters
  exact h.imp fun hle => of_decide_eq_true hle

theorem entityDomains_clustered (models : List EntityModel) :
    ∃ d, entityDomains models = .ok d ∧ Clustered models d := by
  obtain ⟨groups, hok, h⟩ := entityGroups_grouped (relationGraph models)
  refine ⟨_, Outcome.bind_eq_ok.2 ⟨groups, hok, rfl⟩, ?_⟩
  let clusters := groups.filterMap (clusterOf? (relationGraph models))
  have hsorted := List.mergeSort_perm clusters
    fun c c' => decide (c'.models.length ≤ c.models.length)
  have hgroup : ∀ c ∈ clusters,
      c.models ∈ groups ∧ 60 ≤ c.confidence ∧ 2 ≤ c.models.length := by
    intro c hc
    obtain ⟨members, hmembers, hcluster⟩ := List.mem_filterMap.1 hc
    obtain ⟨rfl, hsure, hseveral⟩ := clusterOf?_eq_some hcluster
    exact ⟨hmembers, hsure, hseveral⟩
  have hall := (perm_clusters (relationGraph models) groups).trans h.perm
  have hloose : ((groups.filter fun members =>
      (clusterOf? (relationGraph models) members).isNone).flatten).Nodup :=
    (List.nodup_append.1 (hall.nodup_iff.2 (relationGraph models).nodup_keys)).2.1
  exact {
    once := by
      rw [← keys_relationGraph]
      exact ((hsorted.flatMap_right EntityCluster.models).append (sortIds_perm _)).trans hall
    component := fun c hc => h.mem_iff c.models (hgroup c (hsorted.mem_iff.1 hc)).1
    several := fun c hc => (hgroup c (hsorted.mem_iff.1 hc)).2.2
    ascending := fun c hc => h.ascending c.models (hgroup c (hsorted.mem_iff.1 hc)).1
    confidence := fun c hc => (hgroup c (hsorted.mem_iff.1 hc)).2.1
    descending := pairwise_largest_first clusters
    unclustered := ascending_sortIds hloose }

end DependencyRanking
