import DependencyRanking.Proofs.Graph.Cycle
import DependencyRanking.Proofs.Graph.Representation
import Mathlib.Algebra.BigOperators.Ring.Finset

/-!
# Edges inside and between components

The components tell the cycles of a graph, and each of them counts the edges that it holds. The
edges that are counted nowhere lead from one component to another.
-/
namespace DependencyRanking

theorem tally_eq_sum {α : Type} (f : α → Nat) (as : List α) : tally f as = (as.map f).sum := by
  induction as with
  | nil => rfl
  | cons a rest ih => rw [tally_cons, ih, List.map_cons, List.sum_cons]

namespace ModuleGraph

variable {g : ModuleGraph} {components : List Component} {pairs : List (ModuleId × ModuleId)}
variable {isolated members members' : List ModuleId} {c : Component} {m : ModuleId}

def Joins (members : List ModuleId) (e : ModuleId × ModuleId) : Prop :=
  e.1 ∈ members ∧ e.2 ∈ members

instance (members : List ModuleId) : DecidablePred (Joins members) :=
  fun _ => inferInstanceAs (Decidable (_ ∧ _))

theorem edgesWithin_perm (g : ModuleGraph) (h : members.Perm members') :
    g.edgesWithin members = g.edgesWithin members' := by
  have hcount : ∀ m, (g.outgoing m).countP (· ∈ members) =
      (g.outgoing m).countP (· ∈ members') := by
    intro m
    simp only [h.mem_iff]
  unfold edgesWithin
  simp only [hcount]
  exact tally_perm _ h

theorem edgesWithin_ofEdges (pairs : List (ModuleId × ModuleId)) (isolated : List ModuleId)
    (hn : members.Nodup) :
    (ofEdges pairs isolated).edgesWithin members = (pairs.toFinset.filter (Joins members)).card := by
  have hm := mirrored_ofEdges pairs isolated
  let edgesAt := fun a => (((ofEdges pairs isolated).outgoing a).filter
    fun b => Joins members (a, b)).map fun b => (a, b)
  have hnodup : ∀ a, (edgesAt a).Nodup := fun a =>
    ((hm.nodup_outgoing a).filter _).map fun b c hbc => congrArg Prod.snd hbc
  have hmem : ∀ a e, e ∈ edgesAt a ↔ e ∈ pairs.filter (Joins members) ∧ e.1 = a := by
    rintro a ⟨x, b⟩
    simp only [edgesAt, List.mem_map, List.mem_filter, decide_eq_true_eq, mem_outgoing_ofEdges,
      Prod.mk.injEq]
    constructor
    · rintro ⟨b, h, rfl, rfl⟩
      exact ⟨h, rfl⟩
    · rintro ⟨h, rfl⟩
      exact ⟨b, h, rfl, rfl⟩
  have hside : ∀ e ∈ pairs.filter (Joins members), e.1 ∈ members := fun e he =>
    (of_decide_eq_true (List.mem_filter.1 he).2).1
  have hfilter : pairs.toFinset.filter (Joins members) =
      (pairs.filter (Joins members)).toFinset := by
    ext e
    simp
  rw [hfilter, card_eq_sum_length Prod.fst edgesAt hn hnodup hmem hside]
  unfold edgesWithin
  rw [tally_eq_sum]
  congr 1
  refine List.map_congr_left fun a ha => ?_
  simp only [edgesAt, List.length_map, List.countP_eq_length_filter, Joins, ha, true_and]

theorem sum_card_joins (edges : Finset (ModuleId × ModuleId)) {groups : List (List ModuleId)}
    (hd : groups.Pairwise List.Disjoint) :
    (groups.map fun members => (edges.filter (Joins members)).card).sum =
      (edges.filter fun e => ∃ members ∈ groups, Joins members e).card := by
  induction groups with
  | nil => simp
  | cons members rest ih =>
    obtain ⟨hfirst, hrest⟩ := List.pairwise_cons.1 hd
    have hsplit : (edges.filter fun e => ∃ ms ∈ members :: rest, Joins ms e) =
        edges.filter (Joins members) ∪ edges.filter fun e => ∃ ms ∈ rest, Joins ms e := by
      rw [← Finset.filter_or]
      simp only [List.exists_mem_cons_iff]
    have hdisjoint : Disjoint (edges.filter (Joins members))
        (edges.filter fun e => ∃ ms ∈ rest, Joins ms e) := by
      refine Finset.disjoint_filter.2 fun e _ he => ?_
      rintro ⟨ms, hms, hjoins⟩
      exact hfirst ms hms he.1 hjoins.1
    rw [List.map_cons, List.sum_cons, ih hrest, hsplit, Finset.card_union_of_disjoint hdisjoint]

theorem internalEdges_of_components (hok : g.components = .ok components) (hc : c ∈ components) :
    c.internalEdges = g.edgesWithin c.nodes := by
  obtain ⟨cs, hcs, -, hn, -⟩ := g.emitted_components
  obtain rfl := Except.ok.inj (hcs.symm.trans hok)
  obtain ⟨group, hgroup, rfl⟩ := List.mem_map.1 hc
  have hgroup := (List.nodup_flatten.1 hn).1 group hgroup
  have hperm : (idSet group).Perm group :=
    (List.perm_ext_iff_of_nodup (nodup_idSet group) hgroup).2 fun _ => mem_idSet
  exact congrArg Int.ofNat (g.edgesWithin_perm hperm).symm

/-- Components of a graph that tell its cycles and count its edges. -/
structure Told (g : ModuleGraph) (components : List Component) : Prop where
  unique : ∀ m ∈ g.nodes, ∃! c, c ∈ components ∧ m ∈ c.nodes
  isCycle_iff : ∀ c ∈ components, ∀ m ∈ c.nodes, c.isCycle = true ↔ g.OnCycle m
  cycles_eq_nil : cyclesOf components = [] ↔ ∀ m, ¬ g.OnCycle m
  internalEdges : ∃ crossing : Finset (ModuleId × ModuleId),
    (∀ e, e ∈ crossing ↔ g.Depends e.1 e.2 ∧
      ∃ c ∈ components, ∃ d ∈ components, e.1 ∈ c.nodes ∧ e.2 ∈ d.nodes ∧ c ≠ d) ∧
    (components.map Component.internalEdges).sum = (g.edgeCount : Int) - crossing.card

namespace Partitioned

variable (h : g.Partitioned components) (hok : g.components = .ok components)
include h

theorem existsUnique_component (hm : m ∈ g.nodes) : ∃! c, c ∈ components ∧ m ∈ c.nodes := by
  obtain ⟨c, hc, hmc⟩ := List.mem_flatMap.1 ((h.cover m).2 hm)
  exact ⟨c, ⟨hc, hmc⟩, fun d hd => h.component_unique hd.1 hc hd.2 hmc⟩

theorem not_joins_iff {e : ModuleId × ModuleId} (h₁ : e.1 ∈ g.nodes) (h₂ : e.2 ∈ g.nodes) :
    (¬ ∃ c ∈ components, Joins c.nodes e) ↔
      ∃ c ∈ components, ∃ d ∈ components, e.1 ∈ c.nodes ∧ e.2 ∈ d.nodes ∧ c ≠ d := by
  constructor
  · intro hnone
    obtain ⟨c, ⟨hc, hec⟩, -⟩ := h.existsUnique_component h₁
    obtain ⟨d, ⟨hd, hed⟩, -⟩ := h.existsUnique_component h₂
    refine ⟨c, hc, d, hd, hec, hed, ?_⟩
    rintro rfl
    exact hnone ⟨c, hc, hec, hed⟩
  · rintro ⟨c, hc, d, hd, hec, hed, hne⟩ ⟨c', hc', hjoins⟩
    exact hne ((h.component_unique hc hc' hec hjoins.1).trans
      (h.component_unique hc' hd hjoins.2 hed))

include hok

theorem cyclesOf_eq_nil_iff (hm : g.Mirrored) :
    cyclesOf components = [] ↔ ∀ m, ¬ g.OnCycle m := by
  unfold cyclesOf
  rw [List.filter_eq_nil_iff]
  constructor
  · intro hnone m hcycle
    obtain ⟨c, ⟨hc, hmc⟩, -⟩ := h.existsUnique_component (hm.mem_nodes_of_onCycle hcycle)
    exact hnone c hc ((h.isCycle_iff_onCycle hm hok hc hmc).2 hcycle)
  · intro hacyclic c hc hcycle
    obtain ⟨m, hmc⟩ := List.exists_mem_of_ne_nil _ (h.nonempty c hc)
    exact hacyclic m ((h.isCycle_iff_onCycle hm hok hc hmc).1 hcycle)

end Partitioned

theorem sum_internalEdges_ofEdges (h : (ofEdges pairs isolated).Partitioned components)
    (hok : (ofEdges pairs isolated).components = .ok components) :
    (components.map Component.internalEdges).sum = ((ofEdges pairs isolated).edgeCount : Int) -
      (pairs.toFinset.filter fun e => ¬ ∃ c ∈ components, Joins c.nodes e).card := by
  have hinside : (components.map Component.internalEdges).sum =
      (((components.map Component.nodes).map
        fun members => (pairs.toFinset.filter (Joins members)).card).sum : Nat) := by
    rw [List.map_map, Nat.cast_list_sum, List.map_map]
    congr 1
    refine List.map_congr_left fun c hc => ?_
    rw [internalEdges_of_components hok hc, edgesWithin_ofEdges pairs isolated c.nodup]
    rfl
  have hdisjoint : (components.map Component.nodes).Pairwise List.Disjoint :=
    List.pairwise_map.2 h.disjoint
  have hsum := sum_card_joins pairs.toFinset hdisjoint
  simp only [List.mem_map, exists_exists_and_eq_and] at hsum
  have hall := Finset.card_filter_add_card_filter_not (s := pairs.toFinset)
    fun e => ∃ c ∈ components, Joins c.nodes e
  rw [hinside, hsum, edgeCount_eq_card]
  omega

theorem told_ofEdges (h : (ofEdges pairs isolated).Partitioned components)
    (hok : (ofEdges pairs isolated).components = .ok components) :
    (ofEdges pairs isolated).Told components := by
  have hm := mirrored_ofEdges pairs isolated
  refine ⟨fun m hmem => h.existsUnique_component hmem, fun c hc m => h.isCycle_iff_onCycle hm hok hc,
    h.cyclesOf_eq_nil_iff hok hm, _, fun e => ?_, sum_internalEdges_ofEdges h hok⟩
  rw [Finset.mem_filter, List.mem_toFinset, ← mem_outgoing_ofEdges pairs isolated]
  exact and_congr_right fun he =>
    h.not_joins_iff (hm.source_mem e.1 e.2 he) (hm.target_mem e.1 e.2 he)

/-- Of any graph that was read, the components tell the cycles and count the edges. -/
theorem components_told {edges nodes : Value} (hg : read? edges nodes = .ok g) :
    ∃ components, g.components = .ok components ∧ g.Told components := by
  obtain ⟨pairs, isolated, -, rfl⟩ := lists_of_read? hg
  obtain ⟨components, hok, h⟩ := partitioned_components (mirrored_ofEdges pairs isolated)
  exact ⟨components, hok, told_ofEdges h hok⟩

theorem components_told_chord : ∃ g components,
    read? (.list [.tuple [.text "a", .text "b"], .tuple [.text "b", .text "c"],
      .tuple [.text "c", .text "a"], .tuple [.text "a", .text "c"], .tuple [.text "c", .text "d"],
      .tuple [.text "d", .text "d"]]) (.list []) = .ok g ∧
    g.components = .ok components ∧ g.Told components ∧ g.edgeCount = 6 ∧
    (∃ c ∈ components, "d" ∈ c.nodes ∧ c.isCycle = true) ∧ cyclesOf components ≠ [] := by
  have hg : read? (.list [.tuple [.text "a", .text "b"], .tuple [.text "b", .text "c"],
      .tuple [.text "c", .text "a"], .tuple [.text "a", .text "c"], .tuple [.text "c", .text "d"],
      .tuple [.text "d", .text "d"]]) (.list []) =
    .ok (.ofEdges [("a", "b"), ("b", "c"), ("c", "a"), ("a", "c"), ("c", "d"), ("d", "d")] []) := rfl
  obtain ⟨components, hok, h⟩ := components_told hg
  have hloop : OnCycle (ofEdges [("a", "b"), ("b", "c"), ("c", "a"), ("a", "c"), ("c", "d"),
      ("d", "d")] []) "d" := .single ((mem_outgoing_ofEdges _ _).2 (by simp))
  obtain ⟨c, ⟨hc, hdc⟩, -⟩ := h.unique "d" ((mem_nodes_ofEdges _ _ _).2 (by simp))
  exact ⟨_, components, hg, hok, h, rfl, ⟨c, hc, hdc, (h.isCycle_iff c hc "d" hdc).2 hloop⟩,
    fun hnil => h.cycles_eq_nil.1 hnil "d" hloop⟩

end ModuleGraph

end DependencyRanking
