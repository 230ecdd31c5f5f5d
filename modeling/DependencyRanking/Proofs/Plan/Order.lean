import DependencyRanking.Plan.Order
import DependencyRanking.Proofs.Graph.Cycle
import DependencyRanking.Proofs.Graph.Schedule
import DependencyRanking.Proofs.Outcome

/-!
# What the flat order holds

Between two placements the ready components are all that wait for nothing, each once. This does not
depend on which of them is taken, so the order is a schedule under any ranks.
-/
namespace DependencyRanking

variable {g : ModuleGraph} {components : List Component} {rank : ModuleId → Option Number}
variable {ready : List ReadyComponent} {placed is order : List Nat} {remaining : List Int}
variable {i j : Nat}

namespace ReadyComponent

theorem takeFirst_perm (a : ReadyComponent) (rest : List ReadyComponent) :
    ((takeFirst a rest).1 :: (takeFirst a rest).2).Perm (a :: rest) := by
  induction rest generalizing a with
  | nil => exact .refl [a]
  | cons b rest ih =>
    unfold takeFirst
    split
    · exact (List.Perm.swap a _ _).trans ((ih b).cons a)
    · exact (List.Perm.swap b _ _).trans (((ih a).cons b).trans (List.Perm.swap a b rest))

variable (hne : ∀ c ∈ components, c.nodes ≠ [])
include hne

theorem at?_ok (rank : ModuleId → Option Number) (hi : i < components.length) :
    ∃ r, at? components rank i = .ok r ∧ r.position = i := by
  unfold at?
  rw [List.getElem?_eq_getElem hi]
  cases hc : components[i].nodes with
  | nil => exact absurd hc (hne _ (List.getElem_mem hi))
  | cons m rest => simp only [hc, Except.ok.injEq, exists_eq_left']

theorem mapM_at?_ok (rank : ModuleId → Option Number) (h : ∀ i ∈ is, i < components.length) :
    ∃ rs, is.mapM (at? components rank) = .ok rs ∧ rs.map position = is := by
  induction is with
  | nil => exact ⟨[], rfl, rfl⟩
  | cons i is ih =>
    obtain ⟨hi, his⟩ := List.forall_mem_cons.1 h
    obtain ⟨r, hr, hrpos⟩ := at?_ok hne rank hi
    obtain ⟨rs, hrs, hrspos⟩ := ih his
    refine ⟨r :: rs, ?_, by rw [List.map_cons, hrpos, hrspos]⟩
    rw [List.mapM_cons, hr, hrs]
    rfl

end ReadyComponent

/-- Between two placements, the ready components are all that are ready, each once. -/
structure Placing (successors : List (List Nat)) (placed : List Nat) (remaining : List Int)
    (ready : List ReadyComponent) : Prop extends Counted successors placed remaining where
  nodup : (ready.map ReadyComponent.position).Nodup
  mem_ready : ∀ i, i ∈ ready.map ReadyComponent.position ↔ Ready successors placed i

namespace Placing

variable {successors predecessors : List (List Nat)} {a : ReadyComponent}
variable {rest : List ReadyComponent}

theorem of_perm {ready' : List ReadyComponent} (h : Placing successors placed remaining ready)
    (hp : ready'.Perm ready) : Placing successors placed remaining ready' where
  toCounted := h.toCounted
  nodup := (hp.map ReadyComponent.position).nodup_iff.2 h.nodup
  mem_ready i := (hp.map ReadyComponent.position).mem_iff.trans (h.mem_ready i)

theorem mem_rest (h : Placing successors placed remaining (a :: rest)) :
    i ∈ rest.map ReadyComponent.position ↔ i ∉ [a.position] ∧ Ready successors placed i := by
  obtain ⟨hnot, -⟩ := List.nodup_cons.1 h.nodup
  rw [← h.mem_ready, List.map_cons, List.mem_singleton, List.mem_cons]
  constructor
  · exact fun hi => ⟨fun heq => hnot (heq ▸ hi), .inr hi⟩
  · exact fun hi => hi.2.resolve_left hi.1

variable (hne : ∀ c ∈ components, c.nodes ≠ []) (hl : successors.length = components.length)
variable (rank : ModuleId → Option Number)
include hne hl

theorem start : ∃ ready, (initialReady (initialCounts successors)).mapM
    (ReadyComponent.at? components rank) = .ok ready ∧
      Placing successors [] (initialCounts successors) ready := by
  have hmem := mem_initialReady successors
  obtain ⟨ready, hready, hpos⟩ :=
    ReadyComponent.mapM_at?_ok hne rank fun i hi => hl ▸ ((hmem i).1 hi).1
  refine ⟨ready, hready, Counted.start _, ?_, fun i => ?_⟩
  · rw [hpos]
    exact (ascending_initialReady _).imp fun hij => hij.ne
  · rw [hpos]
    exact hmem i

theorem step (ht : Transposed successors predecessors)
    (h : Placing successors placed remaining (a :: rest)) :
    ∃ counts more, peel predecessors remaining [a.position] = .ok counts ∧
      counts.ready.mapM (ReadyComponent.at? components rank) = .ok more ∧
      Placing successors (placed ++ [a.position]) counts.remaining (rest ++ more) := by
  have hready := (h.mem_ready a.position).1 List.mem_cons_self
  obtain ⟨counts, hcounts, hcounted, hnodup, hnew⟩ :=
    h.toCounted.step ht (List.nodup_singleton a.position) (by simpa using hready)
  obtain ⟨more, hmore, hpos⟩ :=
    ReadyComponent.mapM_at?_ok hne rank fun i hi => hl ▸ ((hnew i).1 hi).1.1
  refine ⟨counts, more, hcounts, hmore, hcounted, ?_, fun i => ?_⟩
  · rw [List.map_append, hpos]
    refine List.nodup_append.2 ⟨(List.nodup_cons.1 h.nodup).2, hnodup, fun i hi j hj hij => ?_⟩
    exact ((hnew j).1 hj).2 (h.mem_rest.1 (hij ▸ hi)).2
  · rw [List.map_append, hpos, List.mem_append, hnew, h.mem_rest, ← ready_append_iff]

end Placing

theorem placeFrom_cons_eq_ok {c : Condensation} {a : ReadyComponent} {rest : List ReadyComponent} :
    placeFrom c rank remaining (a :: rest) = .ok order ↔ ∃ counts more later,
      peel c.predecessors remaining [(ReadyComponent.takeFirst a rest).1.position] = .ok counts ∧
      counts.ready.mapM (ReadyComponent.at? c.components rank) = .ok more ∧
      placeFrom c rank counts.remaining ((ReadyComponent.takeFirst a rest).2 ++ more) = .ok later ∧
      (ReadyComponent.takeFirst a rest).1.position :: later = order := by
  rw [placeFrom]
  constructor
  · intro h
    split at h
    · cases h
    · rename_i counts hcounts
      split at h
      · cases h
      · rename_i more hmore
        obtain ⟨later, hlater, heq⟩ := Outcome.bind_eq_ok.1 h
        exact ⟨counts, more, later, hcounts, hmore, hlater, Except.ok.inj heq⟩
  · rintro ⟨counts, more, later, hcounts, hmore, hlater, rfl⟩
    split
    · rename_i e he
      cases hcounts.symm.trans he
    · rename_i counts' hcounts'
      cases hcounts.symm.trans hcounts'
      split
      · rename_i e he
        cases hmore.symm.trans he
      · rename_i more' hmore'
        cases hmore.symm.trans hmore'
        rw [hlater]
        rfl

section Placements

variable (hne : ∀ c ∈ components, c.nodes ≠ []) (g : ModuleGraph) (rank : ModuleId → Option Number)
include hne

theorem placeFrom_peeled (h : Placing (g.condense components).successors placed remaining ready) :
    ∃ order, placeFrom (g.condense components) rank remaining ready = .ok order ∧
      Peeled (g.condense components).successors placed (order.map fun i => [i]) := by
  have ht := g.transposed_condense components
  have hl := g.length_successors components
  induction remaining, ready using placeFrom.induct (g.condense components) rank
    generalizing placed with
  | case1 remaining =>
    rw [placeFrom]
    exact ⟨[], rfl, .nil fun i hi => List.not_mem_nil ((h.mem_ready i).2 hi)⟩
  | case2 remaining a rest taken e =>
    rename_i he
    obtain ⟨counts, more, hcounts, -⟩ :=
      (h.of_perm (ReadyComponent.takeFirst_perm a rest)).step hne hl rank ht
    cases he.symm.trans hcounts
  | case3 remaining a rest taken counts hcounts e =>
    rename_i he
    obtain ⟨counts', more, hcounts', hmore, -⟩ :=
      (h.of_perm (ReadyComponent.takeFirst_perm a rest)).step hne hl rank ht
    cases hcounts.symm.trans hcounts'
    cases he.symm.trans hmore
  | case4 remaining a rest taken counts hcounts more hmore =>
    rename_i ih
    have htaken := h.of_perm (ReadyComponent.takeFirst_perm a rest)
    have hready := (htaken.mem_ready taken.1.position).1 List.mem_cons_self
    obtain ⟨counts', more', hcounts', hmore', hplacing⟩ := htaken.step hne hl rank ht
    cases hcounts.symm.trans hcounts'
    cases hmore.symm.trans hmore'
    obtain ⟨order, horder, hpeeled⟩ := ih hplacing
    refine ⟨_, placeFrom_cons_eq_ok.2 ⟨counts, more, order, hcounts, hmore, horder, rfl⟩,
      .cons (List.nodup_singleton _) ?_ hpeeled⟩
    simpa using hready

theorem placements_peeled : ∃ order, (g.condense components).placements rank = .ok order ∧
    Peeled (g.condense components).successors [] (order.map fun i => [i]) := by
  obtain ⟨ready, hready, hplacing⟩ := Placing.start hne (g.length_successors components) rank
  obtain ⟨order, horder, hpeeled⟩ := placeFrom_peeled hne g rank hplacing
  exact ⟨order, Outcome.bind_eq_ok.2 ⟨ready, hready, horder⟩, hpeeled⟩

end Placements

section Flattened

theorem flatten_singles (order : List Nat) : (order.map fun i => [i]).flatten = order := by
  rw [← List.flatMap_def]
  exact List.flatMap_singleton' order

theorem placedAt_singles {k : Nat} : PlacedAt (order.map fun i => [i]) i k ↔ order[k]? = some i := by
  unfold PlacedAt
  rw [List.getElem?_map]
  cases order[k]? <;> simp [eq_comm]

theorem idxOf_flatMap_lt {α β : Type} [BEq β] [LawfulBEq β] {f : α → List β} {xs : List α}
    {x y : α} {a b : β} {k l : Nat} (hn : (xs.flatMap f).Nodup) (hkl : k < l)
    (hk : xs[k]? = some x) (hl : xs[l]? = some y) (ha : a ∈ f x) (hb : b ∈ f y) :
    (xs.flatMap f).idxOf a < (xs.flatMap f).idxOf b := by
  have hsplit : xs.flatMap f = (xs.take l).flatMap f ++ (xs.drop l).flatMap f := by
    rw [← List.flatMap_append, List.take_append_drop]
  have hbefore : a ∈ (xs.take l).flatMap f := by
    refine List.mem_flatMap.2 ⟨x, List.mem_of_getElem? (i := k) ?_, ha⟩
    rw [List.getElem?_take_of_lt hkl]
    exact hk
  have hafter : b ∈ (xs.drop l).flatMap f := by
    refine List.mem_flatMap.2 ⟨y, List.mem_of_getElem? (i := 0) ?_, hb⟩
    rw [List.getElem?_drop]
    exact hl
  rw [hsplit] at hn ⊢
  rw [List.idxOf_append_of_mem hbefore, List.idxOf_append_of_notMem]
  · exact (List.idxOf_lt_length_iff.2 hbefore).trans_le (Nat.le_add_right _ _)
  · exact fun hb' => (List.nodup_append.1 hn).2.2 b hb' b hafter rfl

end Flattened

def membersAt (components : List Component) (i : Nat) : List ModuleId :=
  (components[i]?.map Component.nodes).getD []

theorem membersAt_eq {c : Component} (hc : components[i]? = some c) :
    membersAt components i = c.nodes := by
  unfold membersAt
  rw [hc]
  rfl

theorem mem_membersAt {m : ModuleId} :
    m ∈ membersAt components i ↔ ∃ c, components[i]? = some c ∧ m ∈ c.nodes := by
  unfold membersAt
  cases components[i]? <;> simp

namespace ModuleGraph

variable {u v m : ModuleId} {order : List ModuleId} {positions : List Nat}

/-- All modules, once each. Modules that reach each other stand together, ascending, and behind
everything else that they reach. -/
structure Topological (g : ModuleGraph) (order : List ModuleId) : Prop where
  perm : order.Perm g.nodes
  together : ∀ u ∈ g.nodes, ∃ members, members <:+: order ∧ members.Pairwise (· < ·) ∧
    ∀ v, v ∈ members ↔ g.Reaches u v ∧ g.Reaches v u
  earlier : ∀ u v, g.Reaches u v → ¬ g.Reaches v u → order.idxOf v < order.idxOf u

namespace Partitioned

variable (hp : g.Partitioned components)
include hp

theorem mem_of_peeled
    (hs : Peeled (g.condense components).successors [] (positions.map fun i => [i])) :
    i ∈ positions ↔ i < components.length := by
  rw [← g.length_successors components, ← flatten_singles positions]
  exact ⟨hs.lt_length i, hs.mem_flatten_of_lt fun i j hj => hp.successor_lt hj⟩

theorem nodup_members
    (hs : Peeled (g.condense components).successors [] (positions.map fun i => [i])) :
    (positions.flatMap (membersAt components)).Nodup := by
  have hn : positions.Nodup := flatten_singles positions ▸ hs.nodup_flatten
  refine List.nodup_flatMap.2 ⟨fun i hi => ?_, hn.imp fun {i j} hij m hmi hmj => ?_⟩
  · have hc := List.getElem?_eq_getElem ((hp.mem_of_peeled hs).1 hi)
    rw [membersAt_eq hc]
    exact Component.nodup _
  · obtain ⟨c, hc, hmc⟩ := mem_membersAt.1 hmi
    obtain ⟨d, hd, hmd⟩ := mem_membersAt.1 hmj
    exact hij (hp.position_unique hc hd hmc hmd)

theorem perm_members
    (hs : Peeled (g.condense components).successors [] (positions.map fun i => [i])) :
    (positions.flatMap (membersAt components)).Perm g.nodes := by
  refine (List.perm_ext_iff_of_nodup (hp.nodup_members hs) g.nodup_nodes).2 fun m => ?_
  rw [← hp.cover m, List.mem_flatMap, List.mem_flatMap]
  constructor
  · rintro ⟨i, -, hm⟩
    obtain ⟨c, hc, hmc⟩ := mem_membersAt.1 hm
    exact ⟨c, List.mem_of_getElem? hc, hmc⟩
  · rintro ⟨c, hc, hmc⟩
    obtain ⟨i, hi⟩ := List.mem_iff_getElem?.1 hc
    exact ⟨i, (hp.mem_of_peeled hs).2 (List.getElem?_eq_some_iff.1 hi).1,
      mem_membersAt.2 ⟨c, hi, hmc⟩⟩

theorem topological (hm : g.Mirrored)
    (hs : Peeled (g.condense components).successors [] (positions.map fun i => [i])) :
    g.Topological (positions.flatMap (membersAt components)) where
  perm := hp.perm_members hs
  together u hu := by
    obtain ⟨i, c, hc, huc⟩ := hp.exists_position hu
    have hmem := List.mem_of_getElem? hc
    refine ⟨c.nodes, ?_, ?_, fun v => hp.mem_iff_mutual hm hmem huc⟩
    · have hi := (hp.mem_of_peeled hs).2 (List.getElem?_eq_some_iff.1 hc).1
      obtain ⟨before, after, rfl⟩ := List.append_of_mem hi
      rw [List.flatMap_append, List.flatMap_cons, membersAt_eq hc, ← List.append_assoc]
      exact List.infix_append _ _ _
    · exact c.ascending
  earlier u v huv hvu := by
    have hu : u ∈ g.nodes := hm.mem_nodes_of_reaches_ne huv fun h => hvu (h ▸ .refl)
    obtain ⟨i, c, hc, huc⟩ := hp.exists_position hu
    obtain ⟨j, d, hd, hvd⟩ := hp.exists_position (hm.mem_nodes_of_reaches huv hu)
    have hall := fun i (hi : i < components.length) => (hp.mem_of_peeled hs).2 hi
    obtain ⟨k, hk⟩ := List.mem_iff_getElem?.1 (hall i (List.getElem?_eq_some_iff.1 hc).1)
    obtain ⟨l, hl⟩ := List.mem_iff_getElem?.1 (hall j (List.getElem?_eq_some_iff.1 hd).1)
    rw [← flatten_singles positions] at hall
    rcases hp.position_or_earlier hm hs.scheduled hs.nodup_flatten hall huv hc huc hd hvd
      (placedAt_singles.2 hk) (placedAt_singles.2 hl) with rfl | hlk
    · obtain rfl := Option.some.inj (hc.symm.trans hd)
      exact absurd (hp.joined c (List.mem_of_getElem? hc) v hvd u huc) hvu
    · exact idxOf_flatMap_lt (hp.nodup_members hs) hlk hl hk ((membersAt_eq hd).symm ▸ hvd)
        ((membersAt_eq hc).symm ▸ huc)

end Partitioned

/-- Under any ranks the flat order of a graph that was read is topological. -/
theorem topologicalOrder_topological {edges isolated : Value} (hg : read? edges isolated = .ok g) :
    ∃ components, g.components = .ok components ∧ ∀ rank : ModuleId → Option Number,
      ∃ order, g.topologicalOrder components rank = .ok order ∧ g.Topological order := by
  have hm := mirrored_of_read? hg
  obtain ⟨components, hok, hp⟩ := partitioned_components hm
  refine ⟨components, hok, fun rank => ?_⟩
  obtain ⟨positions, hpositions, hs⟩ := placements_peeled hp.nonempty g rank
  refine ⟨positions.flatMap (membersAt components), ?_, hp.topological hm hs⟩
  exact Outcome.bind_eq_ok.2 ⟨positions, hpositions, rfl⟩

theorem topologicalOrder_partly_ranked : ∃ g components order,
    read? (.list [.tuple [.text "app", .text "core"], .tuple [.text "core", .text "util"],
      .tuple [.text "util", .text "core"], .tuple [.text "app", .text "web"]])
      (.list [.text "solo"]) = .ok g ∧
    g.components = .ok components ∧
    g.topologicalOrder components (fun m => if m = "core" ∨ m = "none" then some (.int 1) else none)
      = .ok order ∧
    g.Topological order := by
  have hg : read? (.list [.tuple [.text "app", .text "core"], .tuple [.text "core", .text "util"],
      .tuple [.text "util", .text "core"], .tuple [.text "app", .text "web"]])
      (.list [.text "solo"]) =
    .ok (.ofEdges [("app", "core"), ("core", "util"), ("util", "core"), ("app", "web")]
      ["solo"]) := rfl
  obtain ⟨components, hok, hall⟩ := topologicalOrder_topological hg
  obtain ⟨order, horder, htop⟩ := hall _
  exact ⟨_, components, order, hg, hok, horder, htop⟩

end ModuleGraph

end DependencyRanking
