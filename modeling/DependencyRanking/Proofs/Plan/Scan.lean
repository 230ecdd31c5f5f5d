import DependencyRanking.Proofs.Number.Value
import DependencyRanking.Proofs.Plan.Order
import Mathlib.Data.List.MinMax
import Mathlib.Data.Prod.Lex

/-!
# The flat order by scanning what is left

The flat order keeps the ready components at hand and counts down what the others wait for. It can
be found without: look through all components that are left before each placement, and take the
least one that depends on no other. Disjoint components have different least modules, so the least
one is never in doubt, and positions have no say in the order.
-/
namespace DependencyRanking

variable {g : ModuleGraph} {components left : List Component} {rank : ModuleId → Option Number}
variable {placed order : List Nat} {remaining : List Int} {c d : Component} {m : ModuleId}
variable {i j : Nat}

def rankValue (rank : ModuleId → Option Number) (m : ModuleId) : WithBot Extended :=
  ((rank m).getD (.float 0.0)).value

theorem rankValue_ne_bot (hrank : ∀ m n, rank m = some n → n.isUndefined = false) (m : ModuleId) :
    rankValue rank m ≠ ⊥ := by
  unfold rankValue
  rw [ne_eq, ← Number.isUndefined_iff, Bool.not_eq_true]
  cases hm : rank m with
  | none => decide
  | some n => exact hrank m n hm

abbrev Preference := WithTop (WithBot Extended) ×ₗ WithTop ModuleId

/-- The least rank of the modules of a component, then its least module. -/
def Component.preference (rank : ModuleId → Option Number) (c : Component) : Preference :=
  toLex ((c.nodes.map (rankValue rank)).minimum, c.nodes.minimum)

namespace ModuleGraph

def released (g : ModuleGraph) (left : List Component) : List Component :=
  left.filter fun c => ∀ d ∈ left, d ≠ c → ∀ u ∈ c.nodes, ∀ v ∈ g.outgoing u, v ∉ d.nodes

/-- The order in which scanning places what is left, until nothing is released. -/
def scan (g : ModuleGraph) (rank : ModuleId → Option Number) (left : List Component) :
    List ModuleId :=
  match _h : (g.released left).argmin (Component.preference rank) with
  | none => []
  | some c => sortIds c.nodes ++ g.scan rank (left.erase c)
termination_by left.length
decreasing_by
  have hc : c ∈ left := List.mem_of_mem_filter (List.argmin_mem _h)
  rw [List.length_erase_of_mem hc]
  exact Nat.sub_one_lt (List.length_pos_of_mem hc).ne'

theorem mem_released : c ∈ g.released left ↔ c ∈ left ∧
    ∀ d ∈ left, d ≠ c → ∀ u ∈ c.nodes, ∀ v ∈ g.outgoing u, v ∉ d.nodes := by
  simp [released]

theorem scan_of_released_nil (h : g.released left = []) : g.scan rank left = [] := by
  rw [scan]
  split
  · rfl
  · rename_i c hc
    rw [h] at hc
    cases hc

theorem scan_of_least (hc : (g.released left).argmin (Component.preference rank) = some c) :
    g.scan rank left = sortIds c.nodes ++ g.scan rank (left.erase c) := by
  rw [scan]
  split
  · rename_i hnone
    cases hc.symm.trans hnone
  · rename_i c' hc'
    cases hc.symm.trans hc'
    rfl

end ModuleGraph

theorem argmin_eq_some_of_least {α κ : Type} [DecidableEq α] [LinearOrder κ] {f : α → κ}
    {l : List α} {a : α} (ha : a ∈ l) (hle : ∀ b ∈ l, f a ≤ f b)
    (hinj : ∀ b ∈ l, f b = f a → b = a) : l.argmin f = some a := by
  refine List.mem_argmin_iff.2 ⟨ha, hle, fun b hb hba => ?_⟩
  rw [hinj b hb (hba.antisymm (hle b hb))]

namespace ReadyComponent

variable {a b : ReadyComponent}

def key (a : ReadyComponent) : WithBot Extended ×ₗ ModuleId ×ₗ Nat :=
  toLex (a.rank.value, toLex (a.first, a.position))

theorem precedes_iff (ha : a.rank.value ≠ ⊥) : precedes a b = true ↔ a.key < b.key := by
  unfold precedes key
  rw [Prod.Lex.toLex_lt_toLex, Prod.Lex.toLex_lt_toLex]
  by_cases heq : a.rank.value = b.rank.value
  · rw [if_pos (Number.beq_iff_value.2 ⟨ha, heq⟩)]
    simp [heq]
  · have hne : ¬ (a.rank == b.rank) = true := fun h => heq (Number.beq_iff_value.1 h).2
    rw [if_neg hne, decide_eq_true_eq, Number.lt_iff_value]
    simp [heq, ha]

theorem takeFirst_le (a : ReadyComponent) (rest : List ReadyComponent)
    (h : ∀ b ∈ a :: rest, b.rank.value ≠ ⊥) :
    ∀ b ∈ a :: rest, (takeFirst a rest).1.key ≤ b.key := by
  induction rest generalizing a with
  | nil => simp [takeFirst]
  | cons b rest ih =>
    have hrest : ∀ x ∈ rest, x.rank.value ≠ ⊥ := fun x hx => h x (by simp [hx])
    unfold takeFirst
    split
    · rename_i hba
      have hlt := (precedes_iff (h b (by simp))).1 hba
      have hb := ih b (List.forall_mem_cons.2 ⟨h b (by simp), hrest⟩)
      exact List.forall_mem_cons.2 ⟨(hb b List.mem_cons_self).trans hlt.le, hb⟩
    · rename_i hba
      have hle := not_lt.1 (mt (precedes_iff (h b (by simp))).2 hba)
      have ha := ih a (List.forall_mem_cons.2 ⟨h a (by simp), hrest⟩)
      obtain ⟨hleast, hothers⟩ := List.forall_mem_cons.1 ha
      exact List.forall_mem_cons.2
        ⟨hleast, List.forall_mem_cons.2 ⟨hleast.trans hle, hothers⟩⟩

end ReadyComponent

theorem value_least {f : ModuleId → Number} (hf : ∀ m, (f m).value ≠ ⊥) (m : ModuleId)
    (ms : List ModuleId) :
    let least := ms.foldl (fun low m => if f m < low then f m else low) (f m)
    least.value ≠ ⊥ ∧ (least.value : WithTop (WithBot Extended)) =
      ((m :: ms).map fun m => (f m).value).minimum := by
  induction ms generalizing m with
  | nil => exact ⟨hf m, by simp⟩
  | cons n rest ih =>
    simp only [List.foldl_cons, List.map_cons, List.minimum_cons] at ih ⊢
    rw [← min_assoc]
    split
    · rename_i hlt
      have hle : (f n).value ≤ (f m).value := (Number.lt_iff_value.1 hlt).2.le
      rw [min_eq_right (WithTop.coe_le_coe.2 hle)]
      exact ih n
    · rename_i hlt
      have hle : (f m).value ≤ (f n).value :=
        not_lt.1 fun h => hlt (Number.lt_iff_value.2 ⟨hf n, h⟩)
      rw [min_eq_left (WithTop.coe_le_coe.2 hle)]
      exact ih m

theorem minimum_of_ascending {ms : List ModuleId} (h : (m :: ms).Pairwise (· < ·)) :
    (m :: ms).minimum = m := by
  refine List.minimum_eq_coe_iff.2 ⟨List.mem_cons_self, List.forall_mem_cons.2 ⟨le_rfl, ?_⟩⟩
  exact fun n hn => ((List.pairwise_cons.1 h).1 n hn).le

/-- Components with modules, of which no two have one in common. -/
structure Separate (components : List Component) : Prop where
  nonempty : ∀ c ∈ components, c.nodes ≠ []
  disjoint : components.Pairwise fun c d => c.nodes.Disjoint d.nodes

namespace Separate

variable (hs : Separate components)
include hs

theorem perm {components' : List Component} (h : components'.Perm components) :
    Separate components' where
  nonempty c hc := hs.nonempty c (h.mem_iff.1 hc)
  disjoint := (h.pairwise_iff List.disjoint_symm).2 hs.disjoint

theorem position_unique (hi : components[i]? = some c) (hj : components[j]? = some c) : i = j := by
  obtain ⟨m, hm⟩ := List.exists_mem_of_ne_nil _ (hs.nonempty c (List.mem_of_getElem? hi))
  exact position_unique_of_disjoint hs.disjoint hi hj hm hm

theorem nodup : components.Nodup := by
  refine hs.disjoint.imp_of_mem fun {c d} hc _ hcd heq => ?_
  obtain ⟨m, hm⟩ := List.exists_mem_of_ne_nil _ (hs.nonempty c hc)
  exact hcd hm (heq ▸ hm)

theorem eq_of_preference_eq (hc : c ∈ components) (hd : d ∈ components)
    (h : c.preference rank = d.preference rank) : c = d := by
  have hmin : c.nodes.minimum = d.nodes.minimum := congrArg (fun p => (ofLex p).2) h
  obtain ⟨m, rest, hnodes⟩ := List.exists_cons_of_ne_nil (hs.nonempty c hc)
  rw [hnodes, minimum_of_ascending (hnodes ▸ c.ascending)] at hmin
  obtain ⟨i, hi⟩ := List.mem_iff_getElem?.1 hc
  obtain ⟨j, hj⟩ := List.mem_iff_getElem?.1 hd
  obtain rfl := position_unique_of_disjoint hs.disjoint hi hj (hnodes ▸ List.mem_cons_self)
    (List.minimum_mem hmin.symm)
  exact Option.some.inj (hi.symm.trans hj)

end Separate

theorem separate_of_components (hok : g.components = .ok components) : Separate components where
  nonempty c hc := by
    obtain ⟨cs, hcs, he, -⟩ := g.emitted_components
    cases hok.symm.trans hcs
    exact ModuleGraph.ne_nil_of_mem_componentsOf he hc
  disjoint := ModuleGraph.disjoint_of_components hok

namespace ReadyComponent

structure Stands (components : List Component) (rank : ModuleId → Option Number)
    (a : ReadyComponent) (c : Component) : Prop where
  component : components[a.position]? = some c
  defined : a.rank.value ≠ ⊥
  preference : c.preference rank =
    toLex ((a.rank.value : WithTop (WithBot Extended)), (a.first : WithTop ModuleId))

variable {a b : ReadyComponent}

theorem stands_of_at?
    (hrank : ∀ m n, rank m = some n → n.isUndefined = false) (h : at? components rank i = .ok a) :
    ∃ c, a.Stands components rank c := by
  unfold at? at h
  split at h
  · cases h
  · rename_i c hc
    split at h
    · cases h
    · rename_i m rest hnodes
      obtain ⟨hd, hmin⟩ := value_least (rankValue_ne_bot hrank) m rest
      cases h
      refine ⟨c, hc, hd, ?_⟩
      unfold Component.preference
      rw [hnodes, minimum_of_ascending (hnodes ▸ c.ascending), hmin]
      rfl

theorem Stands.preference_le (ha : a.Stands components rank c) (hb : b.Stands components rank d)
    (h : a.key ≤ b.key) : c.preference rank ≤ d.preference rank := by
  rw [ha.preference, hb.preference]
  unfold key at h
  rw [Prod.Lex.toLex_le_toLex] at h ⊢
  refine h.imp WithTop.coe_lt_coe.2 fun ⟨hrank, hrest⟩ => ⟨WithTop.coe_inj.2 hrank, ?_⟩
  rw [Prod.Lex.toLex_le_toLex] at hrest
  exact WithTop.coe_le_coe.2 (hrest.elim le_of_lt fun hfirst => hfirst.1.le)

end ReadyComponent

structure LeftOver (components : List Component) (placed : List Nat) (left : List Component) :
    Prop where
  nodup : left.Nodup
  mem_iff : ∀ c, c ∈ left ↔ ∃ i, i ∉ placed ∧ components[i]? = some c

namespace LeftOver

variable (hs : Separate components)
include hs

theorem start (hp : left.Perm components) : LeftOver components [] left where
  nodup := hp.nodup_iff.2 hs.nodup
  mem_iff c := by simp [hp.mem_iff, List.mem_iff_getElem?]

variable (hl : LeftOver components placed left)
include hl

theorem erase (hc : components[i]? = some c) :
    LeftOver components (placed ++ [i]) (left.erase c) where
  nodup := hl.nodup.erase c
  mem_iff d := by
    rw [hl.nodup.mem_erase_iff, hl.mem_iff]
    simp only [List.mem_append, List.mem_singleton, not_or]
    constructor
    · rintro ⟨hne, j, hj, hd⟩
      refine ⟨j, ⟨hj, ?_⟩, hd⟩
      rintro rfl
      exact hne (Option.some.inj (hd.symm.trans hc))
    · rintro ⟨j, ⟨hj, hne⟩, hd⟩
      refine ⟨?_, j, hj, hd⟩
      rintro rfl
      exact hne (hs.position_unique hd hc)

theorem mem_released_iff (hc : components[i]? = some c) :
    c ∈ g.released left ↔ Ready (g.condense components).successors placed i := by
  unfold Ready
  rw [ModuleGraph.mem_released, hl.mem_iff, g.length_successors]
  simp only [ModuleGraph.mem_successors, membershipOf_of_disjoint hs.disjoint]
  constructor
  · rintro ⟨⟨k, hk, hck⟩, hfree⟩
    obtain rfl := hs.position_unique hc hck
    refine ⟨(List.getElem?_eq_some_iff.1 hc).1, hk, ?_⟩
    rintro j ⟨hji, c', hc', u, hu, v, huv, d, hd, hv⟩
    obtain rfl := Option.some.inj (hc'.symm.trans hc)
    by_contra hj
    refine hfree d ((hl.mem_iff d).2 ⟨j, hj, hd⟩) ?_ u hu v huv hv
    rintro rfl
    exact hji (hs.position_unique hd hc)
  · rintro ⟨-, hi, hplaced⟩
    refine ⟨⟨i, hi, hc⟩, fun d hd hne u hu v huv hv => ?_⟩
    obtain ⟨j, hj, hdj⟩ := (hl.mem_iff d).1 hd
    refine hj (hplaced j ⟨?_, c, hc, u, hu, v, huv, d, hdj, hv⟩)
    rintro rfl
    exact hne (Option.some.inj (hdj.symm.trans hc))

theorem exists_ready (hc : c ∈ g.released left) :
    ∃ i, components[i]? = some c ∧ Ready (g.condense components).successors placed i := by
  obtain ⟨i, -, hi⟩ := (hl.mem_iff c).1 (ModuleGraph.mem_released.1 hc).1
  exact ⟨i, hi, (hl.mem_released_iff hs hi).1 hc⟩

end LeftOver

/-- Placing, with what is ready, and scanning, with what is left, are at the same point. -/
structure InStep (g : ModuleGraph) (components : List Component) (rank : ModuleId → Option Number)
    (placed : List Nat) (remaining : List Int) (ready : List ReadyComponent)
    (left : List Component) : Prop where
  placing : Placing (g.condense components).successors placed remaining ready
  leftOver : LeftOver components placed left
  stands : ∀ a ∈ ready, ∃ c, a.Stands components rank c

namespace InStep

variable {a : ReadyComponent} {rest ready more : List ReadyComponent} {counts : Countdown}
variable (hs : Separate components)
include hs

theorem released_nil (h : InStep g components rank placed remaining [] left) :
    g.released left = [] := by
  refine List.eq_nil_iff_forall_not_mem.2 fun c hc => ?_
  obtain ⟨i, -, hi⟩ := h.leftOver.exists_ready hs hc
  exact List.not_mem_nil ((h.placing.mem_ready i).2 hi)

theorem argmin_released (h : InStep g components rank placed remaining (a :: rest) left)
    (hc : (ReadyComponent.takeFirst a rest).1.Stands components rank c) :
    (g.released left).argmin (Component.preference rank) = some c := by
  have htaken := h.placing.of_perm (ReadyComponent.takeFirst_perm a rest)
  have hleast := ReadyComponent.takeFirst_le a rest fun b hb =>
    (h.stands b hb).elim fun _ hb => hb.defined
  have hreleased : c ∈ g.released left :=
    (h.leftOver.mem_released_iff hs hc.component).2 ((htaken.mem_ready _).1 List.mem_cons_self)
  refine argmin_eq_some_of_least hreleased (fun d hd => ?_) (fun d hd heq => ?_)
  · obtain ⟨j, hj, hready⟩ := h.leftOver.exists_ready hs hd
    obtain ⟨b, hb, rfl⟩ := List.mem_map.1 ((h.placing.mem_ready j).2 hready)
    obtain ⟨d', hd'⟩ := h.stands b hb
    obtain rfl := Option.some.inj (hd'.component.symm.trans hj)
    exact hc.preference_le hd' (hleast b hb)
  · obtain ⟨j, hj, -⟩ := h.leftOver.exists_ready hs hd
    exact hs.eq_of_preference_eq (List.mem_of_getElem? hj) (List.mem_of_getElem? hc.component) heq

variable (hrank : ∀ m n, rank m = some n → n.isUndefined = false)
include hrank

theorem start (hp : left.Perm components) : ∃ ready,
    (initialReady (initialCounts (g.condense components).successors)).mapM
      (ReadyComponent.at? components rank) = .ok ready ∧
    InStep g components rank [] (initialCounts (g.condense components).successors) ready left := by
  obtain ⟨ready, hready, hplacing⟩ :=
    Placing.start hs.nonempty (g.length_successors components) rank
  refine ⟨ready, hready, hplacing, .start hs hp, fun a ha => ?_⟩
  obtain ⟨i, -, hi⟩ := Outcome.exists_of_mem_mapM hready ha
  exact ReadyComponent.stands_of_at? hrank hi

theorem step (h : InStep g components rank placed remaining (a :: rest) left)
    (hcounts : peel (g.condense components).predecessors remaining
      [(ReadyComponent.takeFirst a rest).1.position] = .ok counts)
    (hmore : counts.ready.mapM (ReadyComponent.at? components rank) = .ok more) :
    ∃ c, components[(ReadyComponent.takeFirst a rest).1.position]? = some c ∧
      g.scan rank left = sortIds c.nodes ++ g.scan rank (left.erase c) ∧
      InStep g components rank (placed ++ [(ReadyComponent.takeFirst a rest).1.position])
        counts.remaining ((ReadyComponent.takeFirst a rest).2 ++ more) (left.erase c) := by
  have hperm := ReadyComponent.takeFirst_perm a rest
  obtain ⟨c, hc⟩ := h.stands _ (hperm.mem_iff.1 List.mem_cons_self)
  obtain ⟨counts', more', hcounts', hmore', hplacing⟩ := (h.placing.of_perm hperm).step hs.nonempty
    (g.length_successors components) rank (g.transposed_condense components)
  cases hcounts.symm.trans hcounts'
  cases hmore.symm.trans hmore'
  refine ⟨c, hc.component, ModuleGraph.scan_of_least (h.argmin_released hs hc), hplacing,
    h.leftOver.erase hs hc.component, fun b hb => ?_⟩
  rcases List.mem_append.1 hb with hb | hb
  · exact h.stands b (hperm.mem_iff.1 (List.mem_cons_of_mem _ hb))
  · obtain ⟨i, -, hi⟩ := Outcome.exists_of_mem_mapM hmore hb
    exact ReadyComponent.stands_of_at? hrank hi

theorem scan_eq (h : InStep g components rank placed remaining ready left)
    (hok : placeFrom (g.condense components) rank remaining ready = .ok order) :
    g.scan rank left = order.flatMap (membersAt components) := by
  induction order generalizing placed remaining ready left with
  | nil =>
    cases ready with
    | nil => exact ModuleGraph.scan_of_released_nil (h.released_nil hs)
    | cons a rest =>
      obtain ⟨-, -, later, -, -, -, heq⟩ := placeFrom_cons_eq_ok.1 hok
      cases heq
  | cons i later ih =>
    cases ready with
    | nil =>
      rw [placeFrom] at hok
      cases hok
    | cons a rest =>
      obtain ⟨counts, more, later', hcounts, hmore, hlater, heq⟩ := placeFrom_cons_eq_ok.1 hok
      cases heq
      obtain ⟨c, hc, hscan, hnext⟩ := h.step hs hrank hcounts hmore
      rw [hscan, ih hnext hlater, List.flatMap_cons, membersAt_eq hc, c.sortIds_nodes]

end InStep

namespace ModuleGraph

/-- For disjoint components and ranks that can be compared, the flat order is what scanning finds,
in whatever order the components are given. -/
theorem topologicalOrder_eq_scan (g : ModuleGraph) (hs : Separate components)
    (hrank : ∀ m n, rank m = some n → n.isUndefined = false) :
    g.topologicalOrder components rank = .ok (g.scan rank components) ∧
    ∀ components', components'.Perm components →
      g.topologicalOrder components' rank = g.topologicalOrder components rank := by
  have hscan : ∀ components left : List Component, Separate components → left.Perm components →
      g.topologicalOrder components rank = .ok (g.scan rank left) := by
    intro components left hs hp
    obtain ⟨ready, hready, hstep⟩ := InStep.start (g := g) hs hrank hp
    obtain ⟨order, horder, -⟩ := placeFrom_peeled hs.nonempty g rank hstep.placing
    rw [hstep.scan_eq hs hrank horder]
    exact Outcome.bind_eq_ok.2 ⟨order, Outcome.bind_eq_ok.2 ⟨ready, hready, horder⟩, rfl⟩
  refine ⟨hscan components components hs (.refl _), fun components' hp => ?_⟩
  rw [hscan components' components' (hs.perm hp) (.refl _), hscan components components' hs hp]

theorem topologicalOrder_eq_scan_split :
    let g := ofEdges [("app", "core"), ("core", "util"), ("util", "core"), ("app", "web"),
      ("x", "y"), ("y", "x")] ["solo"]
    let components : List Component :=
      [⟨["app"], 0, by decide⟩, ⟨["x"], 0, by decide⟩, ⟨["solo"], 0, by decide⟩,
        ⟨["core", "util"], 2, by decide⟩, ⟨["y"], 0, by decide⟩, ⟨["web"], 0, by decide⟩]
    let rank : ModuleId → Option Number := fun m =>
      if m = "core" then some (.int 1) else if m = "web" then some (.float (-0.5)) else none
    Separate components ∧ (∀ m n, rank m = some n → n.isUndefined = false) ∧
      g.topologicalOrder components rank = .ok (g.scan rank components) ∧
      g.topologicalOrder components.reverse rank = g.topologicalOrder components rank ∧
      (g.topologicalOrder components rank).toOption =
        some ["web", "core", "util", "app", "solo"] := by
  intro g components rank
  have hs : Separate components := by
    refine ⟨?_, ?_⟩
    · decide
    · simp [components, List.disjoint_left]
  have hrank : ∀ m n, rank m = some n → n.isUndefined = false := by
    intro m n h
    simp only [rank] at h
    split at h
    · cases h
      rfl
    · split at h
      · cases h
        decide +kernel
      · cases h
  have h := topologicalOrder_eq_scan g hs hrank
  exact ⟨hs, hrank, h.1, h.2 _ (List.reverse_perm _), by decide +kernel⟩

end ModuleGraph

end DependencyRanking
