import DependencyRanking.Proofs.Search.Invariant

/-!
# Leaving a node

When the successors of the node on top of the path are all seen, either its layer merges with the
one below, or it closes a component. The second happens exactly when its low link is its own index,
and then its layer is a whole class of mutual reachability: everything on the stack reaches the top
of the path, the top reaches its layer, and no edge leads from the layer further down the stack.
-/
namespace DependencyRanking.Search

variable {α : Type} [DecidableEq α] {nodes : List α} {succ : α → List α} {s : Search α}
variable {u v w : α} {ws above rest : List α} {below : List (α × List α)}

section Top

omit [DecidableEq α] in
theorem path_eq_cons (hf : s.frames = (v, ws) :: below) : s.path = v :: below.map Prod.fst := by
  unfold path
  rw [hf]
  rfl

theorem unseen_of_top (hf : s.frames = (v, ws) :: below) : s.unseen v = ws := by
  unfold unseen
  rw [hf]
  simp [entryAt?]

theorem unseen_of_notMem (hx : v ∉ s.path) : s.unseen v = [] := by
  have hnone : entryAt? v s.frames = none := Table.entryAt?_eq_none_iff.2 hx
  unfold unseen
  rw [hnone]
  rfl

variable (h : Invariant nodes succ s)
include h

theorem nodup_path : s.path.Nodup := h.linked.layered.sublist.nodup h.placed.nodup_stack

theorem exists_path_reached (hw : w ∈ s.stack) :
    ∃ u ∈ s.path, s.indexOf u ≤ s.indexOf w ∧ Reaches nodes succ w u := by
  induction hn : s.indexOf w using Nat.strong_induction_on generalizing w with
  | _ n ih =>
    by_cases hp : w ∈ s.path
    · exact ⟨w, hp, hn.le, .refl w⟩
    · obtain ⟨x, hx, he, hwx⟩ := h.linked.target w hw
      have hlt := h.linked.low_lt w hw hp
      obtain ⟨u, hu, hle, hxu⟩ := ih (s.indexOf x) (by omega) hx rfl
      exact ⟨u, hu, by omega, hwx.trans hxu⟩

variable (hf : s.frames = (v, ws) :: below)
include hf

theorem mem_stack_of_top : v ∈ s.stack := by
  refine h.linked.layered.sublist.subset ?_
  rw [path_eq_cons hf]
  exact List.mem_cons_self

theorem index_le_top (hu : u ∈ s.path) : s.indexOf u ≤ s.indexOf v := by
  have hd := h.placed.descending.sublist h.linked.layered.sublist
  rw [path_eq_cons hf] at hd hu
  rcases List.mem_cons.1 hu with rfl | hu
  · exact le_rfl
  · exact ((List.pairwise_cons.1 hd).1 u hu).le

theorem reaches_top (hw : w ∈ s.stack) : Reaches nodes succ w v := by
  obtain ⟨u, hu, -, hwu⟩ := exists_path_reached h hw
  exact hwu.trans (h.linked.reaches u hu v (mem_stack_of_top h hf) (index_le_top h hf hu))

theorem reaches_of_top (hw : w ∈ s.stack) (hle : s.indexOf v ≤ s.indexOf w) :
    Reaches nodes succ v w := by
  refine h.linked.reaches v ?_ w hw hle
  rw [path_eq_cons hf]
  exact List.mem_cons_self

end Top

section Leave

variable (h : Invariant nodes succ s) (hf : s.frames = (v, []) :: below)
include h hf

theorem unseen_below (x : α) : (entryAt? x below).getD [] = s.unseen x := by
  have hn := nodup_path h
  rw [path_eq_cons hf] at hn
  by_cases hx : v = x
  · subst hx
    have hnone : entryAt? v below = none :=
      Table.entryAt?_eq_none_iff.2 (List.nodup_cons.1 hn).1
    rw [hnone, unseen_of_top hf]
    rfl
  · unfold unseen
    rw [hf, entryAt?, if_neg hx]

theorem seen_below (hw : w ∈ s.stack) : ∃ before, succ w = before ++ (entryAt? w below).getD [] ∧
    ∀ x ∈ before, x ∈ nodes →
      s.index.contains x ∧ (x ∈ s.stack → s.lowOf w ≤ s.indexOf x) := by
  rw [unseen_below h hf]
  exact h.linked.seen w hw

theorem Invariant.merge {caller : α} (hc : (below.map Prod.fst).head? = some caller)
    (hle : s.lowOf caller ≤ s.lowOf v) (hlt : s.lowOf v ≠ s.indexOf v) :
    Invariant nodes succ { s with frames := below } where
  placed := { h.placed with }
  linked := { h.linked with
    layered := by
      have hl := h.linked.layered
      obtain ⟨path, hpath⟩ := List.head?_eq_some_iff.1 hc
      rw [path_eq_cons hf, hpath] at hl
      show Layered s.lowOf (below.map Prod.fst) s.stack
      rw [hpath]
      exact hl.merge hle
    low_lt := by
      intro x hx hxp
      by_cases hxv : x = v
      · subst hxv
        exact lt_of_le_of_ne (h.linked.low_le x hx) hlt
      · refine h.linked.low_lt x hx ?_
        rw [path_eq_cons hf]
        exact List.not_mem_cons_of_ne_of_not_mem hxv hxp
    reaches := by
      intro u hu
      refine h.linked.reaches u ?_
      rw [path_eq_cons hf]
      exact List.mem_cons_of_mem _ hu
    seen := fun x hx => seen_below (s := s) h hf hx }
  emitted := h.emitted

end Leave

theorem popThrough_append (hv : v ∉ above) :
    popThrough v (above ++ v :: rest) = some (above ++ [v], rest) := by
  induction above with
  | nil => simp [popThrough]
  | cons w above ih =>
    have hne : w ≠ v := (List.ne_of_not_mem_cons hv).symm
    rw [List.cons_append, popThrough, if_neg hne, ih (List.not_mem_of_not_mem_cons hv)]
    rfl

section Close

variable (h : Invariant nodes succ s) (hf : s.frames = (v, []) :: below)
  (hs : s.stack = above ++ v :: rest)
include h hf hs

omit hf in
theorem notMem_above : v ∉ above := by
  have hn := h.placed.nodup_stack
  rw [hs] at hn
  exact fun hv => (List.nodup_append.1 hn).2.2 v hv v List.mem_cons_self rfl

omit hf in
theorem mem_layer_iff (hw : w ∈ s.stack) : w ∈ above ++ [v] ↔ s.indexOf v ≤ s.indexOf w := by
  have hd := h.placed.descending
  rw [hs] at hd hw
  obtain ⟨-, hr, ha⟩ := List.pairwise_append.1 hd
  have hr := (List.pairwise_cons.1 hr).1
  have hle : ∀ x ∈ above, s.indexOf v ≤ s.indexOf x := fun x hx =>
    (ha x hx v List.mem_cons_self).le
  constructor
  · intro hx
    rcases List.mem_append.1 hx with hx | hx
    · exact hle w hx
    · exact (List.mem_singleton.1 hx ▸ le_rfl)
  · intro hx
    rcases List.mem_append.1 hw with hw | hw
    · exact List.mem_append_left _ hw
    · rcases List.mem_cons.1 hw with rfl | hw
      · simp
      · have := hr w hw
        omega

omit h hf [DecidableEq α] in
theorem mem_stack_of_layer (hw : w ∈ above ++ [v]) : w ∈ s.stack := by
  rw [hs, List.append_cons]
  exact List.mem_append_left _ hw

theorem unseen_of_layer (hl : Layered s.lowOf (below.map Prod.fst) rest) (hw : w ∈ above ++ [v]) :
    s.unseen w = [] := by
  rcases List.mem_append.1 hw with hw | hw
  · refine unseen_of_notMem fun hp => ?_
    rw [path_eq_cons hf] at hp
    have hn := h.placed.nodup_stack
    rw [hs] at hn
    refine (List.nodup_append.1 hn).2.2 w hw w ?_ rfl
    exact (hl.sublist.cons_cons v).subset hp
  · rw [List.mem_singleton.1 hw]
    exact unseen_of_top hf

variable (hl : Layered s.lowOf (below.map Prod.fst) rest) (hb : ∀ w ∈ above, s.lowOf v ≤ s.lowOf w)
  (hlow : s.lowOf v = s.indexOf v)
include hl hb hlow

theorem layer_leads {x : α} (hw : w ∈ above ++ [v]) (hx : Leads nodes succ w x) :
    x ∈ above ++ [v] ∨ x ∈ s.components.flatten := by
  obtain ⟨before, he, hk⟩ := h.linked.seen w (mem_stack_of_layer hs hw)
  rw [unseen_of_layer h hf hs hl hw, List.append_nil] at he
  obtain ⟨hc, hle⟩ := hk x (he ▸ hx.1) hx.2
  refine ((h.placed.placed x).1 hc).imp_left fun hxs => ?_
  rw [mem_layer_iff h hs hxs]
  have hvw : s.lowOf v ≤ s.lowOf w := by
    rcases List.mem_append.1 hw with hw | hw
    · exact hb w hw
    · exact (congrArg s.lowOf (List.mem_singleton.1 hw)).ge
  have := hle hxs
  omega

theorem closed_layer : Closed nodes succ (s.components ++ [above ++ [v]]).flatten := by
  intro w hw x hx
  rw [List.flatten_concat, List.mem_append] at hw ⊢
  rcases hw with hw | hw
  · exact .inl (h.emitted.closed _ List.prefix_rfl w hw x hx)
  · exact (layer_leads h hf hs hl hb hlow hw hx).symm

omit hl hb hlow in
theorem joined_layer {x : α} (hw : w ∈ above ++ [v]) (hx : x ∈ above ++ [v]) :
    Reaches nodes succ w x := by
  have hxs := mem_stack_of_layer hs hx
  refine (reaches_top h hf (mem_stack_of_layer hs hw)).trans (reaches_of_top h hf hxs ?_)
  exact (mem_layer_iff h hs hxs).1 hx

end Close

omit [DecidableEq α] in
theorem Emitted.snoc {components : List (List α)} {c : List α} (h : Emitted nodes succ components)
    (hc : Closed nodes succ (components ++ [c]).flatten)
    (hj : ∀ v ∈ c, ∀ w ∈ c, Reaches nodes succ v w) (hn : c ≠ []) :
    Emitted nodes succ (components ++ [c]) where
  closed front hp := by
    rcases List.prefix_concat_iff.1 hp with rfl | hp
    · exact hc
    · exact h.closed front hp
  joined d hd := by
    rcases List.mem_append.1 hd with hd | hd
    · exact h.joined d hd
    · exact List.mem_singleton.1 hd ▸ hj
  nonempty hm := by
    rcases List.mem_append.1 hm with hm | hm
    · exact h.nonempty hm
    · exact hn (List.mem_singleton.1 hm).symm

def popped (s : Search α) (below : List (α × List α)) (layer rest : List α) : Search α :=
  { s with
    frames := below
    stack := rest
    onStack := s.onStack.filter (· ∉ layer)
    components := s.components ++ [layer] }

section Pop

variable (h : Invariant nodes succ s) (hf : s.frames = (v, []) :: below)
  (hs : s.stack = above ++ v :: rest)
include h hs

theorem placed_popped : Placed nodes (s.popped below (above ++ [v]) rest) := by
  have hperm : (s.stack ++ s.components.flatten).Perm
      (rest ++ (s.components ++ [above ++ [v]]).flatten) := by
    rw [hs, List.flatten_concat, List.append_cons, List.append_assoc]
    refine (List.perm_append_comm).trans ?_
    simp only [List.append_assoc]
    exact List.Perm.refl _
  have hmem : ∀ x, x ∈ s.stack ∨ x ∈ s.components.flatten ↔
      x ∈ rest ∨ x ∈ (s.components ++ [above ++ [v]]).flatten := by
    intro x
    rw [← List.mem_append, hperm.mem_iff, List.mem_append]
  exact
    { listed := h.placed.listed
      rooted := h.placed.rooted
      covered := h.placed.covered
      placed := fun x => (h.placed.placed x).trans (hmem x)
      linked := h.placed.linked
      bounded := h.placed.bounded
      nodup := hperm.nodup_iff.1 h.placed.nodup
      onStack := by
        intro x
        have hn := h.placed.nodup_stack
        rw [hs, List.append_cons, List.nodup_append] at hn
        simp only [popped, List.mem_filter, decide_eq_true_eq, h.placed.onStack x, hs,
          List.append_cons above v rest, List.mem_append (s := above ++ [v])]
        constructor
        · rintro ⟨hx | hx, hnx⟩
          · exact absurd hx hnx
          · exact hx
        · intro hx
          exact ⟨.inr hx, fun hx' => hn.2.2 x hx' x hx rfl⟩
      descending := by
        have hd := h.placed.descending
        rw [hs, List.append_cons] at hd
        exact hd.sublist (List.sublist_append_right _ _) }

include hf in
theorem linked_popped (hl : Layered s.lowOf (below.map Prod.fst) rest) :
    Linked nodes succ (s.popped below (above ++ [v]) rest) := by
  have hrest : ∀ w ∈ rest, w ∈ s.stack ∧ s.indexOf w < s.indexOf v := by
    intro w hw
    have hd := h.placed.descending
    rw [hs] at hd ⊢
    refine ⟨by simp [hw], ?_⟩
    exact (List.pairwise_cons.1 (List.pairwise_append.1 hd).2.1).1 w hw
  have hmem : ∀ w ∈ s.stack, s.indexOf w < s.indexOf v → w ∈ rest := by
    intro w hw hlt
    have hn := mt (mem_layer_iff h hs hw).1 (by omega)
    rw [hs, List.append_cons, List.mem_append] at hw
    exact hw.resolve_left hn
  exact
    { layered := hl
      low_le := fun w hw => h.linked.low_le w (hrest w hw).1
      low_lt := by
        intro w hw hwp
        refine h.linked.low_lt w (hrest w hw).1 ?_
        rw [path_eq_cons hf]
        refine List.not_mem_cons_of_ne_of_not_mem ?_ hwp
        rintro rfl
        exact absurd (hrest w hw).2 (lt_irrefl _)
      target := by
        intro w hw
        obtain ⟨x, hx, he, hwx⟩ := h.linked.target w (hrest w hw).1
        have hle := h.linked.low_le w (hrest w hw).1
        have hlt := (hrest w hw).2
        exact ⟨x, hmem x hx (by omega), he, hwx⟩
      reaches := by
        intro u hu w hw
        refine h.linked.reaches u ?_ w (hrest w hw).1
        rw [path_eq_cons hf]
        exact List.mem_cons_of_mem _ hu
      seen := by
        intro w hw
        obtain ⟨before, he, hb⟩ := seen_below h hf (hrest w hw).1
        exact ⟨before, he, fun x hx hxn =>
          ⟨(hb x hx hxn).1, fun hxr => (hb x hx hxn).2 (hrest x hxr).1⟩⟩ }

include hf in
theorem Invariant.popped (hl : Layered s.lowOf (below.map Prod.fst) rest)
    (hb : ∀ w ∈ above, s.lowOf v ≤ s.lowOf w) (hlow : s.lowOf v = s.indexOf v) :
    Invariant nodes succ (s.popped below (above ++ [v]) rest) where
  placed := placed_popped h hs
  linked := linked_popped h hf hs hl
  emitted := h.emitted.snoc (closed_layer h hf hs hl hb hlow)
    (fun _ hx _ hy => joined_layer h hf hs hx hy) (by simp)

theorem close_eq : close v { s with frames := below } =
    .ok (s.popped below (above ++ [v]) rest) := by
  have hp : popThrough v (above ++ v :: rest) = some (above ++ [v], rest) :=
    popThrough_append (notMem_above h hs)
  rw [← hs] at hp
  simp only [close, hp]
  rfl

end Pop

end DependencyRanking.Search
