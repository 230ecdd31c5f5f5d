import DependencyRanking.Proofs.Search.Leave

/-!
# A whole search

Every step from a state that keeps the invariant succeeds and keeps it, so the search never meets a
missing entry or an empty stack. `Visited` collects the states of a search; the last of them has
neither roots nor frames left.
-/
namespace DependencyRanking.Search

variable {α : Type} [DecidableEq α] {nodes : List α} {succ : α → List α} {s t : Search α}
variable {v w : α} {rest : List α} {below : List (α × List α)}

theorem get?_of_contains {t : Table α Nat} (h : t.contains v) : t.get? v = some (t.getD v 0) := by
  obtain ⟨n, hn⟩ := Option.isSome_iff_exists.1 h
  simp [Table.getD, hn]

theorem Invariant.advance_top (h : Invariant nodes succ s) (hf : s.frames = (v, w :: rest) :: below)
    (hw : w ∈ nodes → s.index.contains w ∧ (w ∈ s.stack → s.lowOf v ≤ s.indexOf w)) :
    Invariant nodes succ { s with frames := (v, rest) :: below } := by
  refine h.advance _ _ (by rw [path_eq_cons hf]; rfl) (unseen_of_top hf) (fun x => ?_) hw
  unfold unseen
  rw [hf]
  by_cases hx : v = x
  · simp [entryAt?, hx]
  · simp [entryAt?, hx, Ne.symm hx]

theorem Invariant.descend (h : Invariant nodes succ s) (hf : s.frames = (v, w :: rest) :: below)
    (hw : w ∈ nodes) (hn : ¬ s.index.contains w) :
    Invariant nodes succ ({ s with frames := (v, rest) :: below }.discover succ w) := by
  have hv := mem_stack_of_top h hf
  obtain ⟨before, he, -⟩ := h.linked.seen v hv
  rw [unseen_of_top hf] at he
  have hvw : Leads nodes succ v w := ⟨by simp [he], hw⟩
  have hd := h.discover hw hn fun u hu =>
    (h.linked.reaches u hu v hv (index_le_top h hf hu)).trans hvw.reaches
  have hne : v ≠ w := h.placed.ne_of_mem hv hn
  refine hd.advance ((w, succ w) :: (v, rest) :: below) rest (v := v) (w := w) ?_ ?_
    (fun x => ?_) fun _ => ?_
  · show w :: v :: below.map Prod.fst = w :: s.path
    rw [path_eq_cons hf]
  · rw [unseen_discover, if_neg hne, unseen_of_top hf]
  · rw [unseen_discover]
    unfold unseen
    rw [hf]
    by_cases hxw : w = x
    · subst hxw
      simp [entryAt?, Ne.symm hne]
    · by_cases hxv : v = x
      · subst hxv
        simp [entryAt?, hxw]
      · simp [entryAt?, hxw, hxv, Ne.symm hxv, Ne.symm hxw]
  · refine ⟨by simp [contains_discover], fun _ => ?_⟩
    rw [lowOf_discover, indexOf_discover, if_neg hne, if_pos rfl]
    have hle := h.linked.low_le v hv
    have hlt := h.placed.bounded v (h.placed.contains_of_mem hv)
    omega

theorem visit_ok (h : Invariant nodes succ s) (hf : s.frames = (v, w :: rest) :: below) :
    ∃ t, visit nodes succ v w { s with frames := (v, rest) :: below } = .ok t ∧
      Invariant nodes succ t := by
  unfold visit
  by_cases hw : w ∈ nodes
  · rw [if_pos hw]
    by_cases hc : s.index.contains w
    · simp only [get?_of_contains hc]
      by_cases ho : w ∈ s.onStack
      · rw [if_pos ho]
        have hws := (h.placed.onStack w).1 ho
        have hvs := mem_stack_of_top h hf
        have hvp : v ∈ s.path := by
          rw [path_eq_cons hf]
          exact List.mem_cons_self
        have hlink : s.lowlink.contains v := by
          rw [h.placed.linked v]
          exact h.placed.contains_of_mem hvs
        obtain ⟨before, he, -⟩ := h.linked.seen v hvs
        rw [unseen_of_top hf] at he
        have hvw : Leads nodes succ v w := ⟨by simp [he], hw⟩
        have hl : Invariant nodes succ (s.lowered v (s.indexOf w)) :=
          h.lowered hvp ⟨w, hws, rfl, hvw.reaches⟩
        refine ⟨_, lower_eq _ hlink, hl.advance_top hf fun _ => ⟨hc, fun _ => ?_⟩⟩
        rw [lowOf_lowered, if_pos rfl]
        exact Nat.min_le_right _ _
      · rw [if_neg ho]
        refine ⟨_, rfl, h.advance_top hf fun _ => ⟨hc, fun hs => ?_⟩⟩
        exact absurd ((h.placed.onStack w).2 hs) ho
    · have hnone : s.index.get? w = none := Option.not_isSome_iff_eq_none.1 hc
      simp only [hnone]
      exact ⟨_, rfl, h.descend hf hw hc⟩
  · rw [if_neg hw]
    exact ⟨_, rfl, h.advance_top hf fun hw' => absurd hw' hw⟩

theorem low_of_last (h : Invariant nodes succ s) (hf : s.frames = [(v, [])]) :
    s.lowOf v = s.indexOf v := by
  -- the last open node is the first on the stack, so it links to nothing before it
  have hv := mem_stack_of_top h hf
  obtain ⟨w, hw, he, -⟩ := h.linked.target v hv
  obtain ⟨u, hu, hle⟩ := h.linked.layered.exists_base h.placed.descending hw
  rw [path_eq_cons hf] at hu
  obtain rfl := List.mem_singleton.1 hu
  have := h.linked.low_le u hv
  omega

theorem leave_top (h : Invariant nodes succ s) (hf : s.frames = (v, []) :: below)
    (hc : ∀ caller, (below.map Prod.fst).head? = some caller → s.lowOf caller ≤ s.lowOf v) :
    ∃ t, (if s.lowOf v = s.indexOf v then close v { s with frames := below }
      else .ok { s with frames := below }) = .ok t ∧ Invariant nodes succ t := by
  by_cases hlow : s.lowOf v = s.indexOf v
  · rw [if_pos hlow]
    have hl := h.linked.layered
    rw [path_eq_cons hf] at hl
    obtain ⟨above, rest, hs, hrest, hb⟩ := hl.split
    exact ⟨_, close_eq h hs, h.popped hf hs hrest hb hlow⟩
  · rw [if_neg hlow]
    rcases below with _ | ⟨⟨caller, ws⟩, below⟩
    · exact absurd (low_of_last h hf) hlow
    · exact ⟨_, rfl, h.merge hf rfl (hc caller rfl) hlow⟩

theorem leave_ok (h : Invariant nodes succ s) (hf : s.frames = (v, []) :: below) :
    ∃ t, leave v { s with frames := below } = .ok t ∧ Invariant nodes succ t := by
  have hv := mem_stack_of_top h hf
  have hi := h.placed.contains_of_mem hv
  have hl : s.lowlink.contains v := by rw [h.placed.linked v, hi]
  unfold leave
  simp only [get?_of_contains hi, get?_of_contains hl]
  rcases below with _ | ⟨⟨caller, ws⟩, below⟩
  · exact leave_top h hf fun caller hc => absurd hc (by simp)
  · have hcp : caller ∈ s.path := by
      rw [path_eq_cons hf]
      simp
    have hcs := h.linked.layered.sublist.subset hcp
    have hne : v ≠ caller := by
      have hn := nodup_path h
      rw [path_eq_cons hf] at hn
      rintro rfl
      exact (List.nodup_cons.1 hn).1 (by simp)
    have hlink : s.lowlink.contains caller := by
      rw [h.placed.linked caller]
      exact h.placed.contains_of_mem hcs
    obtain ⟨w, hw, he, hvw⟩ := h.linked.target v hv
    have hcv : Reaches nodes succ caller v :=
      h.linked.reaches caller hcp v hv (index_le_top h hf hcp)
    have hlow : Invariant nodes succ (s.lowered caller (s.lowOf v)) :=
      h.lowered hcp ⟨w, hw, he, hcv.trans hvw⟩
    have hlv : (s.lowered caller (s.lowOf v)).lowOf v = s.lowOf v := by
      rw [lowOf_lowered, if_neg hne]
    have hleave := leave_top hlow hf fun c hc => by
      obtain rfl : caller = c := by simpa using hc
      rw [hlv, lowOf_lowered, if_pos rfl]
      exact Nat.min_le_right _ _
    rw [hlv] at hleave
    have hlower := lower_eq (s := { s with frames := (caller, ws) :: below }) (s.lowOf v) hlink
    change ∃ t, (lower caller (s.lowOf v) { s with frames := (caller, ws) :: below } >>= fun s' =>
      if s.lowOf v = s.indexOf v then close v s' else .ok s') = .ok t ∧ Invariant nodes succ t
    rw [hlower]
    exact hleave

theorem Invariant.step (h : Invariant nodes succ s) :
    (s.frames = [] ∧ s.roots = [] ∧ s.step nodes succ = .ok none) ∨
      ∃ t, s.step nodes succ = .ok (some t) ∧ Invariant nodes succ t := by
  unfold Search.step
  rcases hf : s.frames with _ | ⟨⟨v, _ | ⟨w, rest⟩⟩, below⟩
  · rcases hr : s.roots with _ | ⟨root, rest⟩
    · exact .inl ⟨rfl, rfl, rfl⟩
    · refine .inr ⟨_, rfl, ?_⟩
      by_cases hc : s.index.contains root
      · rw [if_pos hc, ← hf]
        exact h.skipRoot hr hc
      · rw [if_neg hc, ← hf]
        have hroot : root ∈ nodes := h.placed.rooted root (by simp [hr])
        have hd := h.discover hroot hc fun u hu => by simp [path, hf] at hu
        exact hd.skipRoot hr (by simp [contains_discover])
  · obtain ⟨t, ht, hi⟩ := leave_ok h hf
    exact .inr ⟨t, by simp only [ht]; rfl, hi⟩
  · obtain ⟨t, ht, hi⟩ := visit_ok h hf
    exact .inr ⟨t, by simp only [ht]; rfl, hi⟩

theorem Invariant.start (nodes : List α) (succ : α → List α) :
    Invariant nodes succ (start nodes) where
  placed :=
    { listed := fun v hv => absurd hv (by simp [Search.start, Table.contains])
      rooted := fun v hv => hv
      covered := fun v hv => .inr hv
      placed := fun v => by simp [Search.start, Table.contains]
      linked := fun v => rfl
      bounded := fun v hv => absurd hv (by simp [Search.start, Table.contains])
      nodup := List.nodup_nil
      onStack := fun v => Iff.rfl
      descending := List.Pairwise.nil }
  linked :=
    { layered := .nil
      low_le := fun v hv => absurd hv List.not_mem_nil
      low_lt := fun v hv => absurd hv List.not_mem_nil
      target := fun v hv => absurd hv List.not_mem_nil
      reaches := fun v hv => absurd hv List.not_mem_nil
      seen := fun v hv => absurd hv List.not_mem_nil }
  emitted :=
    { closed := fun front hf => by
        rw [List.prefix_nil.1 hf]
        exact Closed.nil
      joined := fun c hc => absurd hc List.not_mem_nil
      nonempty := List.not_mem_nil }

theorem Invariant.stack_eq_nil (h : Invariant nodes succ s) (hf : s.frames = []) : s.stack = [] := by
  have hl := h.linked.layered
  unfold path at hl
  rw [hf] at hl
  exact hl.eq_nil

/-- The states of the search that starts from the listed nodes. -/
inductive Visited (nodes : List α) (succ : α → List α) : Search α → Prop
  | start : Visited nodes succ (start nodes)
  | next {s t : Search α} (before : Visited nodes succ s) (h : s.step nodes succ = .ok (some t)) :
      Visited nodes succ t

theorem Visited.invariant (h : Visited nodes succ s) : Invariant nodes succ s := by
  induction h with
  | start => exact .start nodes succ
  | next before hs ih =>
    rcases ih.step with ⟨-, -, hn⟩ | ⟨u, hu, hi⟩
    · rw [hn] at hs
      cases hs
    · rw [hu] at hs
      cases hs
      exact hi

theorem Visited.run (h : Visited nodes succ s) :
    ∃ t, s.run nodes succ = .ok t ∧ Visited nodes succ t ∧ t.frames = [] ∧ t.roots = [] := by
  fun_induction Search.run nodes succ s with
  | case1 s e he =>
    rcases h.invariant.step with ⟨-, -, hn⟩ | ⟨t, ht, -⟩
    · rw [hn] at he
      cases he
    · rw [ht] at he
      cases he
  | case2 s hn =>
    rcases h.invariant.step with ⟨hf, hr, -⟩ | ⟨t, ht, -⟩
    · exact ⟨s, rfl, h, hf, hr⟩
    · rw [hn] at ht
      cases ht
  | case3 s t ht ih => exact ih (.next h ht)

end DependencyRanking.Search
