import DependencyRanking.Proofs.Outcome
import DependencyRanking.Proofs.Search.Run

/-!
# What holds when a node is left

An index once given stays, and whatever is discovered later gets a higher one, so the indices of a
state are those of the whole search. When the frame of a node goes away, the nodes on the stack all
reach it. Its low link is the index of one of them that it reaches, so if that is lower than its own
index, its class of mutual reachability has an earlier node. If not, the nodes from it to the top of
the stack are that class.
-/
namespace DependencyRanking.Search

variable {α : Type} [DecidableEq α] {nodes : List α} {succ : α → List α} {s t u : Search α}
variable {v w : α} {above rest : List α} {below : List (α × List α)}

section Indices

theorem index_step (h : s.step nodes succ = .ok (some t)) : t.index = s.index ∨
    ∃ w, ¬ s.index.contains w ∧ t.index = s.index.insert w s.counter := by
  unfold step at h
  split at h
  · rename_i v w rest below hf
    obtain ⟨u, hu, he⟩ := Outcome.map_eq_ok.1 h
    cases he
    unfold visit at hu
    split at hu
    · split at hu
      · rename_i hi
        cases hu
        exact .inr ⟨w, by simpa [Table.contains] using hi, rfl⟩
      · split at hu
        · exact .inl (lower_eq_ok hu).2.2
        · cases hu
          exact .inl rfl
    · cases hu
      exact .inl rfl
  · obtain ⟨u, hu, he⟩ := Outcome.map_eq_ok.1 h
    cases he
    exact .inl (leave_eq_ok hu).2.2
  · split at h
    · cases h
    · rename_i root rest hr
      cases h
      split
      · exact .inl rfl
      · rename_i hc
        exact .inr ⟨root, hc, rfl⟩

/-- The indices of a state last, and those that are given later are higher. -/
structure Lasting (s t : Search α) : Prop where
  kept : ∀ v, s.index.contains v → t.index.contains v ∧ t.indexOf v = s.indexOf v
  later : ∀ v w, s.index.contains v → ¬ s.index.contains w → t.index.contains w →
    s.indexOf v < t.indexOf w

theorem Lasting.refl (s : Search α) : Lasting s s :=
  ⟨fun _ hv => ⟨hv, rfl⟩, fun _ _ _ hn hw => absurd hw hn⟩

theorem Lasting.trans (h : Lasting s t) (h' : Lasting t u) : Lasting s u where
  kept v hv := by
    obtain ⟨ht, hi⟩ := h.kept v hv
    exact ⟨(h'.kept v ht).1, (h'.kept v ht).2.trans hi⟩
  later v w hv hw hu := by
    by_cases ht : t.index.contains w
    · rw [(h'.kept w ht).2]
      exact h.later v w hv hw ht
    · rw [← (h.kept v hv).2]
      exact h'.later v w (h.kept v hv).1 ht hu

theorem lasting_step (h : Invariant nodes succ s) (ht : s.step nodes succ = .ok (some t)) :
    Lasting s t := by
  rcases index_step ht with he | ⟨x, hx, he⟩
  · refine ⟨fun v hv => ?_, fun v w _ hn hw => absurd (he ▸ hw) hn⟩
    unfold indexOf
    rw [he]
    exact ⟨hv, rfl⟩
  · have hindex : ∀ v, t.indexOf v = if v = x then s.counter else s.indexOf v := fun v => by
      unfold indexOf
      rw [he, Table.getD_insert]
    have hcontains : ∀ v, t.index.contains v ↔ v = x ∨ s.index.contains v := fun v => by
      rw [he, Table.contains_insert, Bool.or_eq_true, decide_eq_true_eq]
    refine ⟨fun v hv => ⟨(hcontains v).2 (.inr hv), ?_⟩, fun v w hv hn hw => ?_⟩
    · rw [hindex, if_neg fun heq : v = x => hx (heq ▸ hv)]
    · rw [hindex, if_pos (((hcontains w).1 hw).resolve_right hn)]
      exact h.placed.bounded v hv

theorem run_of_step (ht : s.step nodes succ = .ok (some t)) :
    s.run nodes succ = t.run nodes succ := by
  rw [run]
  split
  · rename_i he
    rw [ht] at he
    cases he
  · rename_i he
    rw [ht] at he
    cases he
  · rename_i u he
    rw [ht] at he
    cases he
    rfl

theorem Visited.run_eq (h : Visited nodes succ s) :
    s.run nodes succ = (Search.start nodes).run nodes succ := by
  induction h with
  | start => rfl
  | next _ hs ih => rw [← ih, run_of_step hs]

theorem Visited.lasting (h : Visited nodes succ s) (ht : s.run nodes succ = .ok t) :
    Lasting s t := by
  fun_induction Search.run nodes succ s with
  | case1 s e he => cases ht
  | case2 s hn =>
    cases ht
    exact .refl _
  | case3 s u hu ih => exact (lasting_step h.invariant hu).trans (ih (.next h hu) ht)

end Indices

section Stacks

/-- What the stacks agree on: the set holds what is on the stack, indices grow towards the top, and
the nodes of the path stand on the stack in their order. -/
structure Stacked (s : Search α) : Prop where
  onStack : ∀ v, v ∈ s.onStack ↔ v ∈ s.stack
  indexed : ∀ v ∈ s.stack, s.index.contains v
  ascending : (s.stack.reverse.map s.indexOf).Pairwise (· < ·)
  inOrder : s.path.Sublist s.stack

theorem Invariant.stacked (h : Invariant nodes succ s) : Stacked s where
  onStack := h.placed.onStack
  indexed _ := h.placed.contains_of_mem
  ascending := by
    rw [List.map_reverse, List.pairwise_reverse, List.pairwise_map]
    exact h.placed.descending
  inOrder := h.linked.layered.sublist

def popping (s : Search α) (below : List (α × List α)) (n : Nat) : Search α :=
  { s with
    frames := below
    stack := s.stack.drop n
    onStack := s.onStack.filter (· ∉ s.stack.take n) }

theorem Stacked.nodup (h : Stacked s) : s.stack.Nodup := by
  have hindices : (s.stack.reverse.map s.indexOf).Nodup := h.ascending.imp fun hlt => hlt.ne
  exact List.nodup_reverse.1 hindices.of_map

theorem Stacked.popping (h : Stacked s) (hs : s.stack = above ++ v :: rest)
    (hrest : (below.map Prod.fst).Sublist rest) {n : Nat} (hn : n ≤ above.length + 1) :
    Stacked (s.popping below n) where
  onStack w := by
    have hnodup := h.nodup
    rw [← List.take_append_drop n s.stack, List.nodup_append] at hnodup
    change w ∈ s.onStack.filter (· ∉ s.stack.take n) ↔ w ∈ s.stack.drop n
    rw [List.mem_filter, decide_eq_true_eq, h.onStack]
    constructor
    · rintro ⟨hw, htaken⟩
      rw [← List.take_append_drop n s.stack, List.mem_append] at hw
      exact hw.resolve_left htaken
    · exact fun hw => ⟨List.mem_of_mem_drop hw, fun htaken => hnodup.2.2 w htaken w hw rfl⟩
  indexed w hw := h.indexed w (List.mem_of_mem_drop hw)
  ascending := by
    have ha := h.ascending
    rw [List.map_reverse, List.pairwise_reverse, List.pairwise_map] at ha ⊢
    exact ha.sublist (List.drop_sublist n s.stack)
  inOrder := by
    have hdrop : s.stack.drop n = (above ++ [v]).drop n ++ rest := by
      rw [hs, List.append_cons, List.drop_append_of_le_length (by simpa using hn)]
    change (below.map Prod.fst).Sublist (s.stack.drop n)
    rw [hdrop]
    exact hrest.trans (List.sublist_append_right _ _)

end Stacks

section Closing

variable (h : Invariant nodes succ s) (hf : s.frames = (v, []) :: below)
  (hs : s.stack = above ++ v :: rest)
include h hf hs

theorem mem_layer_iff_mutual (hl : Layered s.lowOf (below.map Prod.fst) rest)
    (hb : ∀ w ∈ above, s.lowOf v ≤ s.lowOf w) (hlow : s.lowOf v = s.indexOf v) :
    w ∈ above ++ [v] ↔ Mutual nodes succ v w := by
  have hv : v ∈ above ++ [v] := by simp
  constructor
  · intro hw
    exact ⟨joined_layer h hf hs hv hw, joined_layer h hf hs hw hv⟩
  · rintro ⟨hvw, hwv⟩
    have hclosed := closed_layer h hf hs hl hb hlow
    rw [List.flatten_concat] at hclosed
    have hw := hclosed.mem_of_reaches hvw (List.mem_append_right _ hv)
    refine (List.mem_append.1 hw).resolve_left fun hw => ?_
    -- an earlier component would contain the node that is only now left
    have hvc := (h.emitted.closed _ List.prefix_rfl).mem_of_reaches hwv hw
    exact (List.nodup_append.1 h.placed.nodup).2.2 v (mem_stack_of_top h hf) v hvc rfl

omit hs in
theorem exists_earlier (hlow : s.lowOf v ≠ s.indexOf v) :
    ∃ w ∈ s.stack, Mutual nodes succ v w ∧ s.indexOf w < s.indexOf v := by
  have hv := mem_stack_of_top h hf
  obtain ⟨w, hw, he, hvw⟩ := h.linked.target v hv
  have hle := h.linked.low_le v hv
  exact ⟨w, hw, ⟨hvw, reaches_top h hf hw⟩, by omega⟩

end Closing

/-- Throughout a search the stacks agree, also while a component is popped. When a node is left, its
low link is its own index just if its class of mutual reachability has no node of a lower index, and
then that class is what stands on the stack from the node upwards. -/
theorem run_closes (nodes : List α) (succ : α → List α) :
    ∃ e, run nodes succ (start nodes) = .ok e ∧ (∀ v, e.index.contains v ↔ v ∈ nodes) ∧
      ∀ s, Visited nodes succ s → Stacked s ∧
        ∀ v below, s.frames = (v, []) :: below → ∃ low index above rest,
          s.lowlink.get? v = some low ∧ s.index.get? v = some index ∧
          e.index.get? v = some index ∧ s.stack = above ++ v :: rest ∧
          (low = index ↔ ∀ w, Mutual nodes succ v w → index ≤ e.indexOf w) ∧
          (low = index → ∀ w, w ∈ above ++ [v] ↔ Mutual nodes succ v w) ∧
          ∀ n ≤ above.length + 1, Stacked (s.popping below n) := by
  obtain ⟨e, hrun, hend, hframes, hroots⟩ := (Visited.start : Visited nodes succ (start nodes)).run
  have hlisted : ∀ v, e.index.contains v ↔ v ∈ nodes := fun v =>
    ⟨hend.invariant.placed.listed v, fun hv =>
      (hend.invariant.placed.covered v hv).resolve_right (by simp [hroots])⟩
  refine ⟨e, hrun, hlisted, fun s hvis => ⟨hvis.invariant.stacked, fun v below hf => ?_⟩⟩
  have h := hvis.invariant
  have hlast : Lasting s e := hvis.lasting (hvis.run_eq.trans hrun)
  have hv := mem_stack_of_top h hf
  have hi := h.placed.contains_of_mem hv
  have hlink : s.lowlink.contains v := by rw [h.placed.linked v, hi]
  obtain ⟨he, hie⟩ := hlast.kept v hi
  have hl := h.linked.layered
  rw [path_eq_cons hf] at hl
  obtain ⟨above, rest, hs, hrest, hb⟩ := hl.split
  have hlayer : s.lowOf v = s.indexOf v → ∀ w, w ∈ above ++ [v] ↔ Mutual nodes succ v w :=
    fun hlow w => mem_layer_iff_mutual h hf hs hrest hb hlow
  refine ⟨s.lowOf v, s.indexOf v, above, rest, get?_of_contains hlink, get?_of_contains hi,
    (get?_of_contains he).trans (congrArg some hie), hs, ⟨fun hlow w hw => ?_, fun hall => ?_⟩,
    hlayer, fun n hn => h.stacked.popping hs hrest.sublist hn⟩
  · by_cases hc : s.index.contains w
    · have hmem := (hlayer hlow w).2 hw
      rw [(hlast.kept w hc).2]
      exact (mem_layer_iff h hs (mem_stack_of_layer hs hmem)).1 hmem
    · -- what is discovered only later has a higher index anyway
      have hwe := (hlisted w).2 (hw.1.listed (h.placed.listed v hi))
      exact (hlast.later v w hi hc hwe).le
  · by_contra hlow
    obtain ⟨w, hw, hmutual, hlt⟩ := exists_earlier h hf hlow
    have hle := hall w hmutual
    rw [(hlast.kept w (h.placed.contains_of_mem hw)).2] at hle
    omega

end DependencyRanking.Search
