import DependencyRanking.Number.Exact
import DependencyRanking.Proofs.Centrality.Passes
import DependencyRanking.Proofs.Graph.Build

/-!
# Conservation of mass

Without rounding a pass neither makes nor loses score. What follows the dependencies is counted
twice, once over the dependents of every module and once over the dependencies of every module,
and the two directions of a graph agree; what the modules without dependencies hold is spread by
the teleport weights, which add up to the number of modules.
-/
namespace DependencyRanking.PageRank

section Exact

variable {g : ModuleGraph} {d : ℚ} {weights scores : Scores ℚ} {m : ModuleId}

theorem foldl_add_eq (f : ModuleId → ℚ) (ms : List ModuleId) (x : ℚ) :
    ms.foldl (fun score s => score + f s) x = x + (ms.map f).sum := by
  induction ms generalizing x with
  | nil => simp
  | cons s rest ih =>
    rw [List.foldl_cons, ih, List.map_cons, List.sum_cons, add_assoc]

theorem total_eq_sum (xs : List ℚ) : total xs = xs.sum := by
  unfold total
  exact (List.sum_eq_foldl).symm

theorem map_snd_sum {nodes : List ModuleId} (hk : scores.map Prod.fst = nodes) (hn : nodes.Nodup) :
    (scores.map Prod.snd).sum = ∑ m ∈ nodes.toFinset, Scores.of scores m := by
  rw [map_snd_eq hk hn, List.sum_toFinset _ hn]

theorem sum_map_incoming (h : g.Mirrored) (f : ModuleId → ℚ) (m : ModuleId) :
    ((g.incoming m).map f).sum = ∑ s ∈ (g.incoming m).toFinset, f s :=
  (List.sum_toFinset f ((h.ascending m).imp fun hlt => hlt.ne)).symm

theorem sum_incoming (h : g.Mirrored) (f : ModuleId → ℚ) :
    ∑ m ∈ g.nodes.toFinset, ((g.incoming m).map f).sum =
      ∑ s ∈ g.nodes.toFinset, (g.outDegree s : ℚ) * f s := by
  have hout : ∀ s, ∑ _m ∈ (g.outgoing s).toFinset, f s = (g.outDegree s : ℚ) * f s := by
    intro s
    rw [Finset.sum_const, List.toFinset_card_of_nodup (h.nodup_outgoing s), nsmul_eq_mul]
    rfl
  calc ∑ m ∈ g.nodes.toFinset, ((g.incoming m).map f).sum
      = ∑ m ∈ g.nodes.toFinset, ∑ s ∈ (g.incoming m).toFinset, f s :=
        Finset.sum_congr rfl fun m _ => sum_map_incoming h f m
    _ = ∑ s ∈ g.nodes.toFinset, ∑ _m ∈ (g.outgoing s).toFinset, f s := by
        refine Finset.sum_comm' fun m s => ?_
        simp only [List.mem_toFinset, h.mem_incoming]
        constructor
        · rintro ⟨-, hs⟩
          exact ⟨hs, h.source_mem s m hs⟩
        · rintro ⟨hm, -⟩
          exact ⟨h.target_mem s m hm, hm⟩
    _ = ∑ s ∈ g.nodes.toFinset, (g.outDegree s : ℚ) * f s :=
        Finset.sum_congr rfl fun s _ => hout s

theorem nextScore_eq (g : ModuleGraph) (d : ℚ) (scores : Scores ℚ) (held : ℚ) (m : ModuleId)
    (t : ℚ) : nextScore g (.of d) scores held m t = (1 - d) * t + d * held * t / g.nodeCount +
      ((g.incoming m).map fun s => d * Scores.of scores s / g.outDegree s).sum :=
  foldl_add_eq _ _ _

theorem of_pass (hk : weights.map Prod.fst = g.nodes) (hm : m ∈ g.nodes) :
    Scores.of (pass g (.of d) weights scores) m =
      nextScore g (.of d) scores (danglingScore g scores) m (Scores.of weights m) := by
  rw [← hk] at hm
  obtain ⟨w, hw, rfl⟩ := List.mem_map.1 hm
  have hn := g.nodup_nodes
  rw [← hk] at hn
  have he : (w.1, nextScore g (.of d) scores (danglingScore g scores) w.1 w.2) ∈
      pass g (.of d) weights scores := List.mem_map.2 ⟨w, hw, rfl⟩
  rw [of_eq_of_mem hn hw]
  refine of_eq_of_mem ?_ he
  rw [map_fst_pass]
  exact hn

theorem danglingScore_eq (g : ModuleGraph) (scores : Scores ℚ) : danglingScore g scores =
    ∑ m ∈ g.nodes.toFinset, if g.outDegree m = 0 then Scores.of scores m else 0 := by
  unfold danglingScore dangling
  have hn : (g.nodes.filter fun m => g.outDegree m = 0).Nodup := g.nodup_nodes.filter _
  rw [total_eq_sum, ← List.sum_toFinset _ hn, List.toFinset_filter, Finset.sum_filter]
  simp

theorem sum_pass (h : g.Mirrored) (hn : g.nodes ≠ []) (hk : weights.map Prod.fst = g.nodes)
    (hw : (weights.map Prod.snd).sum = g.nodeCount) (hs : scores.map Prod.fst = g.nodes) :
    ((pass g (.of d) weights scores).map Prod.snd).sum =
      (1 - d) * g.nodeCount + d * (scores.map Prod.snd).sum := by
  have hN : (g.nodeCount : ℚ) ≠ 0 := Nat.cast_ne_zero.2 (g.nodeCount_ne_zero_iff.2 hn)
  have hshare : ∀ s, (g.outDegree s : ℚ) * (d * Scores.of scores s / g.outDegree s) =
      d * (Scores.of scores s - if g.outDegree s = 0 then Scores.of scores s else 0) := by
    intro s
    by_cases h0 : g.outDegree s = 0
    · simp [h0]
    · have h0' : (g.outDegree s : ℚ) ≠ 0 := Nat.cast_ne_zero.2 h0
      rw [if_neg h0]
      field_simp
      ring
  rw [map_snd_sum hk g.nodup_nodes] at hw
  rw [map_snd_sum ((map_fst_pass g _ weights scores).trans hk) g.nodup_nodes,
    map_snd_sum hs g.nodup_nodes]
  rw [Finset.sum_congr rfl fun m hm => of_pass hk (List.mem_toFinset.1 hm)]
  simp only [nextScore_eq, Finset.sum_add_distrib, sum_incoming h, hshare]
  rw [← Finset.mul_sum, ← Finset.sum_div, ← Finset.mul_sum, hw, ← Finset.mul_sum,
    Finset.sum_sub_distrib, ← danglingScore_eq]
  field_simp
  ring

theorem sum_uniform (nodes : List ModuleId) :
    ((uniform nodes : Scores ℚ).map Prod.snd).sum = nodes.length := by
  unfold uniform
  rw [List.map_map]
  change (nodes.map fun _ => (1 : ℚ)).sum = _
  rw [List.map_const', List.sum_replicate, nsmul_eq_mul, mul_one]

theorem nonneg_of_mem_uniform {nodes : List ModuleId} {w : ModuleId × ℚ}
    (hw : w ∈ (uniform nodes : Scores ℚ)) : 0 ≤ w.2 := by
  obtain ⟨m, -, rfl⟩ := List.mem_map.1 hw
  exact zero_le_one

def positivePart (bias : ModuleId → ℚ) (m : ModuleId) : ℚ := if 0 < bias m then bias m else 0

theorem positivePart_nonneg (bias : ModuleId → ℚ) (m : ModuleId) : 0 ≤ positivePart bias m := by
  unfold positivePart
  split
  · rename_i h
    exact h.le
  · exact le_rfl

theorem teleport_eq (nodes : List ModuleId) (bias : ModuleId → ℚ) : teleport nodes bias =
    if 0 < (nodes.map (positivePart bias)).sum then
      nodes.map fun m =>
        (m, positivePart bias m * nodes.length / (nodes.map (positivePart bias)).sum)
    else uniform nodes := by
  unfold teleport
  simp only [total_eq_sum, List.map_map]
  rfl

theorem nonneg_of_mem_teleport {nodes : List ModuleId} {bias : ModuleId → ℚ} {w : ModuleId × ℚ}
    (hw : w ∈ teleport nodes bias) : 0 ≤ w.2 := by
  rw [teleport_eq] at hw
  split at hw
  · rename_i hpos
    obtain ⟨m, -, rfl⟩ := List.mem_map.1 hw
    have hm := positivePart_nonneg bias m
    positivity
  · exact nonneg_of_mem_uniform hw

theorem sum_teleport (nodes : List ModuleId) (bias : ModuleId → ℚ) :
    ((teleport nodes bias).map Prod.snd).sum = nodes.length := by
  rw [teleport_eq]
  split
  · rename_i hpos
    have hdiv : ∀ (ms : List ModuleId) (n x : ℚ),
        (ms.map fun m => positivePart bias m * n / x).sum =
          (ms.map (positivePart bias)).sum * n / x := by
      intro ms n x
      induction ms with
      | nil => simp
      | cons m rest ih =>
        simp only [List.map_cons, List.sum_cons, ih]
        ring
    rw [List.map_map]
    refine (hdiv nodes nodes.length _).trans ?_
    field_simp
  · exact sum_uniform nodes

theorem nonneg_of_mem_weightsOf {nodes : List ModuleId} {bias : Option (ModuleId → ℚ)}
    {w : ModuleId × ℚ} (hw : w ∈ weightsOf nodes bias) : 0 ≤ w.2 := by
  cases bias with
  | none => exact nonneg_of_mem_uniform hw
  | some bias => exact nonneg_of_mem_teleport hw

theorem sum_weightsOf (nodes : List ModuleId) (bias : Option (ModuleId → ℚ)) :
    ((weightsOf nodes bias).map Prod.snd).sum = nodes.length := by
  cases bias with
  | none => exact sum_uniform nodes
  | some bias => exact sum_teleport nodes bias

theorem sum_weightsOf_eq_nodeCount (g : ModuleGraph) (bias : Option (ModuleId → ℚ)) :
    ((weightsOf g.nodes bias).map Prod.snd).sum = g.nodeCount := by
  rw [← ModuleGraph.length_nodes]
  exact sum_weightsOf g.nodes bias

theorem of_nonneg (h : ∀ s ∈ scores, 0 ≤ s.2) (m : ModuleId) : 0 ≤ Scores.of scores m := by
  unfold Scores.of
  cases he : entryAt? m scores with
  | none => exact le_rfl
  | some x =>
    induction scores with
    | nil => cases he
    | cons s rest ih =>
      obtain ⟨j, y⟩ := s
      rw [entryAt?] at he
      split at he
      · cases he
        exact h _ List.mem_cons_self
      · exact ih (fun s hs => h s (List.mem_cons_of_mem _ hs)) he

theorem floor_le_nextScore (hd : 0 ≤ d) (hs : ∀ s ∈ scores, 0 ≤ s.2) {t : ℚ} (ht : 0 ≤ t) :
    (1 - d) * t ≤ nextScore g (.of d) scores (danglingScore g scores) m t := by
  have hheld : 0 ≤ danglingScore g scores := by
    rw [danglingScore_eq]
    refine Finset.sum_nonneg fun s _ => ?_
    split
    · exact of_nonneg hs s
    · exact le_rfl
  have hin : 0 ≤ ((g.incoming m).map fun s => d * Scores.of scores s / g.outDegree s).sum := by
    refine List.sum_nonneg fun x hx => ?_
    obtain ⟨s, -, rfl⟩ := List.mem_map.1 hx
    have := of_nonneg hs s
    positivity
  have hspread : 0 ≤ d * danglingScore g scores * t / g.nodeCount := by positivity
  rw [nextScore_eq]
  linarith

theorem nonneg_of_mem_scoresAfter (hd₀ : 0 ≤ d) (hd₁ : d ≤ 1) (hw : ∀ w ∈ weights, 0 ≤ w.2)
    (k : Nat) : ∀ s ∈ scoresAfter g (.of d) weights k, 0 ≤ s.2 := by
  induction k with
  | zero => exact fun s hs => nonneg_of_mem_uniform hs
  | succ k ih =>
    intro s hs
    obtain ⟨w, hw', rfl⟩ := List.mem_map.1 hs
    have hfloor := floor_le_nextScore (g := g) (m := w.1) hd₀ ih (hw w hw')
    have hspread : 0 ≤ (1 - d) * w.2 := mul_nonneg (by linarith) (hw w hw')
    exact hspread.trans hfloor

theorem sum_scoresAfter (h : g.Mirrored) (hn : g.nodes ≠ []) (hk : weights.map Prod.fst = g.nodes)
    (hw : (weights.map Prod.snd).sum = g.nodeCount) (k : Nat) :
    ((scoresAfter g (.of d) weights k).map Prod.snd).sum = g.nodeCount := by
  induction k with
  | zero =>
    rw [← ModuleGraph.length_nodes]
    exact sum_uniform g.nodes
  | succ k ih =>
    rw [scoresAfter, sum_pass h hn hk hw (map_fst_scoresAfter _ k hk), ih]
    ring

/-- PageRank without rounding: the teleport weights and the scores after any number of passes add
up to the number of modules, and a pass leaves every module at least its share by weight. -/
theorem mass_conserved {edges isolated : Value} (hg : ModuleGraph.read? edges isolated = .ok g)
    (hn : g.nodes ≠ []) (hd₀ : 0 ≤ d) (hd₁ : d ≤ 1) (bias : Option (ModuleId → ℚ)) :
    let weights := weightsOf g.nodes bias
    (weights.map Prod.fst = g.nodes ∧ (∀ w ∈ weights, 0 ≤ w.2) ∧
      (weights.map Prod.snd).sum = g.nodeCount) ∧
    (∀ k, let scores := scoresAfter g (.of d) weights k
      scores.map Prod.fst = g.nodes ∧ (scores.map Prod.snd).sum = g.nodeCount ∧
        (0 < k → ∀ m ∈ g.nodes, (1 - d) * Scores.of weights m ≤ Scores.of scores m)) ∧
    ∀ small cap, ∃ k ≤ cap, (0 < cap → 0 < k) ∧
      (run g (.of d) small cap bias).scores = scoresAfter g (.of d) weights k ∧
      (run g (.of d) small cap bias).iterations = k := by
  intro weights
  have hk : weights.map Prod.fst = g.nodes := map_fst_weightsOf g.nodes bias
  have hw : ∀ w ∈ weights, 0 ≤ w.2 := fun w hw => nonneg_of_mem_weightsOf hw
  have hsum : (weights.map Prod.snd).sum = g.nodeCount := by
    rw [← ModuleGraph.length_nodes]
    exact sum_weightsOf g.nodes bias
  have hm := ModuleGraph.mirrored_of_read? hg
  refine ⟨⟨hk, hw, hsum⟩, fun k => ⟨map_fst_scoresAfter _ k hk,
    sum_scoresAfter hm hn hk hsum k, fun hpos m hmn => ?_⟩, fun small cap =>
    run_scores hn _ small cap bias⟩
  obtain ⟨k, rfl⟩ := Nat.exists_eq_succ_of_ne_zero hpos.ne'
  rw [scoresAfter, of_pass hk hmn]
  exact floor_le_nextScore hd₀ (nonneg_of_mem_scoresAfter hd₀ hd₁ hw k) (of_nonneg hw m)

theorem mass_conserved_loop :
    let g := ModuleGraph.ofEdges [("a", "b"), ("b", "b"), ("a", "c")] []
    let weights := weightsOf g.nodes (some fun m => if m = "a" then (-1 : ℚ) else 3)
    g.nodes ≠ [] ∧ ((scoresAfter g (.of (1 / 2)) weights 2).map Prod.snd).sum = 3 := by
  intro g weights
  have hg : ModuleGraph.read? (.list [.tuple [.text "a", .text "b"], .tuple [.text "b", .text "b"],
      .tuple [.text "a", .text "c"]]) (.list []) = .ok g := rfl
  have hn : g.nodes ≠ [] := by
    refine List.ne_nil_of_mem (a := "a") ?_
    rw [ModuleGraph.mem_nodes_ofEdges]
    exact .inr ⟨("a", "b"), List.mem_cons_self, .inl rfl⟩
  have hm := mass_conserved hg hn (d := 1 / 2) (by norm_num) (by norm_num)
    (some fun m => if m = "a" then -1 else 3)
  exact ⟨hn, (hm.2.1 2).2.1⟩

end Exact

end DependencyRanking.PageRank
