import DependencyRanking.Proofs.Centrality.Mass

/-!
# Convergence of the iteration

Without rounding a pass brings any two scores closer together by the damping factor: the distance
travels like score, so a pass spreads what it holds and leaves out the share by weight. The changes
of the passes fall at least geometrically, and the iteration stops once its cap allows it.
-/
namespace DependencyRanking.PageRank

section Exact

variable {g : ModuleGraph} {d : ℚ} {weights scores x y : Scores ℚ} {m : ModuleId}

def gap (g : ModuleGraph) (x y : Scores ℚ) : Scores ℚ :=
  g.nodes.map fun m => (m, |Scores.of x m - Scores.of y m|)

theorem map_fst_gap (g : ModuleGraph) (x y : Scores ℚ) : (gap g x y).map Prod.fst = g.nodes := by
  simp [gap, Function.comp_def]

theorem of_gap (hm : m ∈ g.nodes) :
    Scores.of (gap g x y) m = |Scores.of x m - Scores.of y m| := by
  have hn : ((gap g x y).map Prod.fst).Nodup := by
    rw [map_fst_gap]
    exact g.nodup_nodes
  exact of_eq_of_mem hn (List.mem_map.2 ⟨m, hm, rfl⟩)

theorem sum_snd_eq (hs : scores.map Prod.fst = g.nodes) :
    (scores.map Prod.snd).sum = (g.nodes.map (Scores.of scores)).sum :=
  congrArg List.sum (map_snd_eq hs g.nodup_nodes)

theorem sum_gap (g : ModuleGraph) (x y : Scores ℚ) : ((gap g x y).map Prod.snd).sum =
    (g.nodes.map fun m => |Scores.of x m - Scores.of y m|).sum := by
  simp [gap, Function.comp_def]

theorem delta_eq (hy : y.map Prod.fst = g.nodes) :
    delta x y = (g.nodes.map fun m => |Scores.of y m - Scores.of x m|).sum := by
  have hn : (y.map Prod.fst).Nodup := by
    rw [hy]
    exact g.nodup_nodes
  have hmap : y.map (fun s => |s.2 - Scores.of x s.1|) =
      (y.map Prod.fst).map fun m => |Scores.of y m - Scores.of x m| := by
    rw [List.map_map]
    apply List.map_congr_left
    intro s hs
    simp [of_eq_of_mem hn hs]
  rw [← hy, ← hmap]
  exact total_eq_sum _

theorem abs_sum_sub_le {a b c : ModuleId → ℚ} {ms : List ModuleId}
    (h : ∀ m ∈ ms, |a m - b m| ≤ c m) :
    |(ms.map a).sum - (ms.map b).sum| ≤ (ms.map c).sum := by
  induction ms with
  | nil => simp
  | cons m rest ih =>
    have hm := h m List.mem_cons_self
    have hrest := ih fun s hs => h s (List.mem_cons_of_mem m hs)
    simp only [List.map_cons, List.sum_cons]
    calc |a m + (rest.map a).sum - (b m + (rest.map b).sum)|
        = |(a m - b m) + ((rest.map a).sum - (rest.map b).sum)| := by ring_nf
      _ ≤ |a m - b m| + |(rest.map a).sum - (rest.map b).sum| := abs_add_le _ _
      _ ≤ c m + (rest.map c).sum := add_le_add hm hrest

theorem abs_danglingScore_sub_le (g : ModuleGraph) (x y : Scores ℚ) :
    |danglingScore g x - danglingScore g y| ≤ danglingScore g (gap g x y) := by
  unfold danglingScore
  rw [total_eq_sum, total_eq_sum, total_eq_sum]
  apply abs_sum_sub_le
  intro m hm
  rw [of_gap (List.mem_filter.1 hm).1]

theorem abs_incoming_sub_le (h : g.Mirrored) (hd : 0 ≤ d) (m : ModuleId) :
    |((g.incoming m).map fun s => d * Scores.of x s / g.outDegree s).sum -
      ((g.incoming m).map fun s => d * Scores.of y s / g.outDegree s).sum| ≤
        ((g.incoming m).map fun s => d * Scores.of (gap g x y) s / g.outDegree s).sum := by
  apply abs_sum_sub_le
  intro s hs
  have hmem : s ∈ g.nodes := h.source_mem s m ((h.mem_incoming s m).1 hs)
  have hfactor : 0 ≤ d / (g.outDegree s : ℚ) := by positivity
  rw [of_gap hmem]
  calc |d * Scores.of x s / g.outDegree s - d * Scores.of y s / g.outDegree s|
      = |d / g.outDegree s * (Scores.of x s - Scores.of y s)| := by ring_nf
    _ = d / g.outDegree s * |Scores.of x s - Scores.of y s| := by
        rw [abs_mul, abs_of_nonneg hfactor]
    _ ≤ d * |Scores.of x s - Scores.of y s| / g.outDegree s := by
        apply le_of_eq
        ring

theorem abs_pass_sub_le (h : g.Mirrored) (hd : 0 ≤ d) (hk : weights.map Prod.fst = g.nodes)
    (hw : ∀ w ∈ weights, 0 ≤ w.2) (hm : m ∈ g.nodes) :
    |Scores.of (pass g (.of d) weights x) m - Scores.of (pass g (.of d) weights y) m| +
      (1 - d) * Scores.of weights m ≤ Scores.of (pass g (.of d) weights (gap g x y)) m := by
  have ht := of_nonneg hw m
  have hheld := abs_danglingScore_sub_le g x y
  have hin := abs_incoming_sub_le (x := x) (y := y) h hd m
  have hfactor : 0 ≤ d * Scores.of weights m / g.nodeCount := by positivity
  rw [of_pass hk hm, of_pass hk hm, of_pass hk hm, nextScore_eq, nextScore_eq, nextScore_eq]
  generalize ((g.incoming m).map fun s => d * Scores.of x s / g.outDegree s).sum = inX at *
  generalize ((g.incoming m).map fun s => d * Scores.of y s / g.outDegree s).sum = inY at *
  generalize ((g.incoming m).map fun s => d * Scores.of (gap g x y) s / g.outDegree s).sum =
    inGap at *
  have hspread : |d * Scores.of weights m / g.nodeCount *
      (danglingScore g x - danglingScore g y)| ≤
        d * Scores.of weights m / g.nodeCount * danglingScore g (gap g x y) := by
    rw [abs_mul, abs_of_nonneg hfactor]
    exact mul_le_mul_of_nonneg_left hheld hfactor
  have hsum := (abs_add_le _ _).trans (add_le_add hspread hin)
  have hdiff : (1 - d) * Scores.of weights m +
      d * danglingScore g x * Scores.of weights m / g.nodeCount + inX -
      ((1 - d) * Scores.of weights m +
        d * danglingScore g y * Scores.of weights m / g.nodeCount + inY) =
      d * Scores.of weights m / g.nodeCount * (danglingScore g x - danglingScore g y) +
        (inX - inY) := by ring
  have hshare : d * danglingScore g (gap g x y) * Scores.of weights m / g.nodeCount =
      d * Scores.of weights m / g.nodeCount * danglingScore g (gap g x y) := by ring
  rw [hdiff, hshare]
  linarith

theorem delta_pass_le (h : g.Mirrored) (hn : g.nodes ≠ []) (hd : 0 ≤ d)
    (hk : weights.map Prod.fst = g.nodes) (hw : ∀ w ∈ weights, 0 ≤ w.2)
    (hsum : (weights.map Prod.snd).sum = g.nodeCount) (hy : y.map Prod.fst = g.nodes) :
    delta (pass g (.of d) weights x) (pass g (.of d) weights y) ≤ d * delta x y := by
  have hpass := (map_fst_pass g (.of d) weights y).trans hk
  have hgap := sum_pass (d := d) h hn hk hsum (map_fst_gap g y x)
  rw [sum_snd_eq ((map_fst_pass g _ weights _).trans hk), sum_gap, ← delta_eq hy] at hgap
  rw [sum_snd_eq hk] at hsum
  have hle := List.sum_le_sum fun m (hm : m ∈ g.nodes) =>
    abs_pass_sub_le (x := y) (y := x) h hd hk hw hm
  rw [List.sum_map_add, List.sum_map_mul_left, ← delta_eq hpass, hgap, hsum] at hle
  linarith

theorem changeAfter_zero_le (h : g.Mirrored) (hn : g.nodes ≠ []) (hd₀ : 0 ≤ d) (hd₁ : d ≤ 1)
    (hk : weights.map Prod.fst = g.nodes) (hw : ∀ w ∈ weights, 0 ≤ w.2)
    (hsum : (weights.map Prod.snd).sum = g.nodeCount) :
    changeAfter g (.of d) weights 0 ≤ 2 * g.nodeCount := by
  have hmass : ∀ k, (g.nodes.map (Scores.of (scoresAfter g (.of d) weights k))).sum =
      g.nodeCount := by
    intro k
    rw [← sum_snd_eq (map_fst_scoresAfter (.of d) k hk)]
    exact sum_scoresAfter h hn hk hsum k
  have hnonneg : ∀ k m, 0 ≤ Scores.of (scoresAfter g (.of d) weights k) m := fun k =>
    of_nonneg (nonneg_of_mem_scoresAfter hd₀ hd₁ hw k)
  unfold changeAfter
  rw [delta_eq (map_fst_scoresAfter (.of d) 1 hk)]
  calc _ ≤ (g.nodes.map fun m => Scores.of (scoresAfter g (.of d) weights 1) m +
          Scores.of (scoresAfter g (.of d) weights 0) m).sum := by
        apply List.sum_le_sum
        intro m hm
        have hnew := hnonneg 1 m
        have hold := hnonneg 0 m
        exact abs_le.2 ⟨by linarith, by linarith⟩
    _ = 2 * g.nodeCount := by
        rw [List.sum_map_add, hmass, hmass]
        ring

theorem changeAfter_le (hd : 0 ≤ d)
    (hstep : ∀ k, changeAfter g (.of d) weights (k + 1) ≤ d * changeAfter g (.of d) weights k)
    {bound : ℚ} (hzero : changeAfter g (.of d) weights 0 ≤ bound) (k : Nat) :
    changeAfter g (.of d) weights k ≤ bound * d ^ k := by
  induction k with
  | zero => simpa using hzero
  | succ k ih =>
    calc _ ≤ d * changeAfter g (.of d) weights k := hstep k
      _ ≤ d * (bound * d ^ k) := mul_le_mul_of_nonneg_left ih hd
      _ = bound * d ^ (k + 1) := by ring

/-- PageRank without rounding converges on every graph: the first change is at most twice the number
of modules, each further one at most the damping factor times the one before, and a run whose cap
brings that below the tolerance ends converged. The changes are those that the runs report. -/
theorem changes_contract {edges isolated : Value} (hg : ModuleGraph.read? edges isolated = .ok g)
    (hn : g.nodes ≠ []) (hd₀ : 0 < d) (hd₁ : d < 1) (bias : Option (ModuleId → ℚ)) :
    let change := changeAfter g (.of d) (weightsOf g.nodes bias)
    change 0 ≤ 2 * g.nodeCount ∧ (∀ k, change (k + 1) ≤ d * change k) ∧
    (∀ small cap, 1 ≤ cap → ∃ k, (run g (.of d) small cap bias).iterations = k + 1 ∧
      (run g (.of d) small cap bias).finalDelta = change k) ∧
    ∀ (tolerance : ℚ) (cap : Nat), 1 ≤ cap → 2 * g.nodeCount * d ^ (cap - 1) < tolerance →
      (run g (.of d) (fun x => decide (x < tolerance)) cap bias).converged = true := by
  intro change
  have hm := ModuleGraph.mirrored_of_read? hg
  have hk : (weightsOf g.nodes bias).map Prod.fst = g.nodes := map_fst_weightsOf g.nodes bias
  have hw : ∀ w ∈ weightsOf g.nodes bias, 0 ≤ w.2 := fun w hw => nonneg_of_mem_weightsOf hw
  have hsum : ((weightsOf g.nodes bias).map Prod.snd).sum = g.nodeCount := by
    rw [← ModuleGraph.length_nodes]
    exact sum_weightsOf g.nodes bias
  have hzero : change 0 ≤ 2 * g.nodeCount :=
    changeAfter_zero_le hm hn hd₀.le hd₁.le hk hw hsum
  have hstep : ∀ k, change (k + 1) ≤ d * change k := fun k =>
    delta_pass_le hm hn hd₀.le hk hw hsum (map_fst_scoresAfter (.of d) (k + 1) hk)
  refine ⟨hzero, hstep, fun small cap hcap => run_finalDelta hn _ small hcap bias, ?_⟩
  intro tolerance cap hcap htol
  rw [run_converged hn]
  refine ⟨cap - 1, by omega, ?_⟩
  have hlast := changeAfter_le hd₀.le hstep hzero (cap - 1)
  exact decide_eq_true (hlast.trans_lt htol)

theorem changes_contract_cycle :
    let g := ModuleGraph.ofEdges [("a", "b"), ("b", "a"), ("b", "c")] []
    g.nodes ≠ [] ∧ (0 : ℚ) < 1 / 2 ∧ (1 / 2 : ℚ) < 1 ∧ 2 * (g.nodeCount : ℚ) * (1 / 2) ^ (4 - 1) < 1 ∧
      (run g (.of (1 / 2)) (fun x => decide (x < (1 : ℚ))) 4 none).converged = true := by
  intro g
  have hg : ModuleGraph.read? (.list [.tuple [.text "a", .text "b"], .tuple [.text "b", .text "a"],
      .tuple [.text "b", .text "c"]]) (.list []) = .ok g := rfl
  have hn : g.nodes ≠ [] := by
    refine List.ne_nil_of_mem (a := "a") ?_
    rw [ModuleGraph.mem_nodes_ofEdges]
    exact .inr ⟨("a", "b"), List.mem_cons_self, .inl rfl⟩
  have hcount : g.nodeCount = 3 := rfl
  have hsmall : 2 * (g.nodeCount : ℚ) * (1 / 2) ^ (4 - 1) < 1 := by
    rw [hcount]
    norm_num
  have hc := changes_contract hg hn (d := 1 / 2) (by norm_num) (by norm_num) none
  exact ⟨hn, by norm_num, by norm_num, hsmall, hc.2.2.2 1 4 (by norm_num) hsmall⟩

end Exact

end DependencyRanking.PageRank
