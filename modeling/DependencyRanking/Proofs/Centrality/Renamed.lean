import DependencyRanking.Proofs.Centrality.Accuracy
import DependencyRanking.Proofs.Graph.Renamed

/-!
# PageRank under other names

New names change the order in which modules are visited, and with it the order in which scores are
added up. Without rounding a sum has no order, and a pass reads nothing but the scores of the pass
before it, so the runs on a graph and on the renamed one go side by side and stop together.
-/
namespace DependencyRanking.PageRank

open ModuleGraph

variable {g h : ModuleGraph} {r : ModuleId → ModuleId} {d : ℚ}
variable {weights weights' x x' y y' : Scores ℚ} {m : ModuleId}

structure SameScores (r : ModuleId → ModuleId) (g h : ModuleGraph) (x x' : Scores ℚ) : Prop where
  modules : x.map Prod.fst = g.nodes
  renamed : x'.map Prod.fst = h.nodes
  of_eq : ∀ m ∈ g.nodes, Scores.of x' (r m) = Scores.of x m

structure SameRun (r : ModuleId → ModuleId) (g h : ModuleGraph) (a b : Run ℚ) : Prop where
  scores : SameScores r g h a.scores b.scores
  iterations : b.iterations = a.iterations
  converged : b.converged = a.converged
  finalDelta : b.finalDelta = a.finalDelta

theorem sum_renamed {ms ns : List ModuleId} {p p' : ModuleId → ℚ} (hperm : ns.Perm (ms.map r))
    (hp : ∀ m ∈ ms, p' (r m) = p m) : (ns.map p').sum = (ms.map p).sum := by
  rw [(hperm.map p').sum_eq, List.map_map]
  congr 1
  exact List.map_congr_left hp

section Passes

variable (hr : Renames r g h)
include hr

theorem sameScores_scoresOf {p p' : ModuleId → ℚ} (hp : ∀ m ∈ g.nodes, p' (r m) = p m) :
    SameScores r g h (scoresOf g p) (scoresOf h p') where
  modules := map_fst_scoresOf g p
  renamed := map_fst_scoresOf h p'
  of_eq m hm := by
    rw [of_scoresOf ((hr.mem_nodes (r m)).2 ⟨m, hm, rfl⟩), of_scoresOf hm, hp m hm]

theorem sameScores_uniform : SameScores r g h (uniform g.nodes) (uniform h.nodes) :=
  sameScores_scoresOf hr fun _ _ => rfl

theorem sameScores_teleport {bias bias' : ModuleId → ℚ}
    (hbias : ∀ m ∈ g.nodes, bias' (r m) = bias m) :
    SameScores r g h (teleport g.nodes bias) (teleport h.nodes bias') := by
  have hpart : ∀ m ∈ g.nodes, positivePart bias' (r m) = positivePart bias m := by
    intro m hm
    unfold positivePart
    rw [hbias m hm]
  rw [teleport_eq, teleport_eq, sum_renamed hr.nodes_perm hpart, length_nodes, length_nodes,
    hr.nodeCount_eq]
  split
  · exact sameScores_scoresOf hr fun m hm => by rw [hpart m hm]
  · exact sameScores_uniform hr

theorem sameScores_weightsOf {bias bias' : Option (ModuleId → ℚ)}
    (hbias : Option.Rel (fun b b' => ∀ m ∈ g.nodes, b' (r m) = b m) bias bias') :
    SameScores r g h (weightsOf g.nodes bias) (weightsOf h.nodes bias') := by
  cases hbias with
  | none => exact sameScores_uniform hr
  | some hbias => exact sameScores_teleport hr hbias

theorem delta_renamed (hx : SameScores r g h x x') (hy : SameScores r g h y y') :
    delta x' y' = delta x y := by
  rw [delta_eq hy.renamed, delta_eq hy.modules]
  exact sum_renamed hr.nodes_perm fun m hm => by rw [hx.of_eq m hm, hy.of_eq m hm]

variable (hg : g.Mirrored) (hh : h.Mirrored)
include hg hh

theorem dangling_perm : (dangling h).Perm ((dangling g).map r) := by
  refine hr.perm_map (g.nodup_nodes.filter _) (h.nodup_nodes.filter _)
    (fun a ha => (List.mem_filter.1 ha).1) fun b => ?_
  simp only [dangling, List.mem_filter, decide_eq_true_eq]
  constructor
  · rintro ⟨hb, hzero⟩
    obtain ⟨a, ha, rfl⟩ := (hr.mem_nodes b).1 hb
    exact ⟨a, ⟨ha, (hr.outDegree_eq hg hh ha).symm.trans hzero⟩, rfl⟩
  · rintro ⟨a, ⟨ha, hzero⟩, rfl⟩
    exact ⟨(hr.mem_nodes (r a)).2 ⟨a, ha, rfl⟩, (hr.outDegree_eq hg hh ha).trans hzero⟩

theorem danglingScore_renamed (hx : SameScores r g h x x') :
    danglingScore h x' = danglingScore g x := by
  unfold danglingScore
  rw [total_eq_sum, total_eq_sum]
  exact sum_renamed (dangling_perm hr hg hh) fun m hm => hx.of_eq m (List.mem_filter.1 hm).1

theorem nextScore_renamed (hx : SameScores r g h x x') (hm : m ∈ g.nodes) (held t : ℚ) :
    nextScore h (.of d) x' held (r m) t = nextScore g (.of d) x held m t := by
  have hin : ((h.incoming (r m)).map fun s => d * Scores.of x' s / h.outDegree s).sum =
      ((g.incoming m).map fun s => d * Scores.of x s / g.outDegree s).sum := by
    apply sum_renamed (hr.incoming_perm hg hh hm)
    intro s hs
    have hnode : s ∈ g.nodes := hg.source_mem s m ((hg.mem_incoming s m).1 hs)
    rw [hx.of_eq s hnode, hr.outDegree_eq hg hh hnode]
  rw [nextScore_eq, nextScore_eq, hin, hr.nodeCount_eq]

theorem sameScores_pass (hw : SameScores r g h weights weights') (hx : SameScores r g h x x') :
    SameScores r g h (pass g (.of d) weights x) (pass h (.of d) weights' x') where
  modules := (map_fst_pass g _ weights x).trans hw.modules
  renamed := (map_fst_pass h _ weights' x').trans hw.renamed
  of_eq m hm := by
    rw [of_pass hw.renamed ((hr.mem_nodes (r m)).2 ⟨m, hm, rfl⟩), of_pass hw.modules hm,
      hw.of_eq m hm, danglingScore_renamed hr hg hh hx, nextScore_renamed hr hg hh hx hm]

theorem sameRun_iterate (hw : SameScores r g h weights weights') (small : ℚ → Bool)
    (cap performed : Nat) (last : ℚ) (hx : SameScores r g h x x') :
    SameRun r g h (iterate (pass g (.of d) weights) small cap performed last x)
      (iterate (pass h (.of d) weights') small cap performed last x') := by
  induction cap generalizing performed last x x' with
  | zero => exact ⟨hx, rfl, rfl, rfl⟩
  | succ cap ih =>
    have hnew := sameScores_pass (d := d) hr hg hh hw hx
    simp only [iterate, delta_renamed hr hx hnew]
    split
    · exact ⟨hnew, rfl, rfl, rfl⟩
    · exact ih _ _ hnew

theorem sameRun_run {bias bias' : Option (ModuleId → ℚ)}
    (hbias : Option.Rel (fun b b' => ∀ m ∈ g.nodes, b' (r m) = b m) bias bias')
    (small : ℚ → Bool) (cap : Nat) :
    SameRun r g h (run g (.of d) small cap bias) (run h (.of d) small cap bias') := by
  have hnone : h.nodes = [] ↔ g.nodes = [] := by
    rw [← List.length_eq_zero_iff, ← List.length_eq_zero_iff, length_nodes, length_nodes,
      hr.nodeCount_eq]
  unfold run
  by_cases hn : g.nodes = []
  · rw [if_pos hn, if_pos (hnone.2 hn)]
    exact ⟨⟨hn.symm, (hnone.2 hn).symm, fun m hm => absurd hm (by simp [hn])⟩, rfl, rfl, rfl⟩
  · rw [if_neg hn, if_neg (mt hnone.1 hn)]
    exact sameRun_iterate hr hg hh (sameScores_weightsOf hr hbias) small cap 0 0
      (sameScores_uniform hr)

end Passes

/-- PageRank without rounding does not depend on the names of the modules. Distinct names that are
not blank give a graph that can be read; the run on it makes the same passes with the same changes
and gives every module its score under the new name. So a symmetry of a graph exchanges modules of
equal score only, unless a bias tells them apart. -/
theorem run_renamed {edges isolated : Value} (hg : ModuleGraph.read? edges isolated = .ok g) :
    (∀ r : ModuleId → ModuleId, (∀ a ∈ g.nodes, ∀ b ∈ g.nodes, r a = r b → a = b) →
      (∀ m ∈ g.nodes, Text.isBlank (r m) = false) →
        ∃ edges' isolated' h, ModuleGraph.read? edges' isolated' = .ok h ∧ Renames r g h) ∧
    (∀ r edges' isolated' h, ModuleGraph.read? edges' isolated' = .ok h → Renames r g h →
      ∀ bias bias', Option.Rel (fun b b' => ∀ m ∈ g.nodes, b' (r m) = b m) bias bias' →
        ∀ (d : ℚ) small cap,
          SameRun r g h (run g (.of d) small cap bias) (run h (.of d) small cap bias')) ∧
    ∀ r, Renames r g g → ∀ (d : ℚ) small cap, let scores := (run g (.of d) small cap none).scores
      ∀ m ∈ g.nodes, Scores.of scores (r m) = Scores.of scores m := by
  have hm := ModuleGraph.mirrored_of_read? hg
  refine ⟨fun r hr hblank => exists_renamed hg hr hblank, ?_, ?_⟩
  · intro r edges' isolated' h hh hr bias bias' hbias d small cap
    exact sameRun_run hr hm (ModuleGraph.mirrored_of_read? hh) hbias small cap
  · intro r hr d small cap
    exact (sameRun_run hr hm hm .none small cap).scores.of_eq

theorem run_renamed_swap :
    let g := ModuleGraph.ofEdges [("a", "b"), ("b", "a"), ("a", "c"), ("b", "c")] []
    let h := ModuleGraph.ofEdges [("z", "y"), ("y", "z"), ("z", "x"), ("y", "x")] []
    let r : ModuleId → ModuleId := fun m => if m = "a" then "z" else if m = "b" then "y" else "x"
    let scores := (run g (.of (1 / 2)) (fun x => decide (x < (1 : ℚ))) 4 none).scores
    SameRun r g h
      (run g (.of (1 / 2)) (fun x => decide (x < (1 : ℚ))) 4
        (some fun m => if m = "c" then 2 else -1))
      (run h (.of (1 / 2)) (fun x => decide (x < (1 : ℚ))) 4
        (some fun m => if m = "x" then 2 else -1)) ∧
    Scores.of scores "b" = Scores.of scores "a" := by
  intro g h r scores
  have hg : ModuleGraph.read? (.list [.tuple [.text "a", .text "b"], .tuple [.text "b", .text "a"],
      .tuple [.text "a", .text "c"], .tuple [.text "b", .text "c"]]) (.list []) = .ok g := rfl
  have hh : ModuleGraph.read? (.list [.tuple [.text "z", .text "y"], .tuple [.text "y", .text "z"],
      .tuple [.text "z", .text "x"], .tuple [.text "y", .text "x"]]) (.list []) = .ok h := rfl
  have hnodes : g.nodes = ["a", "b", "c"] := by cbv
  have hr : Renames r g h := renames_ofEdges (by rw [hnodes]; decide)
  have hswap : Renames (fun m => if m = "a" then "b" else if m = "b" then "a" else m) g g := by
    refine ⟨?_, ?_, ?_⟩
    · rw [hnodes]
      decide
    · intro m
      rw [hnodes]
      simp only [List.mem_cons, List.not_mem_nil, or_false, exists_eq_or_imp, exists_eq_left]
      grind
    · unfold ModuleGraph.Depends
      rw [hnodes]
      decide
  have hrun := run_renamed hg
  refine ⟨hrun.2.1 r _ _ h hh hr _ _ (.some ?_) _ _ _, ?_⟩
  · rw [hnodes]
    decide +kernel
  · exact hrun.2.2 _ hswap _ _ _ "a" (by simp [hnodes])

end DependencyRanking.PageRank
