import DependencyRanking.Proofs.Centrality.Convergence

/-!
# Accuracy of a run that has stopped

Without rounding the scores that a pass keeps are the solutions of the PageRank equation. There is
exactly one, as a pass is a contraction and the equation is linear. What is left to it after a run
is at most `d / (1 - d)` times the last change, so the stopping test bounds the error.
-/
namespace DependencyRanking.PageRank

variable {g : ModuleGraph} {d : ℚ} {weights x y z : Scores ℚ} {p q : ModuleId → ℚ} {m : ModuleId}

section Distance

theorem delta_triangle (hy : y.map Prod.fst = g.nodes) (hz : z.map Prod.fst = g.nodes) :
    delta x z ≤ delta x y + delta y z := by
  rw [delta_eq hy, delta_eq hz, delta_eq hz, ← List.sum_map_add]
  apply List.sum_le_sum
  intro m _
  rw [add_comm]
  exact abs_sub_le _ _ _

def scoresOf (g : ModuleGraph) (p : ModuleId → ℚ) : Scores ℚ := g.nodes.map fun m => (m, p m)

theorem map_fst_scoresOf (g : ModuleGraph) (p : ModuleId → ℚ) :
    (scoresOf g p).map Prod.fst = g.nodes := by
  simp [scoresOf, Function.comp_def]

theorem of_scoresOf (hm : m ∈ g.nodes) : Scores.of (scoresOf g p) m = p m := by
  have hn : ((scoresOf g p).map Prod.fst).Nodup := by
    rw [map_fst_scoresOf]
    exact g.nodup_nodes
  exact of_eq_of_mem hn (List.mem_map.2 ⟨m, hm, rfl⟩)

theorem eq_scoresOf (hx : x.map Prod.fst = g.nodes) (h : ∀ m ∈ g.nodes, Scores.of x m = p m) :
    x = scoresOf g p := by
  have hn : (x.map Prod.fst).Nodup := by
    rw [hx]
    exact g.nodup_nodes
  unfold scoresOf
  rw [← hx, List.map_map]
  conv_lhs => rw [← List.map_id x]
  apply List.map_congr_left
  intro s hs
  have hmem : s.1 ∈ g.nodes := hx ▸ List.mem_map_of_mem hs
  exact Prod.ext rfl ((of_eq_of_mem hn hs).symm.trans (h s.1 hmem))

def distance (g : ModuleGraph) (x : Scores ℚ) (p : ModuleId → ℚ) : ℚ :=
  (g.nodes.map fun m => |Scores.of x m - p m|).sum

theorem distance_eq (g : ModuleGraph) (x : Scores ℚ) (p : ModuleId → ℚ) :
    distance g x p = delta x (scoresOf g p) := by
  rw [delta_eq (map_fst_scoresOf g p)]
  unfold distance
  congr 1
  apply List.map_congr_left
  intro m hm
  rw [of_scoresOf hm, abs_sub_comm]

theorem eq_of_distance_nonpos (h : distance g x p ≤ 0) (hm : m ∈ g.nodes) :
    Scores.of x m = p m := by
  have hle : |Scores.of x m - p m| ≤ distance g x p := by
    apply List.single_le_sum
    · intro a ha
      obtain ⟨n, -, rfl⟩ := List.mem_map.1 ha
      exact abs_nonneg _
    · exact List.mem_map_of_mem hm
  exact sub_eq_zero.1 (abs_nonpos_iff.1 (hle.trans h))

end Distance

section Equation

def received (g : ModuleGraph) (d : ℚ) (t p : ModuleId → ℚ) (m : ModuleId) : ℚ :=
  d * ((dangling g).map p).sum * t m / g.nodeCount +
    d * ((g.incoming m).map fun s => p s / g.outDegree s).sum

/-- The PageRank equation for teleport weights `t`. -/
def Solves (g : ModuleGraph) (d : ℚ) (t p : ModuleId → ℚ) : Prop :=
  ∀ m ∈ g.nodes, p m = (1 - d) * t m + received g d t p m

theorem received_add (g : ModuleGraph) (d : ℚ) (t p q : ModuleId → ℚ) (m : ModuleId) :
    received g d t (p + q) m = received g d t p m + received g d t q m := by
  have hheld : ((dangling g).map (p + q)).sum =
      ((dangling g).map p).sum + ((dangling g).map q).sum := List.sum_map_add
  unfold received
  simp only [Pi.add_apply, add_div, List.sum_map_add, hheld]
  ring

theorem received_smul (g : ModuleGraph) (d : ℚ) (t p : ModuleId → ℚ) (c : ℚ) (m : ModuleId) :
    received g d t (c • p) m = c * received g d t p m := by
  have hheld : ((dangling g).map (c • p)).sum = c * ((dangling g).map p).sum :=
    List.sum_map_mul_left _ _ _
  unfold received
  simp only [Pi.smul_apply, smul_eq_mul, mul_div_assoc, List.sum_map_mul_left, hheld]
  ring

noncomputable def onModules (g : ModuleGraph) :
    ({m // m ∈ g.nodes} → ℚ) →ₗ[ℚ] (ModuleId → ℚ) :=
  Function.ExtendByZero.linearMap ℚ Subtype.val

theorem onModules_apply (f : {m // m ∈ g.nodes} → ℚ) (i : {m // m ∈ g.nodes}) :
    onModules g f i = f i :=
  Subtype.val_injective.extend_apply f 0 i

noncomputable def excess (g : ModuleGraph) (d : ℚ) (t : ModuleId → ℚ) :
    ({m // m ∈ g.nodes} → ℚ) →ₗ[ℚ] ({m // m ∈ g.nodes} → ℚ) where
  toFun f i := f i - received g d t (onModules g f) i
  map_add' f f' := by
    funext i
    rw [map_add, received_add]
    simp only [Pi.add_apply]
    ring
  map_smul' c f := by
    funext i
    rw [map_smul, received_smul]
    simp only [Pi.smul_apply, smul_eq_mul, RingHom.id_apply]
    ring

theorem of_pass_scoresOf (h : g.Mirrored) (hk : weights.map Prod.fst = g.nodes) (hm : m ∈ g.nodes) :
    Scores.of (pass g (.of d) weights (scoresOf g p)) m =
      (1 - d) * Scores.of weights m + received g d (Scores.of weights) p m := by
  have hheld : danglingScore g (scoresOf g p) = ((dangling g).map p).sum := by
    unfold danglingScore
    rw [total_eq_sum]
    congr 1
    apply List.map_congr_left
    intro s hs
    exact of_scoresOf (List.mem_filter.1 hs).1
  have hin : ((g.incoming m).map fun s => d * Scores.of (scoresOf g p) s / g.outDegree s).sum =
      d * ((g.incoming m).map fun s => p s / g.outDegree s).sum := by
    rw [← List.sum_map_mul_left]
    congr 1
    apply List.map_congr_left
    intro s hs
    rw [of_scoresOf (h.source_mem s m ((h.mem_incoming s m).1 hs)), mul_div_assoc]
  rw [of_pass hk hm, nextScore_eq, hheld, hin, add_assoc]
  rfl

theorem solves_iff (h : g.Mirrored) (hk : weights.map Prod.fst = g.nodes) :
    Solves g d (Scores.of weights) p ↔
      pass g (.of d) weights (scoresOf g p) = scoresOf g p := by
  constructor
  · intro hp
    apply eq_scoresOf ((map_fst_pass g _ weights _).trans hk)
    intro m hm
    rw [of_pass_scoresOf h hk hm, ← hp m hm]
  · intro hfix m hm
    rw [← of_pass_scoresOf h hk hm, hfix, of_scoresOf hm]

variable (h : g.Mirrored) (hn : g.nodes ≠ []) (hd₀ : 0 ≤ d) (hd₁ : d < 1)
variable (hk : weights.map Prod.fst = g.nodes) (hw : ∀ w ∈ weights, 0 ≤ w.2)
variable (hsum : (weights.map Prod.snd).sum = g.nodeCount)
include h hn hd₀ hd₁ hk hw hsum

theorem distance_pass_le (hp : Solves g d (Scores.of weights) p) :
    distance g (pass g (.of d) weights x) p ≤
      d / (1 - d) * delta x (pass g (.of d) weights x) := by
  have hpass : (pass g (.of d) weights x).map Prod.fst = g.nodes :=
    (map_fst_pass g _ weights x).trans hk
  have hfix := (solves_iff h hk).1 hp
  have hcontract := delta_pass_le (x := x) h hn hd₀ hk hw hsum (map_fst_scoresOf g p)
  have htriangle := delta_triangle (x := x) hpass (map_fst_scoresOf g p)
  rw [hfix] at hcontract
  have hd : 0 < 1 - d := by linarith
  rw [distance_eq, div_mul_eq_mul_div, le_div_iff₀ hd]
  have hscaled := mul_le_mul_of_nonneg_left htriangle hd₀
  linarith

theorem eq_zero_of_eq_received (hp : ∀ m ∈ g.nodes, p m = received g d (Scores.of weights) p m)
    (hm : m ∈ g.nodes) : p m = 0 := by
  have hzero : ∀ n, received g d (Scores.of weights) 0 n = 0 := by
    intro n
    simpa using received_smul g d (Scores.of weights) 0 0 n
  have hkeys : ∀ q, (pass g (.of d) weights (scoresOf g q)).map Prod.fst = g.nodes := fun q =>
    (map_fst_pass g _ weights _).trans hk
  have hcontract := delta_pass_le (x := scoresOf g 0) h hn hd₀ hk hw hsum (map_fst_scoresOf g p)
  have hmoved : delta (pass g (.of d) weights (scoresOf g 0))
      (pass g (.of d) weights (scoresOf g p)) = delta (scoresOf g 0) (scoresOf g p) := by
    rw [delta_eq (hkeys p), delta_eq (map_fst_scoresOf g p)]
    congr 1
    apply List.map_congr_left
    intro n hnode
    rw [of_pass_scoresOf h hk hnode, of_pass_scoresOf h hk hnode, of_scoresOf hnode,
      of_scoresOf hnode, hzero, ← hp n hnode]
    simp
  have hdistance : distance g (scoresOf g 0) p ≤ 0 := by
    rw [distance_eq]
    rw [hmoved] at hcontract
    nlinarith
  rw [← eq_of_distance_nonpos hdistance hm, of_scoresOf hm]
  rfl

theorem Solves.unique (hp : Solves g d (Scores.of weights) p)
    (hq : Solves g d (Scores.of weights) q) (hm : m ∈ g.nodes) : p m = q m := by
  have hdiff : ∀ n ∈ g.nodes,
      (p + (-1 : ℚ) • q) n = received g d (Scores.of weights) (p + (-1 : ℚ) • q) n := by
    intro n hnode
    rw [received_add, received_smul, Pi.add_apply, Pi.smul_apply, smul_eq_mul, hp n hnode,
      hq n hnode]
    ring
  have hzero := eq_zero_of_eq_received h hn hd₀ hd₁ hk hw hsum hdiff hm
  simp only [Pi.add_apply, Pi.smul_apply, smul_eq_mul] at hzero
  linarith

theorem exists_solves : ∃ p, Solves g d (Scores.of weights) p := by
  -- as many unknowns as lines: it is enough that the homogeneous equation has only the zero solution
  have hinjective : Function.Injective (excess g d (Scores.of weights)) := by
    rw [injective_iff_map_eq_zero]
    intro f hf
    have hkept : ∀ m ∈ g.nodes,
        onModules g f m = received g d (Scores.of weights) (onModules g f) m := by
      intro m hm
      rw [onModules_apply f ⟨m, hm⟩]
      exact sub_eq_zero.1 (congrFun hf ⟨m, hm⟩)
    funext i
    rw [← onModules_apply f i]
    exact eq_zero_of_eq_received h hn hd₀ hd₁ hk hw hsum hkept i.2
  obtain ⟨f, hf⟩ := LinearMap.injective_iff_surjective.1 hinjective
    fun i => (1 - d) * Scores.of weights i
  refine ⟨onModules g f, fun m hm => ?_⟩
  rw [onModules_apply f ⟨m, hm⟩]
  exact sub_eq_iff_eq_add.1 (congrFun hf ⟨m, hm⟩)

theorem existsUnique_fixed : ∃! x, pass g (.of d) weights x = x := by
  obtain ⟨p, hp⟩ := exists_solves h hn hd₀ hd₁ hk hw hsum
  refine ⟨scoresOf g p, (solves_iff h hk).1 hp, fun y hfix => ?_⟩
  have hy : y.map Prod.fst = g.nodes := by
    rw [← hfix, map_fst_pass, hk]
  have hlist : y = scoresOf g (Scores.of y) := eq_scoresOf hy fun m _ => rfl
  have hsolves : Solves g d (Scores.of weights) (Scores.of y) :=
    (solves_iff h hk).2 (hlist ▸ hfix)
  exact eq_scoresOf hy fun m hm => hsolves.unique h hn hd₀ hd₁ hk hw hsum hp hm

end Equation

theorem existsUnique_fixed_of_read? {edges isolated : Value}
    (hg : ModuleGraph.read? edges isolated = .ok g) (hd₀ : 0 ≤ d) (hd₁ : d < 1)
    (bias : Option (ModuleId → ℚ)) : ∃! x, pass g (.of d) (weightsOf g.nodes bias) x = x := by
  have hk : (weightsOf g.nodes bias).map Prod.fst = g.nodes := map_fst_weightsOf g.nodes bias
  by_cases hn : g.nodes = []
  · have hnone : weightsOf g.nodes bias = [] := List.map_eq_nil_iff.1 (hk.trans hn)
    rw [hnone]
    exact ⟨[], rfl, fun y hfix => hfix.symm⟩
  · exact existsUnique_fixed (ModuleGraph.mirrored_of_read? hg) hn hd₀ hd₁ hk
      (fun w hw => nonneg_of_mem_weightsOf hw) (sum_weightsOf_eq_nodeCount g bias)

section Runs

theorem ne_nil_of_iterations {small : ℚ → Bool} {cap : Nat} {bias : Option (ModuleId → ℚ)}
    (hpass : 1 ≤ (run g (.of d) small cap bias).iterations) : g.nodes ≠ [] := by
  intro hn
  unfold run at hpass
  rw [if_pos hn] at hpass
  exact absurd hpass (by decide)

theorem run_small (hn : g.nodes ≠ []) {small : ℚ → Bool} {cap : Nat}
    {bias : Option (ModuleId → ℚ)} (hconverged : (run g (.of d) small cap bias).converged = true) :
    small (run g (.of d) small cap bias).finalDelta = true := by
  rcases Nat.eq_zero_or_pos cap with rfl | hcap
  · rw [run_zero hn] at hconverged
    cases hconverged
  · obtain ⟨k, -, hrun⟩ := run_last hn (.of d) small hcap bias
    rw [hrun] at hconverged ⊢
    exact hconverged

theorem run_last_pass (hn : g.nodes ≠ []) {small : ℚ → Bool} {cap : Nat}
    {bias : Option (ModuleId → ℚ)} (hpass : 1 ≤ (run g (.of d) small cap bias).iterations) :
    ∃ x, (run g (.of d) small cap bias).scores = pass g (.of d) (weightsOf g.nodes bias) x ∧
      (run g (.of d) small cap bias).finalDelta =
        delta x (pass g (.of d) (weightsOf g.nodes bias) x) := by
  rcases Nat.eq_zero_or_pos cap with rfl | hcap
  · rw [run_zero hn] at hpass
    exact absurd hpass (Nat.not_succ_le_zero 0)
  · obtain ⟨k, -, hrun⟩ := run_last hn (.of d) small hcap bias
    rw [hrun]
    exact ⟨scoresAfter g (.of d) (weightsOf g.nodes bias) k, rfl, rfl⟩

theorem distance_run_le {edges isolated : Value} (hg : ModuleGraph.read? edges isolated = .ok g)
    (hd₀ : 0 ≤ d) (hd₁ : d < 1) {small : ℚ → Bool} {cap : Nat} {bias : Option (ModuleId → ℚ)}
    (hp : Solves g d (Scores.of (weightsOf g.nodes bias)) p)
    (hpass : 1 ≤ (run g (.of d) small cap bias).iterations) :
    distance g (run g (.of d) small cap bias).scores p ≤
      d / (1 - d) * (run g (.of d) small cap bias).finalDelta := by
  have hn := ne_nil_of_iterations hpass
  obtain ⟨x, hscores, hdelta⟩ := run_last_pass hn hpass
  rw [hscores, hdelta]
  exact distance_pass_le (ModuleGraph.mirrored_of_read? hg) hn hd₀ hd₁
    (map_fst_weightsOf g.nodes bias) (fun w hw => nonneg_of_mem_weightsOf hw)
    (sum_weightsOf_eq_nodeCount g bias) hp

/-- PageRank without rounding: exactly one list of scores is kept by a pass, and what is kept solves
the PageRank equation. The scores of a run of at least one pass are no further from a solution than
`d / (1 - d)` times the last change, so a converged run is as close as its tolerance says. -/
theorem run_accurate {edges isolated : Value} (hg : ModuleGraph.read? edges isolated = .ok g)
    (hd₀ : 0 < d) (hd₁ : d < 1) (bias : Option (ModuleId → ℚ)) :
    let weights := weightsOf g.nodes bias
    (∃! x, pass g (.of d) weights x = x) ∧
    ∀ p, (Solves g d (Scores.of weights) p ↔ pass g (.of d) weights (scoresOf g p) = scoresOf g p) ∧
      (Solves g d (Scores.of weights) p → ∀ (tolerance : ℚ) (cap : Nat),
        let r := run g (.of d) (fun x => decide (x < tolerance)) cap bias
        1 ≤ r.iterations → distance g r.scores p ≤ d / (1 - d) * r.finalDelta ∧
          (r.converged = true → distance g r.scores p ≤ d * tolerance / (1 - d))) := by
  intro weights
  have hk : weights.map Prod.fst = g.nodes := map_fst_weightsOf g.nodes bias
  refine ⟨existsUnique_fixed_of_read? hg hd₀.le hd₁ bias, fun p =>
    ⟨solves_iff (ModuleGraph.mirrored_of_read? hg) hk, ?_⟩⟩
  intro hp tolerance cap r hpass
  have hdistance : distance g r.scores p ≤ d / (1 - d) * r.finalDelta :=
    distance_run_le hg hd₀.le hd₁ hp hpass
  refine ⟨hdistance, fun hconverged => hdistance.trans ?_⟩
  have hsmall : r.finalDelta < tolerance :=
    of_decide_eq_true (run_small (ne_nil_of_iterations hpass) hconverged)
  have hfactor : 0 ≤ d / (1 - d) := div_nonneg hd₀.le (by linarith)
  rw [mul_div_right_comm]
  exact mul_le_mul_of_nonneg_left hsmall.le hfactor

theorem run_accurate_leak :
    let g := ModuleGraph.ofEdges [("a", "b"), ("b", "a"), ("b", "c")] []
    let p : ModuleId → ℚ := fun m => if m = "b" then 9 / 8 else 15 / 16
    let r := run g (.of (1 / 2)) (fun x => decide (x < (7 : ℚ))) 3 none
    (0 : ℚ) < 1 / 2 ∧ (1 / 2 : ℚ) < 1 ∧
      Solves g (1 / 2) (Scores.of (weightsOf g.nodes none)) p ∧ 1 ≤ r.iterations ∧
      distance g r.scores p ≤ 1 / 2 / (1 - 1 / 2) * r.finalDelta ∧ r.converged = true ∧
      distance g r.scores p ≤ 1 / 2 * 7 / (1 - 1 / 2) := by
  intro g p r
  have hg : ModuleGraph.read? (.list [.tuple [.text "a", .text "b"], .tuple [.text "b", .text "a"],
      .tuple [.text "b", .text "c"]]) (.list []) = .ok g := rfl
  have hnodes : g.nodes = ["a", "b", "c"] := by cbv
  have hn : g.nodes ≠ [] := by simp [hnodes]
  have hweights : weightsOf g.nodes none = [("a", (1 : ℚ)), ("b", 1), ("c", 1)] := by
    rw [hnodes]
    rfl
  have hp : Solves g (1 / 2) (Scores.of (weightsOf g.nodes none)) p := by
    have hdangling : dangling g = ["c"] := by cbv
    have ha : g.incoming "a" = ["b"] := by cbv
    have hb : g.incoming "b" = ["a"] := by cbv
    have hc : g.incoming "c" = ["b"] := by cbv
    have hdegrees : g.outDegree "a" = 1 ∧ g.outDegree "b" = 2 := ⟨rfl, rfl⟩
    have hcount : g.nodeCount = 3 := rfl
    have hvalues : p "a" = 15 / 16 ∧ p "b" = 9 / 8 ∧ p "c" = 15 / 16 := ⟨rfl, rfl, rfl⟩
    intro m hm
    rw [hweights]
    simp only [hnodes, List.mem_cons, List.not_mem_nil, or_false] at hm
    rcases hm with rfl | rfl | rfl
    · norm_num [received, hdangling, ha, hdegrees, hcount, hvalues, Scores.of, entryAt?]
    · norm_num [received, hdangling, hb, hdegrees, hcount, hvalues, Scores.of, entryAt?]
    · norm_num [received, hdangling, hc, hdegrees, hcount, hvalues, Scores.of, entryAt?]
  have hpass : 1 ≤ r.iterations := by
    obtain ⟨k, -, hpos, -, hk⟩ :=
      run_scores hn (.of (1 / 2)) (fun x => decide (x < (7 : ℚ))) 3 none
    exact hk ▸ hpos (by decide)
  have hconverged : r.converged = true := by
    have hfirst : changeAfter g (.of (1 / 2 : ℚ)) (weightsOf g.nodes none) 0 ≤ 2 * g.nodeCount :=
      changeAfter_zero_le (ModuleGraph.mirrored_of_read? hg) hn (by norm_num) (by norm_num)
        (map_fst_weightsOf g.nodes none) (fun w hw => nonneg_of_mem_weightsOf hw)
        (by rw [hweights]; norm_num [show g.nodeCount = 3 from rfl])
    rw [show g.nodeCount = 3 from rfl] at hfirst
    refine (run_converged hn _ _ _ _).2 ⟨0, by decide, decide_eq_true (hfirst.trans_lt ?_)⟩
    norm_num
  have h := (run_accurate hg (by norm_num) (by norm_num) none).2 p |>.2 hp 7 3 hpass
  exact ⟨by norm_num, by norm_num, hp, hpass, h.1, hconverged, h.2 hconverged⟩

end Runs

end DependencyRanking.PageRank
