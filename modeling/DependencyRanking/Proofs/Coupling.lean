import DependencyRanking.Coupling
import DependencyRanking.Number.Exact
import DependencyRanking.Proofs.Graph.Components
import DependencyRanking.Proofs.Graph.Representation
import DependencyRanking.Proofs.Number.Unsigned
import DependencyRanking.Proofs.Sorting

/-!
# Coupling without rounding

Every edge counts once as afferent and once as efferent coupling. A module that reaches the greatest
afferent coupling has dependents, so its instability is not one, and no risk score reaches one.
-/
namespace DependencyRanking

/-- A table that counts every edge on both sides and rates every module from zero up to, but not
including, one. Only the modules without connections are rated zero. -/
structure Balanced (g : ModuleGraph) (table : Table ModuleId (CouplingMetrics ℚ)) : Prop where
  keys : table.keys = g.nodes
  sum_afferent : (table.values.map CouplingMetrics.afferent).sum = g.edgeCount
  sum_efferent : (table.values.map CouplingMetrics.efferent).sum = g.edgeCount
  instability : ∀ m metrics, table.get? m = some metrics →
    0 ≤ metrics.instability ∧ metrics.instability ≤ 1
  riskScore : ∀ m metrics, table.get? m = some metrics →
    0 ≤ metrics.riskScore ∧ metrics.riskScore < 1
  riskScore_eq_zero : ∀ m metrics, table.get? m = some metrics →
    (metrics.riskScore = 0 ↔ (∀ v, ¬ g.Depends m v) ∧ ∀ u, ¬ g.Depends u m)

variable {g : ModuleGraph} {m : ModuleId} {a b n top : ℕ}

section Shares

theorem instability_eq (a b : ℕ) : (instability a b : ℚ) = b / (a + b) := by
  have h : (instability a b : ℚ) =
      if (a : ℤ) + b = 0 then (0 : ℚ) else ((b : ℤ) : ℚ) / ((a + b : ℤ) : ℚ) := rfl
  rw [h]
  split
  · rename_i hzero
    have hsum : (a : ℚ) + b = 0 := by exact_mod_cast hzero
    rw [hsum, div_zero]
  · push_cast
    rfl

theorem instability_nonneg (a b : ℕ) : (0 : ℚ) ≤ instability a b := by
  rw [instability_eq]
  positivity

theorem instability_le_one (a b : ℕ) : (instability a b : ℚ) ≤ 1 := by
  rw [instability_eq]
  refine div_le_one_of_le₀ ?_ (by positivity)
  exact le_add_of_nonneg_left (Nat.cast_nonneg a)

theorem instability_lt_one (ha : 0 < a) : (instability a b : ℚ) < 1 := by
  have hpos : (0 : ℚ) < a := Nat.cast_pos.2 ha
  rw [instability_eq, div_lt_one (by positivity)]
  exact lt_add_of_pos_left _ hpos

theorem instability_eq_zero : (instability a b : ℚ) = 0 ↔ b = 0 := by
  rw [instability_eq, div_eq_zero_iff]
  norm_cast
  omega

theorem relativeAfferent_eq (n top a : ℕ) :
    (relativeAfferent n top a : ℚ) = if 1 < n ∧ 0 < top then (a : ℚ) / top else 0 := rfl

theorem relativeAfferent_nonneg (n top a : ℕ) : (0 : ℚ) ≤ relativeAfferent n top a := by
  rw [relativeAfferent_eq]
  split
  · positivity
  · exact le_refl 0

theorem relativeAfferent_le_one (n : ℕ) (ha : a ≤ top) : (relativeAfferent n top a : ℚ) ≤ 1 := by
  rw [relativeAfferent_eq]
  split
  · exact div_le_one_of_le₀ (Nat.cast_le.2 ha) (Nat.cast_nonneg top)
  · exact zero_le_one

theorem relativeAfferent_zero (n top : ℕ) : (relativeAfferent n top 0 : ℚ) = 0 := by
  rw [relativeAfferent_eq, Nat.cast_zero, zero_div, ite_self]

theorem relativeAfferent_pos (hn : 1 < n) (ha : 0 < a) (htop : a ≤ top) :
    (0 : ℚ) < relativeAfferent n top a := by
  have htop : 0 < top := ha.trans_le htop
  rw [relativeAfferent_eq, if_pos ⟨hn, htop⟩]
  positivity

end Shares

section Scores

theorem riskScore_eq (g : ModuleGraph) (top : ℕ) (m : ModuleId) :
    (couplingOf g top m : CouplingMetrics ℚ).riskScore =
      (instability (g.inDegree m) (g.outDegree m) +
        relativeAfferent g.nodeCount top (g.inDegree m)) / 2 := by
  have h : (couplingOf g top m : CouplingMetrics ℚ).riskScore =
      (instability (g.inDegree m) (g.outDegree m) : ℚ) * 0.5 +
        relativeAfferent g.nodeCount top (g.inDegree m) * 0.5 := rfl
  rw [h]
  ring

theorem inDegree_le_maxInDegree (hm : m ∈ g.nodes) : g.inDegree m ≤ maxInDegree g :=
  (foldl_max_le_iff.1 (le_refl _)).2 _ (List.mem_map_of_mem hm)

theorem riskScore_nonneg (g : ModuleGraph) (top : ℕ) (m : ModuleId) :
    0 ≤ (couplingOf g top m : CouplingMetrics ℚ).riskScore := by
  rw [riskScore_eq]
  have hshare := instability_nonneg (g.inDegree m) (g.outDegree m)
  have hrelative := relativeAfferent_nonneg g.nodeCount top (g.inDegree m)
  positivity

theorem riskScore_lt_one (htop : g.inDegree m ≤ top) :
    (couplingOf g top m : CouplingMetrics ℚ).riskScore < 1 := by
  -- both halves cannot be full: one needs dependents, the other none
  rw [riskScore_eq]
  have hrelative := relativeAfferent_le_one g.nodeCount htop
  rcases Nat.eq_zero_or_pos (g.inDegree m) with hnone | hsome
  · have hshare := instability_le_one (g.inDegree m) (g.outDegree m)
    have hzero : (relativeAfferent g.nodeCount top (g.inDegree m) : ℚ) = 0 := by
      rw [hnone, relativeAfferent_zero]
    linarith
  · have hshare := instability_lt_one (b := g.outDegree m) hsome
    linarith

theorem one_lt_nodeCount (hm : g.Mirrored) {u : ModuleId} (hu : g.Depends u m)
    (hv : ∀ v, ¬ g.Depends m v) : 1 < g.nodeCount := by
  have hne : u ≠ m := fun h => hv m (h ▸ hu)
  have hsub : [u, m] ⊆ g.nodes :=
    List.cons_subset.2 ⟨hm.source_mem u m hu,
      List.cons_subset.2 ⟨hm.target_mem u m hu, List.nil_subset _⟩⟩
  rw [← ModuleGraph.length_nodes]
  exact (List.subperm_of_subset (by simpa using hne) hsub).length_le

theorem riskScore_eq_zero (hm : g.Mirrored) (htop : g.inDegree m ≤ top) :
    (couplingOf g top m : CouplingMetrics ℚ).riskScore = 0 ↔
      (∀ v, ¬ g.Depends m v) ∧ ∀ u, ¬ g.Depends u m := by
  have hshare := instability_nonneg (g.inDegree m) (g.outDegree m)
  have hrelative := relativeAfferent_nonneg g.nodeCount top (g.inDegree m)
  rw [riskScore_eq, div_eq_zero_iff, or_iff_left two_ne_zero,
    add_eq_zero_iff_of_nonneg hshare hrelative, instability_eq_zero,
    ModuleGraph.outDegree_eq_zero]
  refine and_congr_right fun hv => ⟨fun hzero u hu => ?_, fun hu => ?_⟩
  · have hpos := relativeAfferent_pos (one_lt_nodeCount hm hu hv) (hm.inDegree_pos hu) htop
    exact absurd hzero hpos.ne'
  · rw [hm.inDegree_eq_zero.2 hu, relativeAfferent_zero]

end Scores

section Doubles

theorem nonneg_ratio (a b : ℕ) : Double.Nonneg (Scalar.ratio a b : Float) := Double.nonneg_ofQuotient a b

theorem nonneg_instability (a b : ℕ) : Double.Nonneg (instability a b : Float) := by
  unfold instability
  split
  · exact Double.nonneg_zero
  · exact nonneg_ratio b (a + b)

theorem nonneg_relativeAfferent (n top a : ℕ) : Double.Nonneg (relativeAfferent n top a : Float) := by
  unfold relativeAfferent
  split
  · exact nonneg_ratio a top
  · exact Double.nonneg_zero

theorem nonneg_riskScore (g : ModuleGraph) (top : ℕ) (m : ModuleId) :
    Double.Nonneg (couplingOf g top m : CouplingMetrics Float).riskScore := by
  have hshare := (nonneg_instability (g.inDegree m) (g.outDegree m)).mul Double.positive_half
  have hrelative :=
    (nonneg_relativeAfferent g.nodeCount top (g.inDegree m)).mul Double.positive_half
  exact hshare.add hrelative

end Doubles

section Totals

theorem get?_couplingTable_eq_some {α : Type} [Scalar α] {metrics : CouplingMetrics α} :
    (couplingTable g : Table ModuleId (CouplingMetrics α)).get? m = some metrics ↔
      m ∈ g.nodes ∧ couplingOf g (maxInDegree g) m = metrics := by
  unfold couplingTable
  rw [Table.get?_ofKeys]
  split
  · rename_i hm
    simp [hm]
  · rename_i hm
    simp [hm]

theorem map_values_couplingTable {α β : Type} [Scalar α] (f : CouplingMetrics α → β) :
    (couplingTable g : Table ModuleId (CouplingMetrics α)).values.map f =
      g.nodes.map fun m => f (couplingOf g (maxInDegree g) m) := by
  simp [couplingTable, Table.values, Table.ofKeys, Function.comp_def]

end Totals

/-- The coupling of a graph that was read is balanced, whatever the graph. -/
theorem couplingTable_balanced {edges isolated : Value}
    (hg : ModuleGraph.read? edges isolated = .ok g) : Balanced g (couplingTable g) := by
  have hm := ModuleGraph.mirrored_of_read? hg
  obtain ⟨pairs, nodes, -, hr⟩ := ModuleGraph.represents_of_read? hg
  constructor
  · exact Table.keys_ofKeys _ g.nodup_nodes _
  · rw [map_values_couplingTable, ← hr.sum_inDegree, Nat.cast_list_sum, List.map_map]
    rfl
  · rw [map_values_couplingTable, ← hr.sum_outDegree, Nat.cast_list_sum, List.map_map]
    rfl
  · intro m metrics hget
    obtain ⟨-, rfl⟩ := get?_couplingTable_eq_some.1 hget
    exact ⟨instability_nonneg _ _, instability_le_one _ _⟩
  · intro m metrics hget
    obtain ⟨hmn, rfl⟩ := get?_couplingTable_eq_some.1 hget
    exact ⟨riskScore_nonneg _ _ _, riskScore_lt_one (inDegree_le_maxInDegree hmn)⟩
  · intro m metrics hget
    obtain ⟨hmn, rfl⟩ := get?_couplingTable_eq_some.1 hget
    exact riskScore_eq_zero hm (inDegree_le_maxInDegree hmn)

theorem couplingTable_balanced_loop : ∃ g,
    ModuleGraph.read? (.list [.tuple [.text "a", .text "a"], .tuple [.text "b", .text "a"],
      .tuple [.text "c", .text "b"]]) (.list [.text "d"]) = .ok g ∧
    Balanced g (couplingTable g) ∧
    ∃ metrics, (couplingTable g : Table ModuleId (CouplingMetrics ℚ)).get? "d" = some metrics ∧
      metrics.riskScore = 0 := by
  have hg : ModuleGraph.read? (.list [.tuple [.text "a", .text "a"],
      .tuple [.text "b", .text "a"], .tuple [.text "c", .text "b"]]) (.list [.text "d"]) =
    .ok (.ofEdges [("a", "a"), ("b", "a"), ("c", "b")] ["d"]) := rfl
  have hb := couplingTable_balanced hg
  have hnode : "d" ∈ (ModuleGraph.ofEdges [("a", "a"), ("b", "a"), ("c", "b")] ["d"]).nodes := by
    rw [ModuleGraph.mem_nodes_ofEdges]
    exact .inl (by decide)
  have hget := get?_couplingTable_eq_some (α := ℚ) |>.2 ⟨hnode, rfl⟩
  refine ⟨_, hg, hb, _, hget, (hb.riskScore_eq_zero _ _ hget).2 ⟨fun v => ?_, fun u => ?_⟩⟩
  · simp [ModuleGraph.depends_ofEdges]
  · simp [ModuleGraph.depends_ofEdges]

end DependencyRanking
