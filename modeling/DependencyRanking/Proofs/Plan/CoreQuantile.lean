import DependencyRanking.Proofs.Plan.Safe
import DependencyRanking.Proofs.Statistics

/-!
# The core modules at a quantile

The core modules reach the quantile of all afferent couplings. Read without rounding, the quantile is
at most the order statistic at the next whole position, so as many modules of the largest couplings
as stand from there on are core, unless nothing depends on them.
-/
namespace DependencyRanking.Plan

def coreAt {α : Type} [Scalar α] (g : ModuleGraph) (q : α) : Except RankingError (List ModuleId) :=
  coreModules (g.nodes.map fun m => (m, (g.inDegree m : Int))) q

def positionOf (g : ModuleGraph) (q : ℚ) : ℚ := (g.nodeCount - 1 : ℕ) * q

def cutoffAt (g : ModuleGraph) (q : ℚ) : ℚ :=
  interpolation (orderStatistic (g.nodes.map fun m => (g.inDegree m : ℚ))) (positionOf g q)

/-- Some modules of a graph, none of which has fewer dependents than any other module. -/
structure Foremost (g : ModuleGraph) (ms : List ModuleId) : Prop where
  nodup : ms.Nodup
  mem_nodes : ∀ m ∈ ms, m ∈ g.nodes
  largest : ∀ u ∈ ms, ∀ v ∈ g.nodes, v ∉ ms → g.inDegree v ≤ g.inDegree u

/-- The core of a graph at a quantile, which is closed upward and holds the foremost modules. -/
structure CoreShare (g : ModuleGraph) (q : ℚ) (core : List ModuleId) : Prop where
  mem_iff : ∀ m, m ∈ core ↔ m ∈ g.nodes ∧ 0 < g.inDegree m ∧ cutoffAt g q ≤ g.inDegree m
  upward : ∀ u ∈ core, ∀ v ∈ g.nodes, g.inDegree u ≤ g.inDegree v → v ∈ core
  eq_nil_iff : core = [] ↔ ∀ u v, ¬ g.Depends u v
  exists_foremost : ∃ ms, Foremost g ms ∧ ms.length = g.nodeCount - ⌈positionOf g q⌉₊
  foremost : ∀ ms, Foremost g ms → ms.length = g.nodeCount - ⌈positionOf g q⌉₊ →
    ∀ m ∈ ms, 0 < g.inDegree m → m ∈ core

variable {g : ModuleGraph} {q r : ℚ} {core core' ms : List ModuleId} {m u v : ModuleId} {n : ℕ}

section Positions

theorem positionOf_nonneg (g : ModuleGraph) (h0 : 0 ≤ q) : 0 ≤ positionOf g q :=
  mul_nonneg (Nat.cast_nonneg _) h0

theorem positionOf_mono (g : ModuleGraph) (hqr : q ≤ r) : positionOf g q ≤ positionOf g r :=
  mul_le_mul_of_nonneg_left hqr (Nat.cast_nonneg _)

theorem ceil_positionOf_le (g : ModuleGraph) (h1 : q ≤ 1) :
    ⌈positionOf g q⌉₊ ≤ g.nodeCount - 1 :=
  Nat.ceil_le.2 (mul_le_of_le_one_right (Nat.cast_nonneg _) h1)

theorem cutoffAt_mono (g : ModuleGraph) (h0 : 0 ≤ q) (hqr : q ≤ r) : cutoffAt g q ≤ cutoffAt g r :=
  interpolation_mono (monotone_orderStatistic _) (positionOf_nonneg g h0) (positionOf_mono g hqr)

end Positions

section Selection

theorem coreAt_eq (g : ModuleGraph) (h0 : 0 ≤ q) (h1 : q ≤ 1) : coreAt g q =
    .ok (g.nodes.filter fun m => 0 < g.inDegree m ∧ cutoffAt g q ≤ g.inDegree m) := by
  have hsample : (g.nodes.map fun m => (m, (g.inDegree m : Int))).map
      (fun a => (Scalar.ofInt a.2 : ℚ)) = g.nodes.map fun m => (g.inDegree m : ℚ) := by
    rw [List.map_map]
    refine List.map_congr_left fun m _ => ?_
    exact Int.cast_natCast (g.inDegree m)
  have hcutoff : quantile (g.nodes.map fun m => (g.inDegree m : ℚ)) q = .ok (cutoffAt g q) := by
    rw [quantile_eq _ h0 h1, List.length_map, ModuleGraph.length_nodes]
    rfl
  have hreached : ∀ m, (decide (0 < (g.inDegree m : Int)) &&
      Scalar.atMost (cutoffAt g q) (g.inDegree m : Int)) =
        decide (0 < g.inDegree m ∧ cutoffAt g q ≤ g.inDegree m) := by
    intro m
    change (decide _ && decide (cutoffAt g q ≤ ((g.inDegree m : Int) : ℚ))) = _
    rw [Int.cast_natCast, ← Bool.decide_and]
    simp only [Int.natCast_pos]
  unfold coreAt coreModules
  rw [hsample, hcutoff]
  refine congrArg Except.ok ?_
  rw [List.filter_map, List.map_map]
  simp only [Function.comp_def, hreached, List.map_id']

theorem mem_coreAt (h0 : 0 ≤ q) (h1 : q ≤ 1) (hok : coreAt g q = .ok core) :
    m ∈ core ↔ m ∈ g.nodes ∧ 0 < g.inDegree m ∧ cutoffAt g q ≤ g.inDegree m := by
  rw [coreAt_eq g h0 h1, Except.ok.injEq] at hok
  rw [← hok, List.mem_filter, decide_eq_true_eq]

theorem coreAt_antitone (h0 : 0 ≤ q) (hqr : q ≤ r) (h1 : r ≤ 1) (hq : coreAt g q = .ok core)
    (hr : coreAt g r = .ok core') : core'.Sublist core := by
  rw [coreAt_eq g h0 (hqr.trans h1), Except.ok.injEq] at hq
  rw [coreAt_eq g (h0.trans hqr) h1, Except.ok.injEq] at hr
  rw [← hq, ← hr]
  refine List.monotone_filter_right g.nodes fun m hm => ?_
  rw [decide_eq_true_eq] at hm ⊢
  exact ⟨hm.1, (cutoffAt_mono g h0 hqr).trans hm.2⟩

end Selection

section Ranks

theorem Foremost.lt_countP (h : Foremost g ms) (hlen : ms.length = g.nodeCount - n) (hm : m ∈ ms) :
    n < g.nodes.countP fun v => g.inDegree v ≤ g.inDegree m := by
  have hsplit : g.nodeCount ≤ (g.nodes.filter (· ∉ ms)).length + ms.length := by
    rw [← ModuleGraph.length_nodes, ← List.length_append]
    refine (List.subperm_of_subset g.nodup_nodes fun v hv => ?_).length_le
    by_cases hvm : v ∈ ms
    · exact List.mem_append_right _ hvm
    · exact List.mem_append_left _ (List.mem_filter.2 ⟨hv, by simpa using hvm⟩)
  have hbelow : (m :: g.nodes.filter (· ∉ ms)).length ≤
      (g.nodes.filter fun v => g.inDegree v ≤ g.inDegree m).length := by
    refine (List.subperm_of_subset ?_ fun v hv => ?_).length_le
    · exact List.nodup_cons.2 ⟨by simp [hm], g.nodup_nodes.filter _⟩
    · rw [List.mem_filter, decide_eq_true_eq]
      rcases List.mem_cons.1 hv with rfl | hv
      · exact ⟨h.mem_nodes _ hm, le_refl _⟩
      · obtain ⟨hvn, hvm⟩ := List.mem_filter.1 hv
        exact ⟨hvn, h.largest m hm v hvn (by simpa using hvm)⟩
  have hpos := List.length_pos_of_mem hm
  -- `n` modules are outside, and the module itself is one more
  rw [List.countP_eq_length_filter]
  rw [List.length_cons] at hbelow
  omega

theorem Foremost.cutoffAt_le (h : Foremost g ms) (h0 : 0 ≤ q)
    (hlen : ms.length = g.nodeCount - ⌈positionOf g q⌉₊) (hm : m ∈ ms) :
    cutoffAt g q ≤ g.inDegree m := by
  refine (interpolation_le_ceil (monotone_orderStatistic _) (positionOf_nonneg g h0)).trans ?_
  apply orderStatistic_le
  rw [List.countP_map]
  simpa [Function.comp_def] using h.lt_countP hlen hm

theorem exists_foremost (g : ModuleGraph) (n : ℕ) :
    ∃ ms, Foremost g ms ∧ ms.length = g.nodeCount - n := by
  have hperm := List.mergeSort_perm g.nodes fun a b => decide (g.inDegree a ≤ g.inDegree b)
  have hsorted : (g.nodes.mergeSort fun a b => decide (g.inDegree a ≤ g.inDegree b)).Pairwise
      fun a b => g.inDegree a ≤ g.inDegree b :=
    pairwise_mergeSort_le g.inDegree g.nodes
  generalize g.nodes.mergeSort (fun a b => decide (g.inDegree a ≤ g.inDegree b)) = sorted
    at hperm hsorted
  rw [← List.take_append_drop n sorted, List.pairwise_append] at hsorted
  refine ⟨sorted.drop n, ⟨?_, fun m hm => ?_, fun u hu v hv hvm => ?_⟩, ?_⟩
  · exact (hperm.nodup_iff.2 g.nodup_nodes).sublist (List.drop_sublist n sorted)
  · exact hperm.mem_iff.1 (List.mem_of_mem_drop hm)
  · rw [← hperm.mem_iff, ← List.take_append_drop n sorted, List.mem_append] at hv
    exact hsorted.2.2 v (hv.resolve_right hvm) u hu
  · rw [List.length_drop, hperm.length_eq, ModuleGraph.length_nodes]

end Ranks

section Core

variable (hm : g.Mirrored) (h0 : 0 ≤ q) (h1 : q ≤ 1) (hok : coreAt g q = .ok core)
include h0 h1 hok

theorem mem_core_of_foremost (hms : Foremost g ms)
    (hlen : ms.length = g.nodeCount - ⌈positionOf g q⌉₊) (hmm : m ∈ ms) (hpos : 0 < g.inDegree m) :
    m ∈ core :=
  (mem_coreAt h0 h1 hok).2 ⟨hms.mem_nodes m hmm, hpos, hms.cutoffAt_le h0 hlen hmm⟩

include hm

theorem core_ne_nil (huv : g.Depends u v) : core ≠ [] := by
  have hpos := hm.inDegree_pos huv
  have hv := hm.target_mem u v huv
  have hcount := List.length_pos_of_mem hv
  rw [ModuleGraph.length_nodes] at hcount
  obtain ⟨ms, hms, hlen⟩ := exists_foremost g ⌈positionOf g q⌉₊
  have hceil := ceil_positionOf_le g h1
  obtain ⟨w, hw⟩ := List.exists_mem_of_length_pos (l := ms) (by omega)
  by_cases hvm : v ∈ ms
  · exact List.ne_nil_of_mem (mem_core_of_foremost h0 h1 hok hms hlen hvm hpos)
  · have hwpos := hpos.trans_le (hms.largest w hw v hv hvm)
    exact List.ne_nil_of_mem (mem_core_of_foremost h0 h1 hok hms hlen hw hwpos)

theorem coreShare : CoreShare g q core where
  mem_iff _ := mem_coreAt h0 h1 hok
  upward u hu v hv huv := by
    obtain ⟨-, hpos, hcutoff⟩ := (mem_coreAt h0 h1 hok).1 hu
    exact (mem_coreAt h0 h1 hok).2 ⟨hv, hpos.trans_le huv, hcutoff.trans (Nat.cast_le.2 huv)⟩
  eq_nil_iff := by
    refine ⟨fun hnil u v huv => core_ne_nil hm h0 h1 hok huv hnil, fun hnone => ?_⟩
    refine List.eq_nil_iff_forall_not_mem.2 fun m hmem => ?_
    obtain ⟨-, hpos, -⟩ := (mem_coreAt h0 h1 hok).1 hmem
    exact hpos.ne' (hm.inDegree_eq_zero.2 fun u => hnone u m)
  exists_foremost := exists_foremost g _
  foremost _ hms hlen _ hmm := mem_core_of_foremost h0 h1 hok hms hlen hmm

end Core

section Plans

variable {components : List Component} {config : RankingConfig} {plan : Plan}
variable {metrics : List (CouplingMetrics Float)} {levels : List (List Nat)}

theorem Composed.core_eq (h : Composed g components (couplingTable g) config metrics levels plan) :
    ∃ x, config.coreQuantile.nearest = .ok x ∧ coreAt g x = .ok plan.core := by
  obtain ⟨x, hx, hcore⟩ := h.core
  refine ⟨x, hx, ?_⟩
  rw [h.zip_metrics, List.map_map] at hcore
  exact hcore

/-- The core modules of the plan for a graph that was read are those at the quantile of the
configuration. At every quantile, read without rounding, the core is closed upward and holds the
foremost modules, and it shrinks when the quantile grows. -/
theorem make_coreShare {edges isolated : Value} {given : DependencyRanking.Setting → Value}
    (hg : ModuleGraph.read? edges isolated = .ok g) (hc : RankingConfig.check given = .ok config) :
    (∃ components, g.components = .ok components ∧
      (g.nodeCount < 2 ^ 1023 → ∃ plan, make g components
        (couplingTable g : Table ModuleId (CouplingMetrics Float)) config = .ok plan) ∧
      ∀ plan, make g components
        (couplingTable g : Table ModuleId (CouplingMetrics Float)) config = .ok plan →
          ∃ x, config.coreQuantile.nearest = .ok x ∧ coreAt g x = .ok plan.core) ∧
    (∀ q : ℚ, 0 ≤ q → q ≤ 1 → ∃ core, coreAt g q = .ok core ∧ CoreShare g q core) ∧
    ∀ (q r : ℚ) (core core' : List ModuleId), 0 ≤ q → q ≤ r → r ≤ 1 →
      coreAt g q = .ok core → coreAt g r = .ok core' → core'.Sublist core := by
  have hm := ModuleGraph.mirrored_of_read? hg
  obtain ⟨components, hok, -, hex, hall⟩ := exists_composed hg hc
  refine ⟨⟨components, hok, hex, fun plan hplan => ?_⟩, fun q h0 h1 => ?_,
    fun q r core core' h0 hqr h1 => coreAt_antitone h0 hqr h1⟩
  · rcases hall plan hplan with ⟨hnodes, rfl⟩ | ⟨metrics, levels, h⟩
    · obtain ⟨x, hx, -, -⟩ := Number.nearest_unit (RankingConfig.coreQuantile_unit hc)
      refine ⟨x, hx, ?_⟩
      unfold coreAt
      rw [hnodes]
      rfl
    · exact h.core_eq
  · exact ⟨_, coreAt_eq g h0 h1, coreShare hm h0 h1 (coreAt_eq g h0 h1)⟩

theorem make_coreShare_star : ∃ g components plan,
    ModuleGraph.read? (.list [.tuple [.text "a", .text "d"], .tuple [.text "b", .text "d"],
      .tuple [.text "c", .text "d"], .tuple [.text "a", .text "b"]]) (.list []) = .ok g ∧
    RankingConfig.check DependencyRanking.Setting.default = .ok {} ∧ g.components = .ok components ∧
    make g components (couplingTable g : Table ModuleId (CouplingMetrics Float)) {} = .ok plan ∧
    ∃ core, coreAt g (9 / 10 : ℚ) = .ok core ∧ CoreShare g (9 / 10) core ∧ core ≠ [] := by
  have hg : ModuleGraph.read? (.list [.tuple [.text "a", .text "d"],
      .tuple [.text "b", .text "d"], .tuple [.text "c", .text "d"],
      .tuple [.text "a", .text "b"]]) (.list []) =
    .ok (.ofEdges [("a", "d"), ("b", "d"), ("c", "d"), ("a", "b")] []) := rfl
  obtain ⟨⟨components, hok, hex, -⟩, hshare, -⟩ := make_coreShare hg RankingConfig.check_default
  obtain ⟨plan, hplan⟩ := hex (lt_two_pow (by decide) (by decide))
  obtain ⟨core, hcore, hs⟩ := hshare (9 / 10) (by norm_num) (by norm_num)
  refine ⟨_, components, plan, hg, RankingConfig.check_default, hok, hplan, core, hcore, hs, ?_⟩
  intro hnil
  refine hs.eq_nil_iff.1 hnil "a" "d" ?_
  simp [ModuleGraph.depends_ofEdges]

end Plans

end DependencyRanking.Plan
