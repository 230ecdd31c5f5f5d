import DependencyRanking.Proofs.Coupling
import DependencyRanking.Proofs.Hotspot
import DependencyRanking.Proofs.Plan.Cycles

/-!
# The risk of a plan

The worst score of a phase has the highest level of its modules, as levels rise with the scores and
no score is undefined. The risk of the plan is the highest level in the graph, for no module is lost;
a cycle raises both to a high risk at least.
-/
namespace DependencyRanking

namespace RiskLevel

variable {a b level : RiskLevel} {levels : List RiskLevel} {n : Nat}

theorem rank_atLeast (level floor : RiskLevel) :
    (level.atLeast floor).rank = max floor.rank level.rank := by
  unfold atLeast
  split
  · rename_i hle
    exact (max_eq_right hle).symm
  · rename_i hlt
    exact (max_eq_left (Nat.le_of_not_le hlt)).symm

theorem rank_highest (levels : List RiskLevel) :
    (highest levels).rank = (levels.map rank).foldl max 0 := by
  have hfold : ∀ start : RiskLevel, (levels.foldl (fun a b => b.atLeast a) start).rank =
      (levels.map rank).foldl max start.rank := by
    induction levels with
    | nil => exact fun start => rfl
    | cons level levels ih => exact fun start => by simp [ih, rank_atLeast]
  exact hfold low

theorem rank_highest_le_iff : (highest levels).rank ≤ n ↔ ∀ level ∈ levels, level.rank ≤ n := by
  simp [rank_highest, foldl_max_le_iff]

theorem eq_of_rank_le_iff (h : ∀ n, a.rank ≤ n ↔ b.rank ≤ n) : a = b :=
  rank_injective (eq_of_forall_ge_iff h)

theorem rank_atLeast_le_iff {floor : RiskLevel} :
    (level.atLeast floor).rank ≤ n ↔ level.rank ≤ n ∧ floor.rank ≤ n := by
  rw [rank_atLeast, max_le_iff, and_comm]

end RiskLevel

namespace Plan

def scoreOf (g : ModuleGraph) (m : ModuleId) : Number :=
  .float (couplingOf g (maxInDegree g) m : CouplingMetrics Float).riskScore

def levelOf (g : ModuleGraph) (config : RankingConfig) (m : ModuleId) : RiskLevel :=
  config.risks.level (scoreOf g m)

/-- A plan as risky as its modules, and where there is a cycle as risky as a high level at least. -/
structure Graded (g : ModuleGraph) (config : RankingConfig) (plan : Plan) : Prop where
  placed : ∀ m ∈ g.nodes, ∃! p, p ∈ plan.phases ∧ m ∈ p.modules
  onCycle_iff : ∀ p ∈ plan.phases, ∀ m ∈ p.modules, g.OnCycle m ↔ p.isCycle = true
  phase : ∀ p ∈ plan.phases, p.isCycle = false →
    p.risk = .highest (p.modules.map (levelOf g config))
  cycle : ∀ p ∈ plan.phases, p.isCycle = true →
    p.risk = (RiskLevel.highest (p.modules.map (levelOf g config))).atLeast .high
  total : (∀ m, ¬ g.OnCycle m) → plan.risk = .highest (g.nodes.map (levelOf g config))
  total_cycle : (∃ m, g.OnCycle m) →
    plan.risk = (RiskLevel.highest (g.nodes.map (levelOf g config))).atLeast .high

variable {g : ModuleGraph} {components : List Component} {config : RankingConfig}
variable {metrics : List (CouplingMetrics Float)} {levels : List (List Nat)} {plan : Plan}
variable {p : Phase} {modules : List ModuleId} {score : Number} {m : ModuleId} {n : Nat}

section Worst

variable {x y : Number} {scores : List Number}

theorem rank_level_worse (c : RiskCutoffs) (hx : x.value ≠ ⊥) (hy : y.value ≠ ⊥) :
    (c.level (if x < y then y else x)).rank = max (c.level x).rank (c.level y).rank := by
  split
  · rename_i hlt
    have hle : x ≤ y := Number.le_iff_value.2 ⟨hx, (Number.lt_iff_value.1 hlt).2.le⟩
    exact (max_eq_right (c.level_mono hle)).symm
  · rename_i hnot
    have hle : y ≤ x :=
      Number.le_iff_value.2 ⟨hy, not_lt.1 fun hv => hnot (Number.lt_iff_value.2 ⟨hx, hv⟩)⟩
    exact (max_eq_left (c.level_mono hle)).symm

theorem rank_level_worst (c : RiskCutoffs) (hx : x.value ≠ ⊥) (h : ∀ y ∈ scores, y.value ≠ ⊥) :
    (c.level (scores.foldl (fun worst y => if worst < y then y else worst) x)).rank =
      (scores.map fun y => (c.level y).rank).foldl max (c.level x).rank := by
  induction scores generalizing x with
  | nil => rfl
  | cons y scores ih =>
    obtain ⟨hy, hrest⟩ := List.forall_mem_cons.1 h
    have hworse : (if x < y then y else x).value ≠ ⊥ := by
      split
      · exact hy
      · exact hx
    rw [List.foldl_cons, ih hworse hrest, rank_level_worse c hx hy]
    rfl

theorem level_worst (c : RiskCutoffs) (hx : x.value ≠ ⊥) (h : ∀ y ∈ scores, y.value ≠ ⊥) :
    c.level (scores.foldl (fun worst y => if worst < y then y else worst) x) =
      .highest ((x :: scores).map c.level) := by
  apply RiskLevel.rank_injective
  rw [rank_level_worst c hx h, RiskLevel.rank_highest, List.map_map, List.map_cons,
    List.foldl_cons, Nat.zero_max]
  rfl

end Worst

theorem value_scoreOf_ne_bot (g : ModuleGraph) (m : ModuleId) : (scoreOf g m).value ≠ ⊥ :=
  (Number.value_float_ne_bot _).2 (nonneg_riskScore g _ m).isNaN

theorem level_worstScore {s : Setting Float} (hs : s.coupling = couplingTable g)
    (hrisks : s.risks = config.risks) (hmodules : ∀ m ∈ modules, m ∈ g.nodes)
    (hok : s.worstScore modules = .ok score) :
    s.risks.level score = .highest (modules.map (levelOf g config)) := by
  have hscores : modules.mapM (fun m => do
      let metrics ← metricsOf s.coupling m
      pure (Measured.number metrics.riskScore)) = .ok (modules.map (scoreOf g)) := by
    refine Outcome.mapM_of_eq_ok fun m hm => ?_
    rw [hs, metricsOf, get?_couplingTable (hmodules m hm)]
    rfl
  have hdefined : ∀ x ∈ modules.map (scoreOf g), x.value ≠ ⊥ := by
    intro x hx
    obtain ⟨m, -, rfl⟩ := List.mem_map.1 hx
    exact value_scoreOf_ne_bot g m
  unfold Setting.worstScore at hok
  rw [hscores] at hok
  cases modules with
  | nil => cases hok
  | cons m modules =>
    cases hok
    obtain ⟨hfirst, hrest⟩ := List.forall_mem_cons.1 hdefined
    rw [hrisks, level_worst _ hfirst hrest, ← List.map_cons, List.map_map]
    rfl

namespace Composed

variable (h : Composed g components (couplingTable g) config metrics levels plan)
variable (hp : g.Partitioned components)
include h hp

theorem risk_phase (hpp : p ∈ plan.phases) : p.risk =
    if p.isCycle then (RiskLevel.highest (p.modules.map (levelOf g config))).atLeast .high
    else .highest (p.modules.map (levelOf g config)) := by
  obtain ⟨k, group, -, hg, hf⟩ := h.made.exists_filled hpp
  obtain ⟨score, hscore, hrisk⟩ := hf.risk
  have hmodules : ∀ m ∈ p.modules, m ∈ g.nodes := fun m hm => h.made.mem_nodes hp hpp hm
  rw [← hf.modules] at hscore
  rw [hrisk, Setting.riskFor, ← hf.isCycle, level_worstScore rfl rfl hmodules hscore]

theorem rank_phase_le_iff (hpp : p ∈ plan.phases) : p.risk.rank ≤ n ↔
    (∀ m ∈ p.modules, (levelOf g config m).rank ≤ n) ∧
      (p.isCycle = true → RiskLevel.high.rank ≤ n) := by
  rw [h.risk_phase hp hpp]
  split
  · rename_i hcycle
    rw [RiskLevel.rank_atLeast_le_iff, RiskLevel.rank_highest_le_iff, List.forall_mem_map]
    simp [hcycle]
  · rename_i hcycle
    rw [RiskLevel.rank_highest_le_iff, List.forall_mem_map]
    simp [hcycle]

variable (hm : g.Mirrored) (hok : g.components = .ok components)
include hm hok

theorem rank_risk_le_iff : plan.risk.rank ≤ n ↔
    (∀ m ∈ g.nodes, (levelOf g config m).rank ≤ n) ∧
      ((∃ m, g.OnCycle m) → RiskLevel.high.rank ≤ n) := by
  rw [h.risk, RiskLevel.rank_highest_le_iff, List.forall_mem_map]
  constructor
  · intro hall
    have hphase : ∀ m ∈ g.nodes, ∃ p ∈ plan.phases, m ∈ p.modules ∧ p.risk.rank ≤ n := by
      intro m hmn
      obtain ⟨p, ⟨hpp, hmp⟩, -⟩ := h.made.existsUnique_phase hp hmn
      exact ⟨p, hpp, hmp, hall p hpp⟩
    constructor
    · intro m hmn
      obtain ⟨p, hpp, hmp, hle⟩ := hphase m hmn
      exact ((h.rank_phase_le_iff hp hpp).1 hle).1 m hmp
    · rintro ⟨m, hcycle⟩
      obtain ⟨p, hpp, hmp, hle⟩ := hphase m (hm.mem_nodes_of_onCycle hcycle)
      exact ((h.rank_phase_le_iff hp hpp).1 hle).2 ((h.made.onCycle_iff hp hm hok hpp hmp).1 hcycle)
  · rintro ⟨hlevels, hhigh⟩ p hpp
    refine (h.rank_phase_le_iff hp hpp).2 ⟨fun m hmp => ?_, fun hcycle => ?_⟩
    · exact hlevels m (h.made.mem_nodes hp hpp hmp)
    · obtain ⟨m, hmp⟩ := h.made.exists_mem_modules hp hpp
      exact hhigh ⟨m, (h.made.onCycle_iff hp hm hok hpp hmp).2 hcycle⟩

theorem graded : Graded g config plan where
  placed _ hmn := h.made.existsUnique_phase hp hmn
  onCycle_iff _ hpp _ hmp := h.made.onCycle_iff hp hm hok hpp hmp
  phase _ hpp hcycle := by rw [h.risk_phase hp hpp, hcycle, if_neg Bool.false_ne_true]
  cycle _ hpp hcycle := by rw [h.risk_phase hp hpp, if_pos hcycle]
  total hacyclic := by
    refine RiskLevel.eq_of_rank_le_iff fun n => ?_
    rw [h.rank_risk_le_iff hp hm hok, RiskLevel.rank_highest_le_iff, List.forall_mem_map]
    exact and_iff_left fun ⟨m, hcycle⟩ => absurd hcycle (hacyclic m)
  total_cycle hcycle := by
    refine RiskLevel.eq_of_rank_le_iff fun n => ?_
    rw [h.rank_risk_le_iff hp hm hok, RiskLevel.rank_atLeast_le_iff,
      RiskLevel.rank_highest_le_iff, List.forall_mem_map]
    exact and_congr_right fun _ => forall_prop_of_true hcycle

end Composed

theorem Graded.empty (hm : g.Mirrored) (hg : g.nodes = []) : Graded g config {} where
  placed _ hmn := absurd hmn (hg ▸ List.not_mem_nil)
  onCycle_iff _ hp := absurd hp List.not_mem_nil
  phase _ hp := absurd hp List.not_mem_nil
  cycle _ hp := absurd hp List.not_mem_nil
  total _ := by
    rw [hg]
    rfl
  total_cycle := by
    rintro ⟨m, hcycle⟩
    exact absurd (hm.mem_nodes_of_onCycle hcycle) (hg ▸ List.not_mem_nil)

/-- The plan for a graph that was read is as risky as its modules and cycles are, phase by phase and
as a whole. -/
theorem make_graded {edges isolated : Value} {given : DependencyRanking.Setting → Value}
    (hg : ModuleGraph.read? edges isolated = .ok g) (hc : RankingConfig.check given = .ok config) :
    ∃ components, g.components = .ok components ∧
      (g.nodeCount < 2 ^ 1023 → ∃ plan, make g components
        (couplingTable g : Table ModuleId (CouplingMetrics Float)) config = .ok plan) ∧
      ∀ plan, make g components
        (couplingTable g : Table ModuleId (CouplingMetrics Float)) config = .ok plan →
          Graded g config plan := by
  have hm := ModuleGraph.mirrored_of_read? hg
  obtain ⟨components, hok, hp, hex, hall⟩ := exists_composed hg hc
  refine ⟨components, hok, hex, fun plan hplan => ?_⟩
  rcases hall plan hplan with ⟨hnodes, rfl⟩ | ⟨metrics, levels, h⟩
  · exact Graded.empty hm hnodes
  · exact h.graded hp hm hok

theorem make_graded_cycle : ∃ g components plan,
    ModuleGraph.read? (.list [.tuple [.text "a", .text "b"], .tuple [.text "b", .text "a"],
      .tuple [.text "c", .text "a"]]) (.list [.text "d"]) = .ok g ∧
    RankingConfig.check DependencyRanking.Setting.default = .ok {} ∧ g.components = .ok components ∧
    make g components (couplingTable g : Table ModuleId (CouplingMetrics Float)) {} = .ok plan ∧
    Graded g {} plan ∧
    plan.risk = (RiskLevel.highest (g.nodes.map (levelOf g {}))).atLeast .high := by
  have hg : ModuleGraph.read? (.list [.tuple [.text "a", .text "b"],
      .tuple [.text "b", .text "a"], .tuple [.text "c", .text "a"]]) (.list [.text "d"]) =
    .ok (.ofEdges [("a", "b"), ("b", "a"), ("c", "a")] ["d"]) := rfl
  obtain ⟨components, hok, hex, hall⟩ := make_graded hg RankingConfig.check_default
  obtain ⟨plan, hplan⟩ := hex (lt_two_pow (by decide) (by decide))
  have hr := hall plan hplan
  refine ⟨_, components, plan, hg, RankingConfig.check_default, hok, hplan, hr, ?_⟩
  refine hr.total_cycle ⟨"a", Relation.TransGen.tail (.single (b := "b") ?_) ?_⟩
  · simp [ModuleGraph.depends_ofEdges]
  · simp [ModuleGraph.depends_ofEdges]

end Plan

end DependencyRanking
