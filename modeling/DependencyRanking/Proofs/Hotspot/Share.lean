import DependencyRanking.Proofs.Hotspot
import DependencyRanking.Proofs.Settings.Check

/-!
# The share of modules at risk

Percentiles fall along the hotspots, so the hotspots that reach a cutoff are the first ones. How many
that are depends on the number of modules and on the cutoff, but neither on the scores nor on the
dependencies.
-/
namespace DependencyRanking

namespace RiskCutoffs

def cutoff? (c : RiskCutoffs) : RiskLevel → Option Number
  | .low => none
  | .medium => some c.medium
  | .high => some c.high
  | .critical => some c.critical

theorem rank_le_level_iff {c : RiskCutoffs} {level : RiskLevel} {cutoff m : Number}
    (hhigh : c.high ≤ c.critical) (hmedium : c.medium ≤ c.high) (h : c.cutoff? level = some cutoff) :
    level.rank ≤ (c.level m).rank ↔ cutoff ≤ m := by
  have hcritical_high : c.critical ≤ m → c.high ≤ m := fun hm => Number.le_trans hhigh hm
  have hhigh_medium : c.high ≤ m → c.medium ≤ m := fun hm => Number.le_trans hmedium hm
  unfold RiskCutoffs.level
  cases level with
  | low => cases h
  | medium =>
    cases h
    split_ifs <;> simp_all [RiskLevel.rank]
  | high =>
    cases h
    split_ifs <;> simp_all [RiskLevel.rank]
  | critical =>
    cases h
    split_ifs <;> simp_all [RiskLevel.rank]

end RiskCutoffs

namespace RankingConfig

theorem Falling.holds_cutoff {c : RiskCutoffs} {holds : Number → Bool} {level : RiskLevel}
    {cutoff : Number} (h : Falling c holds) (hcutoff : c.cutoff? level = some cutoff) :
    holds cutoff = true := by
  cases level with
  | low => cases hcutoff
  | medium =>
    cases hcutoff
    exact h.medium
  | high =>
    cases hcutoff
    exact h.high
  | critical =>
    cases hcutoff
    exact h.critical

theorem le_hundred {cutoff : Number} {k : Int} (h : isPercent cutoff = true)
    (hk : cutoff.toInt? = some k) : k ≤ 100 := by
  unfold isPercent at h
  rw [Bool.and_eq_true, decide_eq_true_eq, decide_eq_true_eq, Number.le_int_iff hk] at h
  exact h.2

end RankingConfig

theorem countP_eq_min {α : Type} {l : List α} {p : α → Bool} {b : Nat}
    (h : ∀ i x, l[i]? = some x → (p x = true ↔ i < b)) : l.countP p = min b l.length := by
  have htake : (l.take b).countP p = (l.take b).length := by
    apply List.countP_eq_length.2
    intro x hx
    obtain ⟨i, hi⟩ := List.mem_iff_getElem?.1 hx
    rw [List.getElem?_take] at hi
    split at hi
    · rename_i hlt
      exact (h i x hi).2 hlt
    · cases hi
  have hdrop : (l.drop b).countP p = 0 := by
    apply List.countP_eq_zero.2
    intro x hx hp
    obtain ⟨i, hi⟩ := List.mem_iff_getElem?.1 hx
    rw [List.getElem?_drop] at hi
    have hlt := (h (b + i) x hi).1 hp
    omega
  conv_lhs => rw [← List.take_append_drop b l]
  rw [List.countP_append, htake, hdrop, List.length_take, Nat.add_zero]

theorem le_percentileAt_iff {i n : Nat} (hi : i < n) (c : Int) :
    c ≤ percentileAt i n ↔ (i : Int) ≤ n * (100 - c) / 100 := by
  have hn : (0 : Int) < n := by omega
  have hmul : (n : Int) * (100 - c) = 100 * n - c * n := by ring
  unfold percentileAt
  rw [Int.natCast_ediv, Int.natCast_mul, Int.natCast_sub hi.le, Int.le_ediv_iff_mul_le hn,
    Int.le_ediv_iff_mul_le (by decide), hmul]
  generalize c * (n : Int) = x
  omega

namespace Hotspot

section Share

variable {g : ModuleGraph} {c : Centrality} {coupling : Table ModuleId (CouplingMetrics Float)}
variable {cutoffs : RiskCutoffs} {hotspots : List (Hotspot Float)} {level : RiskLevel}
variable {cutoff : Number} {k : Int}

theorem length_eq (hranked : Centrality.Ranked g c)
    (hok : classify coupling c.scores cutoffs = .ok hotspots) : hotspots.length = g.nodeCount := by
  have hlength := (modules_perm hranked hok).length_eq
  rwa [List.length_map, g.length_nodes] at hlength

variable (hranked : Centrality.Ranked g c) (hdefined : ∀ s ∈ c.scores, s.pageRank.isNaN = false)
variable (hok : classify coupling c.scores cutoffs = .ok hotspots)
variable (hfalling : RankingConfig.Falling cutoffs RankingConfig.isPercent)
variable (hcutoff : cutoffs.cutoff? level = some cutoff) (hk : cutoff.toInt? = some k)
include hranked hdefined hok hfalling hcutoff hk

theorem reaches_iff {i : Nat} {h : Hotspot Float} (hi : hotspots[i]? = some h) :
    level.rank ≤ h.risk.rank ↔ (i : Int) ≤ g.nodeCount * (100 - k) / 100 := by
  have hlt : i < g.nodeCount := by
    rw [← length_eq hranked hok]
    exact (List.getElem?_eq_some_iff.1 hi).1
  rw [(classify_eq_ok hok).2 h (List.mem_of_getElem? hi),
    RiskCutoffs.rank_le_level_iff hfalling.high_le hfalling.medium_le hcutoff,
    percentile_eq hranked hdefined hok hi, Number.le_int_iff hk, le_percentileAt_iff hlt]

theorem countP_reaches :
    (hotspots.countP (fun h => level.rank ≤ h.risk.rank) : Int) =
      min (g.nodeCount : Int) (g.nodeCount * (100 - k) / 100 + 1) := by
  have hbound : 0 ≤ (g.nodeCount : Int) * (100 - k) / 100 := by
    have hle : k ≤ 100 := RankingConfig.le_hundred (hfalling.holds_cutoff hcutoff) hk
    have hprod : 0 ≤ (g.nodeCount : Int) * (100 - k) := Int.mul_nonneg (by omega) (by omega)
    omega
  obtain ⟨b, hb⟩ := Int.eq_ofNat_of_zero_le hbound
  have hcount : hotspots.countP (fun h => level.rank ≤ h.risk.rank) =
      min (b + 1) hotspots.length := by
    apply countP_eq_min
    intro i h hi
    have hreaches := reaches_iff hranked hdefined hok hfalling hcutoff hk hi
    rw [decide_eq_true_eq, hreaches, hb]
    omega
  rw [hcount, length_eq hranked hok, hb]
  omega

end Share

/-- How many modules reach a level is fixed by its cutoff: under a checked configuration whose
cutoff for a level is the integer `k`, the hotspots of a graph of `n` modules without undefined page
ranks are at that level or above for `⌊n (100 - k) / 100⌋ + 1` modules, if there are as many. -/
theorem classify_share (g : ModuleGraph) {given : Setting → Value} {config : RankingConfig}
    (hconfig : RankingConfig.check given = .ok config) :
    (∀ k t, config.iterations.toInt? = some k → config.tolerance.nearest = .ok t →
      ∃ c, (Centrality.rank g config ∅).outcome = .ok c) ∧
    ∀ bias c, (Centrality.rank g config bias).outcome = .ok c →
      (∀ s ∈ c.scores, s.pageRank.isNaN = false) →
      ∃ hotspots, classify (couplingTable g) c.scores config.percentiles = .ok hotspots ∧
        ∀ level cutoff k, config.percentiles.cutoff? level = some cutoff → cutoff.toInt? = some k →
          (hotspots.countP (fun h => level.rank ≤ h.risk.rank) : Int) =
            min (g.nodeCount : Int) (g.nodeCount * (100 - k) / 100 + 1) := by
  constructor
  · intro k t hk ht
    exact Centrality.rank_ok hconfig hk ht
  · intro bias c hrank hdefined
    obtain ⟨run, -, -, hranked⟩ := Centrality.run_of_rank hrank
    obtain ⟨hotspots, hok⟩ :=
      classify_ok (afferent_couplingTable_nonneg g) c.scores config.percentiles
    refine ⟨hotspots, hok, ?_⟩
    intro level cutoff k hcutoff hk
    exact countP_reaches hranked hdefined hok (RankingConfig.checked_of_check hconfig).percentiles
      hcutoff hk

theorem classify_share_fork : ∃ g config c hotspots,
    ModuleGraph.read? (.list [.tuple [.text "a", .text "c"], .tuple [.text "b", .text "c"]])
      (.list []) = .ok g ∧ g.nodeCount = 3 ∧
    RankingConfig.check (RankingConfig.value config) = .ok config ∧
    (Centrality.rank g config ∅).outcome = .ok c ∧
    (∀ s ∈ c.scores, s.pageRank.isNaN = false) ∧
    classify (couplingTable g) c.scores config.percentiles = .ok hotspots ∧
    (hotspots.countP (fun h => RiskLevel.critical.rank ≤ h.risk.rank) : Int) = 1 ∧
    (hotspots.countP (fun h => RiskLevel.high.rank ≤ h.risk.rank) : Int) = 1 ∧
    (hotspots.countP (fun h => RiskLevel.medium.rank ≤ h.risk.rank) : Int) = 2 := by
  have hchecked : RankingConfig.Checked { iterations := .int 1 } :=
    { RankingConfig.checked_default with iterations := by decide }
  have hconfig := RankingConfig.check_value hchecked
  obtain ⟨hrank, hall⟩ := classify_share (.ofEdges [("a", "c"), ("b", "c")] []) hconfig
  obtain ⟨c, hc⟩ := hrank 1 1e-6 rfl rfl
  obtain ⟨hotspots, hok, hcount⟩ := hall ∅ c hc (defined_fork hc)
  exact ⟨_, _, c, hotspots, rfl, rfl, hconfig, hc, defined_fork hc, hok,
    hcount .critical _ 90 rfl rfl, hcount .high _ 75 rfl rfl, hcount .medium _ 50 rfl rfl⟩

end Hotspot

end DependencyRanking
