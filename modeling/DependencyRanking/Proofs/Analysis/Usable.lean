import DependencyRanking.Proofs.Analysis.Success
import DependencyRanking.Proofs.Settings.Sources

/-!
# Which accepted configurations can be used

The check compares values and asks for no kinds. With a configuration that was loaded, a graph with
modules has an analysis if the counts are whole numbers and no pool of undefined size is asked for,
and else it has none.
-/
namespace DependencyRanking

/-- What an analysis needs beyond the check. -/
structure RankingConfig.Usable (config : RankingConfig) : Prop where
  iterations : ∃ k, config.iterations.toInt? = some k
  hotspotLimit : ∀ n, config.hotspotLimit = some n → ∃ k, n.toInt? = some k
  workers : config.parallel.isTrue = true → ∀ n, config.workers = some n → n.isUndefined = false

namespace Number

theorem toInt?_of_whole {n : Number} (h : ∀ x, n ≠ .float x) : ∃ k, n.toInt? = some k := by
  cases n with
  | flag b => exact ⟨_, rfl⟩
  | int k => exact ⟨_, rfl⟩
  | float x => exact absurd rfl (h x)

theorem isUndefined_of_whole {n : Number} (h : ∀ x, n ≠ .float x) : n.isUndefined = false := by
  cases n with
  | flag b => rfl
  | int k => rfl
  | float x => exact absurd rfl (h x)

theorem pos_iff_defined {n : Number} (h : ¬ n < Number.int 1) :
    Number.int 0 < n ↔ n.isUndefined = false := by
  have hzero : (Number.int 0).value ≠ ⊥ := WithBot.coe_ne_bot
  have hone : (Number.int 1).value ≠ ⊥ := WithBot.coe_ne_bot
  rw [← Bool.not_eq_true, isUndefined_iff, lt_iff_value, and_iff_right hzero]
  constructor
  · exact fun hlt hn => not_lt_bot (hn ▸ hlt)
  · intro hn
    rcases (not_lt_iff hone).1 h with hle | hu
    · refine lt_of_lt_of_le ?_ (le_iff_value.1 hle).2
      rw [value_int, value_int]
      simp
    · exact absurd (isUndefined_iff.1 hu) hn

end Number

theorem SettingsSources.usable_of_load {s : SettingsSources} {config : RankingConfig}
    (hs : s.GivesWholeCounts) (h : s.load = .ok config) : config.Usable := by
  have hwhole (setting : Setting) (n : Number) (hcount : setting ∈ Setting.counts)
      (hn : config.value setting = .number n) (x : Float) : n ≠ .float x :=
    fun hx => whole_of_load hs h hcount x (hn.trans (congrArg Value.number hx))
  have hiterations := hwhole .iterations config.iterations (by decide) rfl
  have hlimit (n : Number) (hn : config.hotspotLimit = some n) :=
    hwhole .hotspotLimit n (by decide) (by simp [RankingConfig.value, hn])
  have hworkers (n : Number) (hn : config.workers = some n) :=
    hwhole .workers n (by decide) (by simp [RankingConfig.value, hn])
  exact ⟨Number.toInt?_of_whole hiterations, fun n hn => Number.toInt?_of_whole (hlimit n hn),
    fun _ n hn => Number.isUndefined_of_whole (hworkers n hn)⟩

namespace RankingAnalysis

variable {g : ModuleGraph} {config : RankingConfig} {given : Setting → Value}

theorem areStagesBegun_iff (hc : RankingConfig.check given = .ok config) :
    areStagesBegun config = true ↔
      (config.parallel.isTrue = true → ∀ n, config.workers = some n → n.isUndefined = false) := by
  have hworkers := (RankingConfig.checked_of_check hc).workers
  unfold areStagesBegun
  rw [Bool.or_eq_true, Bool.not_eq_true', ← Bool.not_eq_true, ← imp_iff_not_or]
  refine imp_congr_right fun _ => ?_
  rw [Option.all_eq_true]
  refine forall₂_congr fun n hn => ?_
  rw [decide_eq_true_eq]
  exact Number.pos_iff_defined (hworkers n hn)

theorem toInt?_of_pageRank {damping iterations tolerance : Number} {bias : Table ModuleId Number}
    {run : PageRank.Run Float} (hN : g.nodeCount ≠ 0)
    (h : Centrality.pageRank g damping iterations tolerance bias = .ok run) :
    ∃ k, iterations.toInt? = some k := by
  have hne := g.nodeCount_ne_zero_iff.1 hN
  obtain ⟨weights, cap, -, hcap, -⟩ := (Centrality.pageRank_eq_ok hne).1 h
  unfold Centrality.passesOf at hcap
  split at hcap
  · exact ⟨_, ‹_›⟩
  · cases hcap

theorem toInt?_of_limitHotspots {ν : Type} {limit : Option Number}
    {hotspots kept : List (Hotspot ν)} (h : limitHotspots limit hotspots = .ok kept) (n : Number)
    (hn : limit = some n) : ∃ k, n.toInt? = some k := by
  subst hn
  unfold limitHotspots at h
  dsimp only at h
  split at h
  · exact ⟨_, ‹_›⟩
  · cases h

theorem start_eq_none_iff (hc : RankingConfig.check given = .ok config) (hN : g.nodeCount ≠ 0) :
    start g config = none ↔
      config.parallel.isTrue = true ∧ ∃ n, config.workers = some n ∧ n.isUndefined = true := by
  have hstart : start g config = none ↔ ¬ areStagesBegun config = true := by
    unfold start
    simp [hN]
  rw [hstart, areStagesBegun_iff hc]
  simp

theorem usable_of_ok (hc : RankingConfig.check given = .ok config) (hN : g.nodeCount ≠ 0)
    {t : Traced RankingAnalysis} {a : RankingAnalysis} (hstart : start g config = some t)
    (h : t.outcome = .ok a) : config.Usable := by
  unfold start at hstart
  split at hstart
  · rename_i hbegun
    cases hstart
    obtain ⟨components, centrality, plan, hotspots, kept, -, hrank, -, -, hkept, -⟩ :=
      exists_stages hN h
    obtain ⟨run, hrun, -⟩ := Centrality.run_of_rank hrank
    exact ⟨toInt?_of_pageRank hN hrun, toInt?_of_limitHotspots hkept,
      (areStagesBegun_iff hc).1 (hbegun.resolve_left hN)⟩
  · cases hstart

theorem rank_ok_or_tooLarge {run : PageRank.Run Float} (hrun : Centrality.pageRank g config.damping
      config.iterations config.tolerance ∅ = .ok run) :
    (∃ c, (Centrality.rank g config ∅).outcome = .ok c) ∨
      run.converged = false ∧ config.tolerance.nearest = .error .numberTooLarge ∧
        (Centrality.rank g config ∅).outcome = .error .numberTooLarge := by
  obtain ⟨c, hok, -⟩ := Centrality.ofRun_ok (Centrality.map_fst_pageRank hrun)
  have hrank : (Centrality.rank g config ∅).outcome =
      (Centrality.recordEnd run config.tolerance).outcome >>= fun _ => .ok c := by
    unfold Centrality.rank
    rw [Traced.outcome_bind, Traced.ofExcept, hrun]
    change Traced.outcome (_ >>= _) = _
    rw [Traced.outcome_bind, Traced.ofExcept, hok]
  rw [hrank]
  unfold Centrality.recordEnd Centrality.toleranceText
  cases hconverged : run.converged with
  | true => exact .inl ⟨c, rfl⟩
  | false =>
    rcases Number.nearest_ok_or_tooLarge config.tolerance with ⟨t, ht⟩ | ht
    · rw [ht]
      exact .inl ⟨c, rfl⟩
    · rw [ht]
      exact .inr ⟨rfl, rfl, rfl⟩

/-- How an analysis ends that is started with a checked configuration. -/
structure Answered (g : ModuleGraph) (config : RankingConfig) : Prop where
  empty : g.nodeCount = 0 → ∃ t, start g config = some t ∧ t.outcome = .ok {}
  waits : g.nodeCount ≠ 0 → (start g config = none ↔
    config.parallel.isTrue = true ∧ ∃ n, config.workers = some n ∧ n.isUndefined = true)
  usable : g.nodeCount ≠ 0 → ∀ t a, start g config = some t → t.outcome = .ok a → config.Usable
  answers : config.Usable → ∃ t, start g config = some t ∧ ((∃ a, t.outcome = .ok a) ∨
    t.outcome = .error .numberTooLarge ∧ (2 ^ 1023 ≤ g.nodeCount ∨
      config.tolerance.nearest = .error .numberTooLarge ∧ ∃ run, run.converged = false ∧
        Centrality.pageRank g config.damping config.iterations config.tolerance ∅ = .ok run))

theorem outcome_of_usable (hg : g.Mirrored) (hc : RankingConfig.check given = .ok config)
    (hN : g.nodeCount ≠ 0) (hu : config.Usable) : (∃ a, (ofGraph g config).outcome = .ok a) ∨
    (ofGraph g config).outcome = .error .numberTooLarge ∧ (2 ^ 1023 ≤ g.nodeCount ∨
      config.tolerance.nearest = .error .numberTooLarge ∧ ∃ run, run.converged = false ∧
        Centrality.pageRank g config.damping config.iterations config.tolerance ∅ = .ok run) := by
  obtain ⟨k, hk⟩ := hu.iterations
  obtain ⟨run, hrun⟩ := Centrality.pageRank_ok g config.tolerance
    (RankingConfig.checked_of_check hc).damping hk
  rcases rank_ok_or_tooLarge hrun with ⟨c, hrank⟩ | ⟨hconverged, htolerance, herror⟩
  · exact (outcome_of_rank hg hc hN hu.hotspotLimit hrank).imp_right fun ⟨hlarge, herror⟩ =>
      ⟨herror, .inl hlarge⟩
  · obtain ⟨components, hok, -⟩ := ModuleGraph.partitioned_components hg
    refine .inr ⟨?_, .inr ⟨htolerance, run, hconverged, hrun⟩⟩
    rw [outcome_ofGraph_eq hN, outcome_measure, hok, herror]
    rfl

theorem answered_of_check (hg : g.Mirrored) (hc : RankingConfig.check given = .ok config) :
    Answered g config where
  empty hN := ⟨_, if_pos (.inl hN), ofGraph_empty hN config⟩
  waits hN := start_eq_none_iff hc hN
  usable hN _ _ hstart h := usable_of_ok hc hN hstart h
  answers hu := by
    refine ⟨_, if_pos (.inr ((areStagesBegun_iff hc).2 hu.workers)), ?_⟩
    by_cases hN : g.nodeCount = 0
    · exact .inl ⟨_, ofGraph_empty hN config⟩
    · exact outcome_of_usable hg hc hN hu

/-- With a configuration that was loaded, a graph with modules has an analysis just if the
configuration is usable, but for numbers that no double is near to. It is usable if every count that
a file or an override gives is a whole number. -/
theorem answered_of_load {s : SettingsSources} {edges isolated : Value}
    (hload : s.load = .ok config) (hg : ModuleGraph.read? edges isolated = .ok g) :
    Answered g config ∧ (s.GivesWholeCounts → config.Usable) := by
  obtain ⟨layers, -, -, hc⟩ := SettingsSources.load_eq_ok.1 hload
  exact ⟨answered_of_check (ModuleGraph.mirrored_of_read? hg) hc,
    fun hs => SettingsSources.usable_of_load hs hload⟩

theorem answered_of_load_overrides : ∃ s config g, SettingsSources.load s = .ok config ∧
    ModuleGraph.read? (.list [.tuple [.text "a", .text "b"]]) (.list []) = .ok g ∧
    Answered g config ∧ config.Usable ∧ ∃ t a, start g config = some t ∧ t.outcome = .ok a := by
  let s : SettingsSources := ⟨⟨"", .missing⟩, ⟨"", .missing⟩, none, ∅, .ofPairs [
    ("pagerank_iterations", .number (.int 5)), ("hotspot_limit", .number (.int 1)),
    ("parallel", .number (.flag true)), ("workers", .number (.int 2))]⟩
  let config : RankingConfig :=
    { iterations := .int 5
      hotspotLimit := some (.int 1)
      parallel := .number (.flag true)
      workers := some (.int 2) }
  have hload : s.load = .ok config := by
    refine SettingsSources.load_of_checked rfl (by decide) (fun setting => by cases setting <;> rfl)
      { RankingConfig.checked_default with
        iterations := by decide
        hotspotLimit := fun n hn => by cases hn; decide
        workers := fun n hn => by cases hn; decide }
  have hg : ModuleGraph.read? (.list [.tuple [.text "a", .text "b"]]) (.list []) =
    .ok (.ofEdges [("a", "b")] []) := rfl
  have hu : config.Usable := ⟨⟨5, rfl⟩, fun n hn => by cases hn; exact ⟨1, rfl⟩,
    fun _ n hn => by cases hn; rfl⟩
  have h := (answered_of_load hload hg).1
  refine ⟨s, config, _, hload, hg, h, hu, ?_⟩
  obtain ⟨t, hstart, ⟨a, ha⟩ | ⟨-, hlarge | ⟨htolerance, -⟩⟩⟩ := h.answers hu
  · exact ⟨t, a, hstart, ha⟩
  · have hcount : (ModuleGraph.ofEdges [("a", "b")] []).nodeCount < 2 ^ 3 := by decide
    exact absurd hlarge (Plan.lt_two_pow hcount (by decide)).not_ge
  · cases htolerance

/-- A fraction for the number of passes is accepted, and so is a pool of undefined size. With the
first no analysis of an edge comes to its end, with the second none is begun. -/
theorem exists_accepted_unusable :
    (∃ s config g, SettingsSources.load s = .ok config ∧
      ModuleGraph.read? (.list [.tuple [.text "a", .text "b"]]) (.list []) = .ok g ∧
      ∃ t, start g config = some t ∧ ∀ a, t.outcome ≠ .ok a) ∧
    ∃ s config g, SettingsSources.load s = .ok config ∧
      ModuleGraph.read? (.list [.tuple [.text "a", .text "b"]]) (.list []) = .ok g ∧
      start g config = none := by
  let sources (entries : List (String × Value)) : SettingsSources :=
    ⟨⟨"", .missing⟩, ⟨"", .missing⟩, none, ∅, .ofPairs entries⟩
  let fraction : RankingConfig := { iterations := .float 100.0 }
  let pool : RankingConfig :=
    { parallel := .number (.flag true), workers := some (.float (0.0 / 0.0)) }
  have hfraction : RankingConfig.Checked fraction :=
    { RankingConfig.checked_default with iterations := by decide +kernel }
  have hpool : RankingConfig.Checked pool :=
    { RankingConfig.checked_default with workers := fun n hn => by cases hn; decide +kernel }
  have hg : ModuleGraph.read? (.list [.tuple [.text "a", .text "b"]]) (.list []) =
    .ok (.ofEdges [("a", "b")] []) := rfl
  have hN : (ModuleGraph.ofEdges [("a", "b")] []).nodeCount ≠ 0 := by decide
  refine ⟨⟨sources [("pagerank_iterations", .number (.float 100.0))], fraction, _, ?_, hg, _,
    if_pos (.inr rfl), fun a ha => ?_⟩,
    ⟨sources [("parallel", .number (.flag true)), ("workers", .number (.float (0.0 / 0.0)))],
      pool, _, ?_, hg, ?_⟩⟩
  · exact SettingsSources.load_of_checked rfl (by decide)
      (fun setting => by cases setting <;> rfl) hfraction
  · have hstart : start (.ofEdges [("a", "b")] []) fraction = some (ofGraph _ fraction) :=
      if_pos (.inr rfl)
    obtain ⟨k, hk⟩ :=
      (usable_of_ok (RankingConfig.check_value hfraction) hN hstart ha).iterations
    cases hk
  · exact SettingsSources.load_of_checked rfl (by decide)
      (fun setting => by cases setting <;> rfl) hpool
  · refine (start_eq_none_iff (RankingConfig.check_value hpool) hN).2 ⟨rfl, _, rfl, ?_⟩
    decide +kernel

end RankingAnalysis

end DependencyRanking
