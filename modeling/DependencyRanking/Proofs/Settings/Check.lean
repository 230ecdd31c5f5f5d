import DependencyRanking.Proofs.Outcome
import DependencyRanking.Settings.Config

/-!
# What a checked configuration holds

A setting that passes its demand is a number of the demanded kind. A configuration that meets all
demands is made up by its own values again, and the defaults are such a configuration.
-/
namespace DependencyRanking.RankingConfig

variable {given : Setting → Value} {config : RankingConfig}

theorem demand_eq_ok {s : Setting} {holds : Number → Bool} {fault : SettingFault} {n : Number} :
    demand given s holds fault = .ok n ↔ given s = .number n ∧ holds n = true := by
  unfold demand Number.ofValue
  rw [Outcome.bind_eq_ok]
  constructor
  · rintro ⟨k, hk, hn⟩
    split at hk
    · rename_i l hl
      cases hk
      split at hn
      · rename_i hh
        cases hn
        exact ⟨hl, hh⟩
      · cases hn
    · cases hk
  · rintro ⟨hg, hh⟩
    exact ⟨n, by rw [hg], if_pos hh⟩

theorem demandIfGiven_eq_ok {s : Setting} {holds : Number → Bool} {fault : SettingFault}
    {n : Option Number} (h : demandIfGiven given s holds fault = .ok n) :
    ∀ k, n = some k → holds k = true := by
  unfold demandIfGiven at h
  split at h
  · cases h
    exact fun k hk => nomatch hk
  · rename_i hgiven
    cases hd : demand given s holds fault with
    | error e =>
      rw [hd] at h
      cases h
    | ok k =>
      rw [hd] at h
      cases h
      rintro _ ⟨⟩
      exact (demand_eq_ok.1 hd).2

theorem inOrder_eq_ok {s : Setting} {c : RiskCutoffs} {fault : SettingFault} :
    inOrder given s c fault = .ok () ↔ c.high ≤ c.critical ∧ c.medium ≤ c.high := by
  unfold inOrder
  split <;> simp [*]

structure Falling (c : RiskCutoffs) (holds : Number → Bool) : Prop where
  critical : holds c.critical = true
  high : holds c.high = true
  medium : holds c.medium = true
  high_le : c.high ≤ c.critical
  medium_le : c.medium ≤ c.high

structure Checked (c : RankingConfig) : Prop where
  damping : isOpenUnit c.damping = true
  tolerance : ¬ c.tolerance ≤ Number.int 0
  iterations : ¬ c.iterations < Number.int 1
  percentiles : Falling c.percentiles isPercent
  coreQuantile : isUnit c.coreQuantile = true
  risks : Falling c.risks isUnit
  hotspotLimit : ∀ n, c.hotspotLimit = some n → ¬ n < Number.int 1
  workers : ∀ n, c.workers = some n → ¬ n < Number.int 1

theorem checked_of_check (h : check given = .ok config) : Checked config := by
  unfold check at h
  obtain ⟨damping, hdamping, h⟩ := Outcome.bind_eq_ok.1 h
  obtain ⟨tolerance, htolerance, h⟩ := Outcome.bind_eq_ok.1 h
  obtain ⟨iterations, hiterations, h⟩ := Outcome.bind_eq_ok.1 h
  obtain ⟨critical, hcritical, h⟩ := Outcome.bind_eq_ok.1 h
  obtain ⟨high, hhigh, h⟩ := Outcome.bind_eq_ok.1 h
  obtain ⟨medium, hmedium, h⟩ := Outcome.bind_eq_ok.1 h
  obtain ⟨⟨⟩, hpercentiles, h⟩ := Outcome.bind_eq_ok.1 h
  obtain ⟨coreQuantile, hcore, h⟩ := Outcome.bind_eq_ok.1 h
  obtain ⟨criticalRisk, hcriticalRisk, h⟩ := Outcome.bind_eq_ok.1 h
  obtain ⟨highRisk, hhighRisk, h⟩ := Outcome.bind_eq_ok.1 h
  obtain ⟨mediumRisk, hmediumRisk, h⟩ := Outcome.bind_eq_ok.1 h
  obtain ⟨⟨⟩, hrisks, h⟩ := Outcome.bind_eq_ok.1 h
  obtain ⟨hotspotLimit, hlimit, h⟩ := Outcome.bind_eq_ok.1 h
  obtain ⟨workers, hworkers, h⟩ := Outcome.bind_eq_ok.1 h
  cases h
  exact {
    damping := (demand_eq_ok.1 hdamping).2
    tolerance := by simpa using (demand_eq_ok.1 htolerance).2
    iterations := by simpa using (demand_eq_ok.1 hiterations).2
    percentiles := ⟨(demand_eq_ok.1 hcritical).2, (demand_eq_ok.1 hhigh).2,
      (demand_eq_ok.1 hmedium).2, (inOrder_eq_ok.1 hpercentiles).1, (inOrder_eq_ok.1 hpercentiles).2⟩
    coreQuantile := (demand_eq_ok.1 hcore).2
    risks := ⟨(demand_eq_ok.1 hcriticalRisk).2, (demand_eq_ok.1 hhighRisk).2,
      (demand_eq_ok.1 hmediumRisk).2, (inOrder_eq_ok.1 hrisks).1, (inOrder_eq_ok.1 hrisks).2⟩
    hotspotLimit := fun n hn => by simpa using demandIfGiven_eq_ok hlimit n hn
    workers := fun n hn => by simpa using demandIfGiven_eq_ok hworkers n hn }

theorem coreQuantile_unit (h : check given = .ok config) : isUnit config.coreQuantile = true :=
  (checked_of_check h).coreQuantile

theorem demandIfGiven_of_option {s : Setting} {holds : Number → Bool} {fault : SettingFault}
    {n : Option Number} (hs : given s = (n.map Value.number).getD .absent)
    (h : ∀ k, n = some k → holds k = true) : demandIfGiven given s holds fault = .ok n := by
  unfold demandIfGiven
  cases n with
  | none =>
    rw [hs]
    rfl
  | some k =>
    rw [demand_eq_ok.2 ⟨hs, h k rfl⟩, hs]
    rfl

theorem given_of_demandIfGiven {s : Setting} {holds : Number → Bool} {fault : SettingFault}
    {n : Option Number} (h : demandIfGiven given s holds fault = .ok n) :
    given s = (n.map Value.number).getD .absent := by
  unfold demandIfGiven at h
  split at h
  · rename_i hgiven
    cases h
    exact hgiven
  · cases hd : demand given s holds fault with
    | error e =>
      rw [hd] at h
      cases h
    | ok k =>
      rw [hd] at h
      cases h
      exact (demand_eq_ok.1 hd).1

theorem value_of_check (h : check given = .ok config) (s : Setting) : config.value s = given s := by
  unfold check at h
  obtain ⟨damping, hdamping, h⟩ := Outcome.bind_eq_ok.1 h
  obtain ⟨tolerance, htolerance, h⟩ := Outcome.bind_eq_ok.1 h
  obtain ⟨iterations, hiterations, h⟩ := Outcome.bind_eq_ok.1 h
  obtain ⟨critical, hcritical, h⟩ := Outcome.bind_eq_ok.1 h
  obtain ⟨high, hhigh, h⟩ := Outcome.bind_eq_ok.1 h
  obtain ⟨medium, hmedium, h⟩ := Outcome.bind_eq_ok.1 h
  obtain ⟨⟨⟩, -, h⟩ := Outcome.bind_eq_ok.1 h
  obtain ⟨coreQuantile, hcore, h⟩ := Outcome.bind_eq_ok.1 h
  obtain ⟨criticalRisk, hcriticalRisk, h⟩ := Outcome.bind_eq_ok.1 h
  obtain ⟨highRisk, hhighRisk, h⟩ := Outcome.bind_eq_ok.1 h
  obtain ⟨mediumRisk, hmediumRisk, h⟩ := Outcome.bind_eq_ok.1 h
  obtain ⟨⟨⟩, -, h⟩ := Outcome.bind_eq_ok.1 h
  obtain ⟨hotspotLimit, hlimit, h⟩ := Outcome.bind_eq_ok.1 h
  obtain ⟨workers, hworkers, h⟩ := Outcome.bind_eq_ok.1 h
  cases h
  cases s with
  | damping => exact (demand_eq_ok.1 hdamping).1.symm
  | tolerance => exact (demand_eq_ok.1 htolerance).1.symm
  | iterations => exact (demand_eq_ok.1 hiterations).1.symm
  | criticalPercentile => exact (demand_eq_ok.1 hcritical).1.symm
  | highPercentile => exact (demand_eq_ok.1 hhigh).1.symm
  | mediumPercentile => exact (demand_eq_ok.1 hmedium).1.symm
  | coreQuantile => exact (demand_eq_ok.1 hcore).1.symm
  | criticalRisk => exact (demand_eq_ok.1 hcriticalRisk).1.symm
  | highRisk => exact (demand_eq_ok.1 hhighRisk).1.symm
  | mediumRisk => exact (demand_eq_ok.1 hmediumRisk).1.symm
  | hotspotLimit => exact (given_of_demandIfGiven hlimit).symm
  | parallel => rfl
  | workers => exact (given_of_demandIfGiven hworkers).symm

theorem check_value {c : RankingConfig} (h : Checked c) : check c.value = .ok c := by
  have hdemand : ∀ (s : Setting) (n : Number) (holds : Number → Bool) (fault : SettingFault),
      c.value s = .number n → holds n = true → demand c.value s holds fault = .ok n :=
    fun s n holds fault hs hh => demand_eq_ok.2 ⟨hs, hh⟩
  have hpercentiles : inOrder c.value .criticalPercentile c.percentiles .percentilesOutOfOrder =
    .ok () := inOrder_eq_ok.2 ⟨h.percentiles.high_le, h.percentiles.medium_le⟩
  have hrisks : inOrder c.value .criticalRisk c.risks .risksOutOfOrder = .ok () :=
    inOrder_eq_ok.2 ⟨h.risks.high_le, h.risks.medium_le⟩
  unfold check
  rw [hdemand .damping _ _ _ rfl h.damping, hdemand .tolerance _ _ _ rfl (by simpa using h.tolerance),
    hdemand .iterations _ _ _ rfl (by simpa using h.iterations),
    hdemand .criticalPercentile _ _ _ rfl h.percentiles.critical,
    hdemand .highPercentile _ _ _ rfl h.percentiles.high,
    hdemand .mediumPercentile _ _ _ rfl h.percentiles.medium,
    hdemand .coreQuantile _ _ _ rfl h.coreQuantile,
    hdemand .criticalRisk _ _ _ rfl h.risks.critical,
    hdemand .highRisk _ _ _ rfl h.risks.high, hdemand .mediumRisk _ _ _ rfl h.risks.medium,
    demandIfGiven_of_option rfl fun n hn => by simpa using h.hotspotLimit n hn,
    demandIfGiven_of_option rfl fun n hn => by simpa using h.workers n hn]
  simp only [bind, Except.bind, hpercentiles, hrisks]
  rfl

theorem checked_default : Checked {} where
  damping := by decide +kernel
  tolerance := by decide +kernel
  iterations := by decide
  percentiles := ⟨by decide, by decide, by decide, by decide, by decide⟩
  coreQuantile := by decide +kernel
  risks := ⟨by decide +kernel, by decide +kernel, by decide +kernel, by decide, by decide⟩
  hotspotLimit _ hn := nomatch hn
  workers _ hn := nomatch hn

theorem check_default : check Setting.default = .ok {} := by
  have hvalue : Setting.default = RankingConfig.value {} := by
    funext s
    cases s <;> rfl
  rw [hvalue]
  exact check_value checked_default

end DependencyRanking.RankingConfig
