import DependencyRanking.Proofs.Number.Value
import DependencyRanking.Proofs.Settings.Check

/-!
# What the check of a configuration rejects

The check makes its demands on the given values one after the other, and the first that is not met
decides the error. A number that is only bounded from below may also be undefined.
-/
namespace DependencyRanking.RankingConfig

/-- What is asked of given values, and the setting under which it is reported. -/
structure Demand where
  setting : Setting
  met : (Setting → Value) → Bool
  fault : SettingFault

namespace Demand

def onNumber (s : Setting) (holds : Number → Bool) (fault : SettingFault) : Demand where
  setting := s
  met given :=
    match given s with
    | .number n => holds n
    | _ => false
  fault := fault

def ifGiven (s : Setting) (holds : Number → Bool) (fault : SettingFault) : Demand where
  setting := s
  met given :=
    match given s with
    | .absent => true
    | .number n => holds n
    | _ => false
  fault := fault

def falling (critical high medium : Setting) (fault : SettingFault) : Demand where
  setting := critical
  met given :=
    match given critical, given high, given medium with
    | .number c, .number h, .number m => h ≤ c && m ≤ h
    | _, _, _ => false
  fault := fault

def error (given : Setting → Value) (d : Demand) : RankingError :=
  match given d.setting with
  | .number n => .invalidSetting d.setting.name (.number n) d.fault
  | _ => .wrongType

end Demand

def isPositive (n : Number) : Bool := Number.int 0 < n || n.isUndefined

def isAtLeastOne (n : Number) : Bool := Number.int 1 ≤ n || n.isUndefined

def demands : List Demand :=
  [.onNumber .damping isOpenUnit .outsideOpenUnit,
    .onNumber .tolerance isPositive .notPositive,
    .onNumber .iterations isAtLeastOne .belowOne,
    .onNumber .criticalPercentile isPercent .outsidePercent,
    .onNumber .highPercentile isPercent .outsidePercent,
    .onNumber .mediumPercentile isPercent .outsidePercent,
    .falling .criticalPercentile .highPercentile .mediumPercentile .percentilesOutOfOrder,
    .onNumber .coreQuantile isUnit .outsideUnit,
    .onNumber .criticalRisk isUnit .outsideUnit,
    .onNumber .highRisk isUnit .outsideUnit,
    .onNumber .mediumRisk isUnit .outsideUnit,
    .falling .criticalRisk .highRisk .mediumRisk .risksOutOfOrder,
    .ifGiven .hotspotLimit isAtLeastOne .belowOne,
    .ifGiven .workers isAtLeastOne .belowOne]

def firstUnmet? (demands : List Demand) (given : Setting → Value) : Option Demand :=
  demands.find? fun d => !d.met given

section Failure

variable {given : Setting → Value} {s critical high medium : Setting}
variable {holds holds' : Number → Bool} {fault : SettingFault} {d : Demand} {rest : List Demand}
variable {α β : Type} {x : Except RankingError α} {f : α → Except RankingError β}

theorem isPositive_eq (n : Number) : (!decide (n ≤ Number.int 0)) = isPositive n := by
  have h := Number.not_le_iff (a := n) (b := .int 0) WithBot.coe_ne_bot
  unfold isPositive
  rw [Bool.eq_iff_iff, Bool.or_eq_true, decide_eq_true_eq, ← h]
  simp

theorem isAtLeastOne_eq (n : Number) : (!decide (n < Number.int 1)) = isAtLeastOne n := by
  have h := Number.not_lt_iff (a := n) (b := .int 1) WithBot.coe_ne_bot
  unfold isAtLeastOne
  rw [Bool.eq_iff_iff, Bool.or_eq_true, decide_eq_true_eq, ← h]
  simp

theorem failure?_demand (h : ∀ n, holds n = holds' n) :
    Outcome.failure? (demand given s holds fault) =
      bif (Demand.onNumber s holds' fault).met given then none
      else some ((Demand.onNumber s holds' fault).error given) := by
  unfold demand Demand.onNumber Demand.error
  dsimp only
  cases hs : given s with
  | number n =>
    simp only [Number.ofValue, bind, Except.bind, h]
    cases holds' n <;> rfl
  | _ => rfl

theorem failure?_demandIfGiven (h : ∀ n, holds n = holds' n) :
    Outcome.failure? (demandIfGiven given s holds fault) =
      bif (Demand.ifGiven s holds' fault).met given then none
      else some ((Demand.ifGiven s holds' fault).error given) := by
  unfold demandIfGiven demand Demand.ifGiven Demand.error
  dsimp only
  cases hs : given s with
  | number n =>
    simp only [Number.ofValue, bind, Except.bind, h]
    cases holds' n <;> rfl
  | _ => rfl

theorem failure?_inOrder {c h m : Number} (hc : given critical = .number c)
    (hh : given high = .number h) (hm : given medium = .number m) :
    Outcome.failure? (inOrder given critical ⟨c, h, m⟩ fault) =
      bif (Demand.falling critical high medium fault).met given then none
      else some ((Demand.falling critical high medium fault).error given) := by
  unfold inOrder Demand.falling Demand.error
  by_cases hf : h ≤ c ∧ m ≤ h
  · simp [hc, hh, hm, hf, Outcome.failure?]
  · have hmet : (decide (h ≤ c) && decide (m ≤ h)) = false := by simpa using hf
    simp [hc, hh, hm, hf, hmet, Outcome.failure?]

theorem failure?_step
    (hx : Outcome.failure? x = bif d.met given then none else some (d.error given))
    (hf : ∀ a, x = .ok a →
      Outcome.failure? (f a) = (firstUnmet? rest given).map (Demand.error given)) :
    Outcome.failure? (x >>= f) = (firstUnmet? (d :: rest) given).map (Demand.error given) := by
  rw [Outcome.failure?_bind hf, hx]
  unfold firstUnmet?
  cases hd : d.met given with
  | true => simp [hd]
  | false => simp [hd]

theorem failure?_check (given : Setting → Value) : Outcome.failure? (check given) =
    (firstUnmet? demands given).map (Demand.error given) := by
  unfold check demands
  refine failure?_step (failure?_demand fun _ => rfl) fun damping _ => ?_
  refine failure?_step (failure?_demand isPositive_eq) fun tolerance _ => ?_
  refine failure?_step (failure?_demand isAtLeastOne_eq) fun iterations _ => ?_
  refine failure?_step (failure?_demand fun _ => rfl) fun critical hcritical => ?_
  refine failure?_step (failure?_demand fun _ => rfl) fun high hhigh => ?_
  refine failure?_step (failure?_demand fun _ => rfl) fun medium hmedium => ?_
  refine failure?_step (failure?_inOrder (demand_eq_ok.1 hcritical).1 (demand_eq_ok.1 hhigh).1
    (demand_eq_ok.1 hmedium).1) fun _ _ => ?_
  refine failure?_step (failure?_demand fun _ => rfl) fun coreQuantile _ => ?_
  refine failure?_step (failure?_demand fun _ => rfl) fun criticalRisk hcriticalRisk => ?_
  refine failure?_step (failure?_demand fun _ => rfl) fun highRisk hhighRisk => ?_
  refine failure?_step (failure?_demand fun _ => rfl) fun mediumRisk hmediumRisk => ?_
  refine failure?_step (failure?_inOrder (demand_eq_ok.1 hcriticalRisk).1
    (demand_eq_ok.1 hhighRisk).1 (demand_eq_ok.1 hmediumRisk).1) fun _ _ => ?_
  refine failure?_step (failure?_demandIfGiven isAtLeastOne_eq) fun hotspotLimit _ => ?_
  refine failure?_step (failure?_demandIfGiven isAtLeastOne_eq) fun workers _ => ?_
  rfl

end Failure

/-- The constraints on a configuration. Of the numbers that are bounded from below only, some may be
exempt. -/
structure Lawful (exempt : Number → Prop) (c : RankingConfig) : Prop where
  damping : isOpenUnit c.damping = true
  tolerance : Number.int 0 < c.tolerance ∨ exempt c.tolerance
  iterations : Number.int 1 ≤ c.iterations ∨ exempt c.iterations
  percentiles : Falling c.percentiles isPercent
  coreQuantile : isUnit c.coreQuantile = true
  risks : Falling c.risks isUnit
  hotspotLimit : ∀ n, c.hotspotLimit = some n → Number.int 1 ≤ n ∨ exempt n
  workers : ∀ n, c.workers = some n → Number.int 1 ≤ n ∨ exempt n

def boundedBelow (c : RankingConfig) : List Number :=
  [c.tolerance, c.iterations] ++ c.hotspotLimit.toList ++ c.workers.toList

variable {c : RankingConfig} {exempt : Number → Prop}

theorem lawful_iff_checked : Lawful (·.isUndefined = true) c ↔ Checked c := by
  have hzero (n : Number) : ¬ n ≤ Number.int 0 ↔ Number.int 0 < n ∨ n.isUndefined = true :=
    Number.not_le_iff WithBot.coe_ne_bot
  have hone (n : Number) : ¬ n < Number.int 1 ↔ Number.int 1 ≤ n ∨ n.isUndefined = true :=
    Number.not_lt_iff WithBot.coe_ne_bot
  constructor
  · intro h
    exact {
      damping := h.damping
      tolerance := (hzero _).2 h.tolerance
      iterations := (hone _).2 h.iterations
      percentiles := h.percentiles
      coreQuantile := h.coreQuantile
      risks := h.risks
      hotspotLimit := fun n hn => (hone n).2 (h.hotspotLimit n hn)
      workers := fun n hn => (hone n).2 (h.workers n hn) }
  · intro h
    exact {
      damping := h.damping
      tolerance := (hzero _).1 h.tolerance
      iterations := (hone _).1 h.iterations
      percentiles := h.percentiles
      coreQuantile := h.coreQuantile
      risks := h.risks
      hotspotLimit := fun n hn => (hone n).1 (h.hotspotLimit n hn)
      workers := fun n hn => (hone n).1 (h.workers n hn) }

theorem isPositive_iff {n : Number} :
    isPositive n = true ↔ Number.int 0 < n ∨ n.isUndefined = true := by
  simp [isPositive]

theorem isAtLeastOne_iff {n : Number} :
    isAtLeastOne n = true ↔ Number.int 1 ≤ n ∨ n.isUndefined = true := by
  simp [isAtLeastOne]

theorem met_ifGiven {given : Setting → Value} {s : Setting} {holds : Number → Bool}
    {fault : SettingFault} {n : Option Number}
    (hs : given s = (n.map Value.number).getD .absent) :
    (Demand.ifGiven s holds fault).met given = true ↔ ∀ k, n = some k → holds k = true := by
  unfold Demand.ifGiven
  cases n <;> simp [hs]

theorem met_falling {given : Setting → Value} {critical high medium : Setting}
    {fault : SettingFault} {k : RiskCutoffs} (hc : given critical = .number k.critical)
    (hh : given high = .number k.high) (hm : given medium = .number k.medium) :
    (Demand.falling critical high medium fault).met given = true ↔
      k.high ≤ k.critical ∧ k.medium ≤ k.high := by
  unfold Demand.falling
  simp [hc, hh, hm]

theorem firstUnmet?_eq_none :
    firstUnmet? demands c.value = none ↔ Lawful (·.isUndefined = true) c := by
  have hall : firstUnmet? demands c.value = none ↔ ∀ d ∈ demands, d.met c.value = true := by
    simp [firstUnmet?]
  rw [hall]
  simp only [demands, List.forall_mem_cons]
  constructor
  · rintro ⟨hdamping, htolerance, hiterations, hcritical, hhigh, hmedium, hpercentiles, hcore,
      hcriticalRisk, hhighRisk, hmediumRisk, hrisks, hlimit, hworkers, -⟩
    have hpercentiles := (met_falling (k := c.percentiles) rfl rfl rfl).1 hpercentiles
    have hrisks := (met_falling (k := c.risks) rfl rfl rfl).1 hrisks
    exact {
      damping := hdamping
      tolerance := isPositive_iff.1 htolerance
      iterations := isAtLeastOne_iff.1 hiterations
      percentiles := ⟨hcritical, hhigh, hmedium, hpercentiles.1, hpercentiles.2⟩
      coreQuantile := hcore
      risks := ⟨hcriticalRisk, hhighRisk, hmediumRisk, hrisks.1, hrisks.2⟩
      hotspotLimit := fun n hn => isAtLeastOne_iff.1 ((met_ifGiven rfl).1 hlimit n hn)
      workers := fun n hn => isAtLeastOne_iff.1 ((met_ifGiven rfl).1 hworkers n hn) }
  · intro h
    exact ⟨h.damping, isPositive_iff.2 h.tolerance, isAtLeastOne_iff.2 h.iterations,
      h.percentiles.critical, h.percentiles.high, h.percentiles.medium,
      (met_falling (k := c.percentiles) rfl rfl rfl).2
        ⟨h.percentiles.high_le, h.percentiles.medium_le⟩,
      h.coreQuantile, h.risks.critical, h.risks.high, h.risks.medium,
      (met_falling (k := c.risks) rfl rfl rfl).2 ⟨h.risks.high_le, h.risks.medium_le⟩,
      (met_ifGiven rfl).2 fun n hn => isAtLeastOne_iff.2 (h.hotspotLimit n hn),
      (met_ifGiven rfl).2 fun n hn => isAtLeastOne_iff.2 (h.workers n hn),
      List.forall_mem_nil _⟩

theorem check_value_eq_ok {d : RankingConfig} : check c.value = .ok d ↔
    d = c ∧ Lawful (·.isUndefined = true) c := by
  constructor
  · intro h
    have hnone : firstUnmet? demands c.value = none := by
      simpa [h, Outcome.failure?] using failure?_check c.value
    have hc := firstUnmet?_eq_none.1 hnone
    rw [check_value (lawful_iff_checked.1 hc)] at h
    exact ⟨(Except.ok.inj h).symm, hc⟩
  · rintro ⟨rfl, hc⟩
    exact check_value (lawful_iff_checked.1 hc)

theorem lawful_iff_defined : Lawful (fun _ => False) c ↔
    Lawful (·.isUndefined = true) c ∧ ∀ n ∈ c.boundedBelow, n.isUndefined = false := by
  -- an undefined number is above nothing
  have hbound {n m : Number} (h : m < n ∨ m ≤ n) : n.isUndefined = false := by
    rw [Bool.eq_false_iff, ne_eq, Number.isUndefined_iff]
    rcases h with h | h
    · exact fun hn => not_lt_bot (hn ▸ (Number.lt_iff_value.1 h).2)
    · exact fun hn => (Number.le_iff_value.1 h).1 (le_bot_iff.1 (hn ▸ (Number.le_iff_value.1 h).2))
  constructor
  · intro h
    refine ⟨{ h with
      tolerance := h.tolerance.imp_right False.elim
      iterations := h.iterations.imp_right False.elim
      hotspotLimit := fun n hn => (h.hotspotLimit n hn).imp_right False.elim
      workers := fun n hn => (h.workers n hn).imp_right False.elim }, fun n hn => ?_⟩
    simp only [boundedBelow, List.mem_append, List.mem_cons, Option.mem_toList,
      List.not_mem_nil, or_false] at hn
    rcases hn with ((rfl | rfl) | hn) | hn
    · exact hbound (.inl (h.tolerance.resolve_right id))
    · exact hbound (.inr (h.iterations.resolve_right id))
    · exact hbound (.inr ((h.hotspotLimit n hn).resolve_right id))
    · exact hbound (.inr ((h.workers n hn).resolve_right id))
  · rintro ⟨h, hdefined⟩
    have hexempt {n : Number} {p : Prop} (hn : n ∈ c.boundedBelow) :
        p ∨ n.isUndefined = true → p ∨ False :=
      .imp_right fun hu => Bool.false_ne_true ((hdefined n hn).symm.trans hu)
    exact { h with
      tolerance := hexempt (by simp [boundedBelow]) h.tolerance
      iterations := hexempt (by simp [boundedBelow]) h.iterations
      hotspotLimit := fun n hn => hexempt (by simp [boundedBelow, hn]) (h.hotspotLimit n hn)
      workers := fun n hn => hexempt (by simp [boundedBelow, hn]) (h.workers n hn) }

theorem error_of_unmet {d : Demand} (h : firstUnmet? demands c.value = some d) :
    d.error c.value = .invalidSetting d.setting.name (c.value d.setting) d.fault := by
  have hnumber : ∀ d ∈ demands, d.met c.value = false → ∃ n, c.value d.setting = .number n := by
    have hgiven {s : Setting} {holds : Number → Bool} {fault : SettingFault} {n : Option Number}
        (hs : c.value s = (n.map Value.number).getD .absent)
        (hd : (Demand.ifGiven s holds fault).met c.value = false) :
        ∃ k, c.value s = .number k := by
      cases n with
      | none =>
        have hmet : (Demand.ifGiven s holds fault).met c.value = true :=
          (met_ifGiven hs).2 fun k hk => nomatch hk
        exact Bool.noConfusion (hmet.symm.trans hd)
      | some k => exact ⟨k, hs⟩
    simp only [demands, List.forall_mem_cons]
    exact ⟨fun _ => ⟨_, rfl⟩, fun _ => ⟨_, rfl⟩, fun _ => ⟨_, rfl⟩, fun _ => ⟨_, rfl⟩,
      fun _ => ⟨_, rfl⟩, fun _ => ⟨_, rfl⟩, fun _ => ⟨_, rfl⟩, fun _ => ⟨_, rfl⟩,
      fun _ => ⟨_, rfl⟩, fun _ => ⟨_, rfl⟩, fun _ => ⟨_, rfl⟩, fun _ => ⟨_, rfl⟩,
      hgiven rfl, hgiven rfl, List.forall_mem_nil _⟩
  obtain ⟨n, hn⟩ := hnumber d (List.mem_of_find?_eq_some h) (by simpa using List.find?_some h)
  simp [Demand.error, hn]

/-- Numbers make up a configuration, the one that they are the values of, just if they obey the
constraints or are exempt as undefined. Otherwise the first constraint that is broken is reported,
under its setting, unless the number in the report is too long to be written. -/
theorem check_value_rejects_first (c : RankingConfig) :
    (∀ d, check c.value = .ok d ↔ d = c ∧ Lawful (·.isUndefined = true) c) ∧
    (Lawful (fun _ => False) c ↔
      Lawful (·.isUndefined = true) c ∧ ∀ n ∈ c.boundedBelow, n.isUndefined = false) ∧
    (firstUnmet? demands c.value = none ↔ Lawful (·.isUndefined = true) c) ∧
    ∀ error, check c.value = .error error ↔ ∃ d, firstUnmet? demands c.value = some d ∧
      error = .invalidSetting d.setting.name (c.value d.setting) d.fault ∧
      (error.report?.isSome ↔ (c.value d.setting).isWritable = true) := by
  refine ⟨fun d => check_value_eq_ok, lawful_iff_defined, firstUnmet?_eq_none, fun error => ?_⟩
  rw [← Outcome.failure?_eq_some, failure?_check, Option.map_eq_some_iff]
  refine exists_congr fun d => and_congr_right fun hd => ?_
  rw [error_of_unmet hd]
  constructor
  · rintro rfl
    refine ⟨rfl, ?_⟩
    cases hw : (c.value d.setting).isWritable <;> simp [RankingError.report?, hw]
  · exact fun h => h.1.symm

/-- An undefined tolerance is not positive, and is accepted. -/
theorem exists_undefined_accepted :
    ∃ c : RankingConfig, ¬ Number.int 0 < c.tolerance ∧ check c.value = .ok c :=
  ⟨{ tolerance := .float (0.0 / 0.0) }, by decide +kernel,
    check_value { checked_default with tolerance := by decide +kernel }⟩

end DependencyRanking.RankingConfig
