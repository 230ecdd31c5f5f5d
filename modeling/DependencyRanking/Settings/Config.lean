import DependencyRanking.Number.Nearest
import DependencyRanking.Risk

/-!
# The configuration of a ranking

Thirteen settings with names and defaults. `RankingConfig.check` turns given values into a
configuration, or names the first setting that breaks a rule. Numbers keep the form in which they
were given.
-/
namespace DependencyRanking

inductive Setting where
  | damping
  | tolerance
  | iterations
  | criticalPercentile
  | highPercentile
  | mediumPercentile
  | coreQuantile
  | criticalRisk
  | highRisk
  | mediumRisk
  | hotspotLimit
  | parallel
  | workers
deriving DecidableEq, Repr

namespace Setting

def all : List Setting :=
  [damping, tolerance, iterations, criticalPercentile, highPercentile, mediumPercentile,
    coreQuantile, criticalRisk, highRisk, mediumRisk, hotspotLimit, parallel, workers]

theorem mem_all (s : Setting) : s ∈ all := by cases s <;> decide

def name : Setting → String
  | damping => "pagerank_damping"
  | tolerance => "pagerank_tolerance"
  | iterations => "pagerank_iterations"
  | criticalPercentile => "critical_percentile"
  | highPercentile => "high_percentile"
  | mediumPercentile => "medium_percentile"
  | coreQuantile => "core_quantile"
  | criticalRisk => "phase_critical_risk"
  | highRisk => "phase_high_risk"
  | mediumRisk => "phase_medium_risk"
  | hotspotLimit => "hotspot_limit"
  | parallel => "parallel"
  | workers => "workers"

def isName (key : String) : Bool := all.any (·.name = key)

def default : Setting → Value
  | damping => .number (.float 0.85)
  | tolerance => .number (.float 1e-6)
  | iterations => .number (.int 100)
  | criticalPercentile => .number (.int 90)
  | highPercentile => .number (.int 75)
  | mediumPercentile => .number (.int 50)
  | coreQuantile => .number (.float 0.9)
  | criticalRisk => .number (.float 0.8)
  | highRisk => .number (.float 0.6)
  | mediumRisk => .number (.float 0.4)
  | hotspotLimit => .absent
  | parallel => .number (.flag false)
  | workers => .absent

end Setting

structure RankingConfig where
  damping : Number := .float 0.85
  tolerance : Number := .float 1e-6
  iterations : Number := .int 100
  percentiles : RiskCutoffs := ⟨.int 90, .int 75, .int 50⟩
  coreQuantile : Number := .float 0.9
  risks : RiskCutoffs := ⟨.float 0.8, .float 0.6, .float 0.4⟩
  hotspotLimit : Option Number := none
  parallel : Value := .number (.flag false)
  workers : Option Number := none

namespace RankingConfig

def demand (given : Setting → Value) (s : Setting) (holds : Number → Bool) (fault : SettingFault) :
    Except RankingError Number := do
  let n ← Number.ofValue (given s)
  if holds n then .ok n else .error (.invalidSetting s.name (given s) fault)

def demandIfGiven (given : Setting → Value) (s : Setting) (holds : Number → Bool)
    (fault : SettingFault) : Except RankingError (Option Number) :=
  match given s with
  | .absent => .ok none
  | _ => some <$> demand given s holds fault

def inOrder (given : Setting → Value) (s : Setting) (c : RiskCutoffs) (fault : SettingFault) :
    Except RankingError Unit :=
  if c.high ≤ c.critical ∧ c.medium ≤ c.high then .ok ()
  else .error (.invalidSetting s.name (given s) fault)

def isOpenUnit (n : Number) : Bool := Number.float 0.0 < n && n < Number.float 1.0

def isUnit (n : Number) : Bool := Number.float 0.0 ≤ n && n ≤ Number.float 1.0

def isPercent (n : Number) : Bool := Number.int 0 ≤ n && n ≤ Number.int 100

/-- Checks the settings one after the other. Nothing is demanded of `parallel`; an undefined number
passes the demands that only forbid small values. -/
def check (given : Setting → Value) : Except RankingError RankingConfig := do
  let damping ← demand given .damping isOpenUnit .outsideOpenUnit
  let tolerance ← demand given .tolerance (fun n => !(n ≤ Number.int 0)) .notPositive
  let iterations ← demand given .iterations (fun n => !(n < Number.int 1)) .belowOne
  let percentiles : RiskCutoffs :=
    ⟨← demand given .criticalPercentile isPercent .outsidePercent,
      ← demand given .highPercentile isPercent .outsidePercent,
      ← demand given .mediumPercentile isPercent .outsidePercent⟩
  inOrder given .criticalPercentile percentiles .percentilesOutOfOrder
  let coreQuantile ← demand given .coreQuantile isUnit .outsideUnit
  let risks : RiskCutoffs :=
    ⟨← demand given .criticalRisk isUnit .outsideUnit,
      ← demand given .highRisk isUnit .outsideUnit,
      ← demand given .mediumRisk isUnit .outsideUnit⟩
  inOrder given .criticalRisk risks .risksOutOfOrder
  let hotspotLimit ← demandIfGiven given .hotspotLimit (fun n => !(n < Number.int 1)) .belowOne
  let workers ← demandIfGiven given .workers (fun n => !(n < Number.int 1)) .belowOne
  pure
    { damping, tolerance, iterations, percentiles, coreQuantile, risks, hotspotLimit, workers
      parallel := given .parallel }

def valuesOf (t : Table String Value) (s : Setting) : Value := t.getD s.name s.default

def ofTable (t : Table String Value) : Except RankingError RankingConfig :=
  if t.keys.all Setting.isName then check (valuesOf t) else .error .wrongType

def value (c : RankingConfig) : Setting → Value
  | .damping => .number c.damping
  | .tolerance => .number c.tolerance
  | .iterations => .number c.iterations
  | .criticalPercentile => .number c.percentiles.critical
  | .highPercentile => .number c.percentiles.high
  | .mediumPercentile => .number c.percentiles.medium
  | .coreQuantile => .number c.coreQuantile
  | .criticalRisk => .number c.risks.critical
  | .highRisk => .number c.risks.high
  | .mediumRisk => .number c.risks.medium
  | .hotspotLimit => (c.hotspotLimit.map Value.number).getD .absent
  | .parallel => c.parallel
  | .workers => (c.workers.map Value.number).getD .absent

end RankingConfig

end DependencyRanking
