import DependencyRanking.Proofs.Graph.Representation

/-!
# What reading a graph rejects

Reading makes demands on the given values one after the other: every module first, then of every
edge its shape, its source and its target. The first demand that is not met decides the error, and
only if there is none the graph is built, of everything that was given. The error is reported if the
values that it names can be written.
-/
namespace DependencyRanking.ModuleGraph

variable {v a b : Value} {role : IdRole}

def isId : Value → Bool
  | .text s => !Text.isBlank s
  | _ => false

def pairOf? : Value → Option (Value × Value)
  | .text _ => none
  | v =>
    match v.items? with
    | some [a, b] => some (a, b)
    | _ => none

def idFault (role : IdRole) : Value → EdgeFault
  | .text _ => .blank role
  | v => .notText role v.kindName

def pairFault : Value → EdgeFault
  | .text _ => .textForPair
  | _ => .notPair

/-- What is asked of one value: to be a module id that stands alone, to be a pair, or to be a module
id at an end of an edge. -/
inductive Demand where
  | node (v : Value)
  | pair (v : Value)
  | source (a b : Value)
  | target (a b : Value)

namespace Demand

def met : Demand → Bool
  | .node v => isId v
  | .pair v => (pairOf? v).isSome
  | .source a _ => isId a
  | .target _ b => isId b

def error : Demand → RankingError
  | .node v => .invalidEdge v .absent (idFault .isolated v)
  | .pair v => .invalidEdge v .absent (pairFault v)
  | .source a b => .invalidEdge a b (idFault .endpoint a)
  | .target a b => .invalidEdge a b (idFault .endpoint b)

def named : Demand → List Value
  | .node v => [v]
  | .pair v => [v]
  | .source a b => [a, b]
  | .target a b => [a, b]

def ofNode (v : Value) : List Demand := [.node v]

def ofEdge (v : Value) : List Demand :=
  match pairOf? v with
  | some (a, b) => [.pair v, .source a b, .target a b]
  | none => [.pair v]

def ofInput (nodes edges : List Value) : List Demand := nodes.flatMap ofNode ++ edges.flatMap ofEdge

def firstUnmet? (demands : List Demand) : Option Demand := demands.find? fun d => !d.met

end Demand

theorem isId_iff : isId v = true ↔ ∃ m, v = .text m ∧ Text.isBlank m = false := by
  cases v with
  | text s => simp [isId]
  | _ => simp [isId]

theorem pairOf?_eq_some :
    pairOf? v = some (a, b) ↔ (∀ s, v ≠ .text s) ∧ v.items? = some [a, b] := by
  unfold pairOf?
  split
  · simp
  · rename_i htext
    rw [and_iff_right htext]
    split
    · rename_i hitems
      simp [hitems]
    · rename_i hitems
      exact iff_of_false nofun (hitems a b)

theorem failure?_readId (v source target : Value) (role : IdRole) :
    Outcome.failure? (readId v source target role) =
      if isId v then none else some (.invalidEdge source target (idFault role v)) := by
  cases v with
  | text s =>
    by_cases hs : Text.isBlank s
    · simp [readId, isId, idFault, hs, Outcome.failure?]
    · simp [readId, isId, hs, Outcome.failure?]
  | _ => rfl

theorem failure?_readNode (v : Value) : Outcome.failure? (readNode v) =
    ((Demand.ofNode v).find? fun d => !d.met).map Demand.error := by
  unfold readNode
  rw [failure?_readId]
  by_cases hv : isId v
  · simp [Demand.ofNode, Demand.met, hv]
  · simp [Demand.ofNode, Demand.met, Demand.error, hv]

theorem readEdge_of_pairOf?_eq_none (h : pairOf? v = none) :
    readEdge v = .error (.invalidEdge v .absent (pairFault v)) := by
  unfold readEdge
  split
  · rfl
  · rename_i htext
    split
    · rename_i hitems
      rw [pairOf?_eq_some.2 ⟨htext, hitems⟩] at h
      cases h
    · unfold pairFault
      split
      · exact absurd rfl (htext _)
      · rfl

theorem failure?_readEdge_of_pairOf? (h : pairOf? v = some (a, b)) :
    Outcome.failure? (readEdge v) =
      (Outcome.failure? (readId a a b .endpoint)).or
        (Outcome.failure? (readId b a b .endpoint)) := by
  obtain ⟨htext, hitems⟩ := pairOf?_eq_some.1 h
  unfold readEdge
  split
  · exact absurd rfl (htext _)
  · rw [hitems]
    exact Outcome.failure?_bind fun source _ => Outcome.failure?_bind_pure _ _

theorem failure?_readEdge (v : Value) : Outcome.failure? (readEdge v) =
    ((Demand.ofEdge v).find? fun d => !d.met).map Demand.error := by
  unfold Demand.ofEdge
  cases hpair : pairOf? v with
  | none =>
    rw [readEdge_of_pairOf?_eq_none hpair]
    simp [Demand.met, Demand.error, hpair, Outcome.failure?]
  | some ends =>
    obtain ⟨a, b⟩ := ends
    rw [failure?_readEdge_of_pairOf? hpair, failure?_readId, failure?_readId]
    by_cases ha : isId a
    · by_cases hb : isId b
      · simp [Demand.met, hpair, ha, hb]
      · simp [Demand.met, Demand.error, hpair, ha, hb]
    · simp [Demand.met, Demand.error, hpair, ha]

theorem failure?_read? (edges nodes : List Value) :
    Outcome.failure? (read? (.list edges) (.list nodes)) =
      (Demand.firstUnmet? (Demand.ofInput nodes edges)).map Demand.error := by
  have hread : read? (.list edges) (.list nodes) = nodes.mapM readNode >>= fun ids =>
      edges.mapM readEdge >>= fun pairs => pure (ofEdges pairs ids) := rfl
  unfold Demand.firstUnmet? Demand.ofInput
  rw [hread, List.find?_append, Option.map_or, ← Outcome.failure?_mapM failure?_readNode,
    ← Outcome.failure?_mapM failure?_readEdge]
  exact Outcome.failure?_bind fun ids _ => Outcome.failure?_bind_pure _ _

theorem met_ofNode_iff : (∀ d ∈ Demand.ofNode v, d.met = true) ↔
    ∃ m, v = .text m ∧ Text.isBlank m = false := by
  rw [← isId_iff]
  simp [Demand.ofNode, Demand.met]

theorem met_ofEdge_iff : (∀ d ∈ Demand.ofEdge v, d.met = true) ↔
    (∀ s, v ≠ .text s) ∧ ∃ a b, v.items? = some [.text a, .text b] ∧
      Text.isBlank a = false ∧ Text.isBlank b = false := by
  unfold Demand.ofEdge
  cases hpair : pairOf? v with
  | none =>
    refine iff_of_false (by simp [Demand.met, hpair]) ?_
    rintro ⟨htext, a, b, hitems, -⟩
    rw [pairOf?_eq_some.2 ⟨htext, hitems⟩] at hpair
    cases hpair
  | some ends =>
    obtain ⟨x, y⟩ := ends
    obtain ⟨htext, hitems⟩ := pairOf?_eq_some.1 hpair
    rw [and_iff_right htext, hitems]
    simp only [List.forall_mem_cons, Demand.met, hpair, isId_iff]
    constructor
    · rintro ⟨-, ⟨a, rfl, ha⟩, ⟨b, rfl, hb⟩, -⟩
      exact ⟨a, b, rfl, ha, hb⟩
    · rintro ⟨a, b, heq, ha, hb⟩
      cases heq
      exact ⟨rfl, ⟨a, rfl, ha⟩, ⟨b, rfl, hb⟩, by simp⟩

theorem firstUnmet?_eq_none (nodes edges : List Value) :
    Demand.firstUnmet? (Demand.ofInput nodes edges) = none ↔
      (∀ v ∈ nodes, ∃ m, v = .text m ∧ Text.isBlank m = false) ∧
      ∀ v ∈ edges, (∀ s, v ≠ .text s) ∧ ∃ a b, v.items? = some [.text a, .text b] ∧
        Text.isBlank a = false ∧ Text.isBlank b = false := by
  unfold Demand.firstUnmet? Demand.ofInput
  simp only [List.find?_eq_none, List.forall_mem_append, List.forall_mem_flatMap, Bool.not_eq_true',
    Bool.not_eq_false, met_ofNode_iff, met_ofEdge_iff]

theorem reported_invalidEdge (a b : Value) (fault : EdgeFault) :
    (∃ report, (RankingError.invalidEdge a b fault).report? = some report ∧
      report.kind = .invalidEdge) ↔ a.isWritable = true ∧ b.isWritable = true := by
  unfold RankingError.report?
  rw [← Bool.and_eq_true]
  cases hw : a.isWritable && b.isWritable <;> simpa [Report.ofEdge] using hw

theorem reported_error (d : Demand) :
    (∃ report, d.error.report? = some report ∧ report.kind = .invalidEdge) ↔
      ∀ v ∈ d.named, v.isWritable = true := by
  have habsent : Value.absent.isWritable = true := by simp [Value.isWritable]
  cases d with
  | node v => exact (reported_invalidEdge v .absent _).trans (by simp [Demand.named, habsent])
  | pair v => exact (reported_invalidEdge v .absent _).trans (by simp [Demand.named, habsent])
  | source a b => exact (reported_invalidEdge a b _).trans (by simp [Demand.named])
  | target a b => exact (reported_invalidEdge a b _).trans (by simp [Demand.named])

end DependencyRanking.ModuleGraph
