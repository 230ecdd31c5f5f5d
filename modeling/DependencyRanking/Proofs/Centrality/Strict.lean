import DependencyRanking.Proofs.Centrality.Mass
import DependencyRanking.Proofs.Outcome

/-!
# No score is missing and no divisor is zero

A strict run asks for every score, weight and degree where it is listed, and divides by a count only
if it is not zero. On a graph whose tables fit each other it finds everything: what depends on a
module is listed, and has a dependency. So it yields the scores of the plain run.
-/
namespace DependencyRanking.PageRank

inductive Fault where
  | missingEntry
  | zeroDivisor
deriving DecidableEq, Repr

section Definitions

variable {α : Type} [Scalar α]

def listed (scores : Scores α) (m : ModuleId) : Except Fault α :=
  match entryAt? m scores with
  | some x => .ok x
  | none => .error .missingEntry

def quotient (x : α) (count : Nat) : Except Fault α :=
  if count = 0 then .error .zeroDivisor else .ok (x / Scalar.ofNat count)

def degreeOf (g : ModuleGraph) (m : ModuleId) : Except Fault Nat :=
  if m ∈ g.nodes then .ok (g.outDegree m) else .error .missingEntry

def strictShare (g : ModuleGraph) (d : Damping α) (scores : Scores α) (s : ModuleId) :
    Except Fault α := do
  let score ← listed scores s
  let degree ← degreeOf g s
  quotient (d.follow * score) degree

def strictNextScore (g : ModuleGraph) (d : Damping α) (scores : Scores α) (held : α) (m : ModuleId)
    (t : α) : Except Fault α := do
  let spread ← quotient (d.follow * held * t) g.nodeCount
  let shares ← (g.incoming m).mapM (strictShare g d scores)
  pure (shares.foldl (· + ·) (d.spread * t + spread))

def strictPass (g : ModuleGraph) (d : Damping α) (weights scores : Scores α) :
    Except Fault (Scores α) := do
  let held ← (dangling g).mapM (listed scores)
  g.nodes.mapM fun m => do
    let t ← listed weights m
    let score ← strictNextScore g d scores (total held) m t
    pure (m, score)

def strictDelta (old new : Scores α) : Except Fault α := do
  let changes ← new.mapM fun s => do
    let x ← listed old s.1
    pure (Scalar.abs (s.2 - x))
  pure (total changes)

def strictIterate (next : Scores α → Except Fault (Scores α)) (small : α → Bool) :
    (cap performed : Nat) → (last : α) → Scores α → Except Fault (Run α)
  | 0, performed, last, scores => .ok ⟨scores, performed, false, last⟩
  | cap + 1, performed, _, scores => do
    let new ← next scores
    let change ← strictDelta scores new
    if small change then pure ⟨new, performed + 1, true, change⟩
    else strictIterate next small cap (performed + 1) change new

/-- A strict run with uniform teleport weights. -/
def strictRun (g : ModuleGraph) (d : Damping α) (small : α → Bool) (cap : Nat) :
    Except Fault (Run α) :=
  if g.nodes = [] then .ok emptyRun
  else strictIterate (strictPass g d (uniform g.nodes)) small cap 0 0 (uniform g.nodes)

end Definitions

section Success

variable {α : Type} [Scalar α] {g : ModuleGraph} {d : Damping α} {weights scores old new : Scores α}
variable {m s : ModuleId}

omit [Scalar α] in
theorem exists_entry (hs : scores.map Prod.fst = g.nodes) (hm : m ∈ g.nodes) :
    ∃ x, entryAt? m scores = some x := by
  rw [← hs] at hm
  obtain ⟨e, he, rfl⟩ := List.mem_map.1 hm
  exact ⟨e.2, (Table.entryAt?_eq_some_iff (hs ▸ g.nodup_nodes)).2 he⟩

theorem listed_eq (hs : scores.map Prod.fst = g.nodes) (hm : m ∈ g.nodes) :
    listed scores m = .ok (Scores.of scores m) := by
  obtain ⟨x, hx⟩ := exists_entry hs hm
  simp only [listed, Scores.of, hx, Option.getD_some]

theorem quotient_eq {count : Nat} (h : count ≠ 0) (x : α) :
    quotient x count = .ok (x / Scalar.ofNat count) := if_neg h

theorem strictShare_eq (h : g.Mirrored) (hs : scores.map Prod.fst = g.nodes)
    (hm : s ∈ g.incoming m) : strictShare g d scores s =
      .ok (d.follow * Scores.of scores s / Scalar.ofNat (g.outDegree s)) := by
  -- what depends on `m` has a dependency, so the division is not by zero
  have hms : m ∈ g.outgoing s := (h.mem_incoming s m).1 hm
  have hmem : s ∈ g.nodes := h.source_mem s m hms
  have hdegree : g.outDegree s ≠ 0 := fun h0 =>
    List.not_mem_nil (List.length_eq_zero_iff.1 h0 ▸ hms)
  exact Outcome.bind_eq_ok.2 ⟨_, listed_eq hs hmem, Outcome.bind_eq_ok.2
    ⟨_, if_pos hmem, quotient_eq hdegree _⟩⟩

theorem strictNextScore_eq (h : g.Mirrored) (hN : g.nodeCount ≠ 0)
    (hs : scores.map Prod.fst = g.nodes) (held : α) (m : ModuleId) (t : α) :
    strictNextScore g d scores held m t = .ok (nextScore g d scores held m t) := by
  have hshares : (g.incoming m).mapM (strictShare g d scores) = .ok ((g.incoming m).map fun s =>
      d.follow * Scores.of scores s / Scalar.ofNat (g.outDegree s)) :=
    Outcome.mapM_of_eq_ok fun _ hm => strictShare_eq h hs hm
  refine Outcome.bind_eq_ok.2 ⟨_, quotient_eq hN _, Outcome.bind_eq_ok.2 ⟨_, hshares, ?_⟩⟩
  rw [List.foldl_map]
  rfl

theorem strictPass_eq (h : g.Mirrored) (hN : g.nodeCount ≠ 0)
    (hw : weights.map Prod.fst = g.nodes) (hs : scores.map Prod.fst = g.nodes) :
    strictPass g d weights scores = .ok (pass g d weights scores) := by
  have hheld : (dangling g).mapM (listed scores) = .ok ((dangling g).map (Scores.of scores)) :=
    Outcome.mapM_of_eq_ok fun _ hm => listed_eq hs (List.mem_of_mem_filter hm)
  have hnext : g.nodes.mapM (fun m => do
      let t ← listed weights m
      let score ← strictNextScore g d scores (danglingScore g scores) m t
      pure (m, score)) = .ok (g.nodes.map fun m =>
        (m, nextScore g d scores (danglingScore g scores) m (Scores.of weights m))) :=
    Outcome.mapM_of_eq_ok fun m hm => Outcome.bind_eq_ok.2 ⟨_, listed_eq hw hm,
      Outcome.bind_eq_ok.2 ⟨_, strictNextScore_eq h hN hs _ m _, rfl⟩⟩
  have hpass : pass g d weights scores = g.nodes.map fun m =>
      (m, nextScore g d scores (danglingScore g scores) m (Scores.of weights m)) := by
    have hn : (weights.map Prod.fst).Nodup := hw ▸ g.nodup_nodes
    unfold pass
    rw [← hw, List.map_map]
    exact List.map_congr_left fun w hmem => by simp only [Function.comp_apply, of_eq_of_mem hn hmem]
  rw [hpass]
  exact Outcome.bind_eq_ok.2 ⟨_, hheld, hnext⟩

theorem strictDelta_eq (ho : old.map Prod.fst = g.nodes) (hn : new.map Prod.fst = g.nodes) :
    strictDelta old new = .ok (delta old new) := by
  have hchanges : new.mapM (fun s => do
      let x ← listed old s.1
      pure (Scalar.abs (s.2 - x))) = .ok (new.map fun s => Scalar.abs (s.2 - Scores.of old s.1)) :=
    Outcome.mapM_of_eq_ok fun s hs => Outcome.bind_eq_ok.2
      ⟨_, listed_eq ho (hn ▸ List.mem_map_of_mem hs), rfl⟩
  exact Outcome.bind_eq_ok.2 ⟨_, hchanges, rfl⟩

theorem strictIterate_eq (h : g.Mirrored) (hN : g.nodeCount ≠ 0)
    (hw : weights.map Prod.fst = g.nodes) (small : α → Bool) (cap performed : Nat) (last : α)
    (hs : scores.map Prod.fst = g.nodes) :
    strictIterate (strictPass g d weights) small cap performed last scores =
      .ok (iterate (pass g d weights) small cap performed last scores) := by
  -- a pass finds a score for every module and leaves one for every module
  induction cap generalizing performed last scores with
  | zero => rfl
  | succ cap ih =>
    have hnew : (pass g d weights scores).map Prod.fst = g.nodes :=
      (map_fst_pass g d weights scores).trans hw
    refine Outcome.bind_eq_ok.2 ⟨_, strictPass_eq h hN hw hs,
      Outcome.bind_eq_ok.2 ⟨_, strictDelta_eq hs hnew, ?_⟩⟩
    unfold iterate
    dsimp only
    split
    · rfl
    · exact ih (performed + 1) _ hnew

theorem strictRun_eq (h : g.Mirrored) (d : Damping α) (small : α → Bool) (cap : Nat) :
    strictRun g d small cap = .ok (run g d small cap none) := by
  unfold strictRun run
  split
  · rfl
  · rename_i hne
    have hN := g.nodeCount_ne_zero_iff.2 hne
    have hu : (uniform g.nodes : Scores α).map Prod.fst = g.nodes := map_fst_uniform g.nodes
    exact strictIterate_eq h hN hu small cap 0 0 hu

end Success

end DependencyRanking.PageRank
