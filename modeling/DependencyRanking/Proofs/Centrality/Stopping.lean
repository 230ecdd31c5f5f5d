import DependencyRanking.Proofs.Centrality.Ranking

/-!
# When a ranking stops

A run stops after the first pass whose change is below the tolerance, or with its cap. So a cap that
a run has not needed decides nothing, and a lower tolerance never saves a pass. Doubles decide all of
this: the changes are those that the passes make with every operation rounded.
-/
namespace DependencyRanking

namespace Centrality

open PageRank (Damping Scores Run StopsAt weightsOf scoresAfter changeAfter endedAt)

variable {g : ModuleGraph} {damping tolerance lower : Number} {d : Damping Float}
variable {bias : Table ModuleId Number} {given : Scores Float} {cap larger k : Nat}

theorem isBelow_mono (h : lower ≤ tolerance) {change : Float} (hc : isBelow lower change = true) :
    isBelow tolerance change = true := by
  simp only [isBelow, decide_eq_true_eq] at *
  exact Number.lt_of_lt_of_le hc h

section Runs

variable (hn : g.nodes ≠ []) (hd : dampingOf damping = .ok d)
variable (hb : biasOf g.nodes bias = .ok given)
include hn hd hb

theorem pageRank_of_stopsAt
    (h : StopsAt (isBelow tolerance) (changeAfter g d (weightsOf g.nodes (biasIn bias given))) cap k) :
    pageRank g damping (.int cap) tolerance bias =
      .ok (endedAt g d (weightsOf g.nodes (biasIn bias given)) (isBelow tolerance) k) := by
  rw [pageRank_eq_run hn hd hb tolerance (Nat.zero_lt_of_lt h.lt_cap),
    PageRank.run_of_stopsAt hn h]

theorem stopsAt_of_pageRank {run : Run Float} (hcap : 0 < cap)
    (h : pageRank g damping (.int cap) tolerance bias = .ok run) :
    ∃ k, StopsAt (isBelow tolerance) (changeAfter g d (weightsOf g.nodes (biasIn bias given))) cap k ∧
      run = endedAt g d (weightsOf g.nodes (biasIn bias given)) (isBelow tolerance) k := by
  obtain ⟨k, hk, hrun⟩ := PageRank.run_last hn d (isBelow tolerance) hcap (biasIn bias given)
  rw [pageRank_eq_run hn hd hb tolerance hcap, hrun] at h
  exact ⟨k, hk, (Except.ok.inj h).symm⟩

end Runs

/-- A ranking stops with the first pass that changes the scores by less than the tolerance, and has
converged; it makes all passes and has not converged where there is none. A larger cap changes
nothing once a ranking has converged, and a lower tolerance takes no fewer passes. All doubles will
do as damping and bias; an integer that no double is near to makes a ranking fail. -/
theorem pageRank_stops (hn : g.nodes ≠ []) (hd : dampingOf damping = .ok d)
    (hb : biasOf g.nodes bias = .ok given) :
    let weights := weightsOf g.nodes (biasIn bias given)
    let scores := scoresAfter g d weights
    let change := changeAfter g d weights
    let run := fun (tolerance : Number) (cap : Nat) =>
      pageRank g damping (.int cap) tolerance bias
    (∀ tolerance cap k, k < cap → Number.float (change k) < tolerance →
      (∀ j < k, ¬ Number.float (change j) < tolerance) →
        run tolerance cap = .ok ⟨scores (k + 1), k + 1, true, change k⟩) ∧
    (∀ tolerance cap, 0 < cap → (∀ k < cap, ¬ Number.float (change k) < tolerance) →
      run tolerance cap = .ok ⟨scores cap, cap, false, change (cap - 1)⟩) ∧
    (∀ tolerance cap larger r, 0 < cap → cap ≤ larger → run tolerance cap = .ok r →
      r.converged = true → run tolerance larger = .ok r) ∧
    ∀ tolerance lower cap r s, 0 < cap → lower ≤ tolerance → run tolerance cap = .ok r →
      run lower cap = .ok s → r.iterations ≤ s.iterations := by
  intro weights scores change run
  refine ⟨?_, ?_, ?_, ?_⟩
  · intro tolerance cap k hk hsmall hlarge
    have hstops : StopsAt (isBelow tolerance) change cap k :=
      ⟨hk, fun j hj => decide_eq_false (hlarge j hj), .inl (decide_eq_true hsmall)⟩
    have hrun := pageRank_of_stopsAt hn hd hb hstops
    rwa [endedAt, show isBelow tolerance (change k) = true from decide_eq_true hsmall] at hrun
  · intro tolerance cap hcap hlarge
    obtain ⟨k, rfl⟩ := Nat.exists_eq_succ_of_ne_zero hcap.ne'
    have hstops : StopsAt (isBelow tolerance) change (k + 1) k :=
      ⟨Nat.lt_succ_self k, fun j hj => decide_eq_false (hlarge j (hj.trans (Nat.lt_succ_self k))),
        .inr rfl⟩
    have hrun := pageRank_of_stopsAt hn hd hb hstops
    rwa [endedAt, show isBelow tolerance (change k) = false from
      decide_eq_false (hlarge k (Nat.lt_succ_self k))] at hrun
  · intro tolerance cap larger r hcap hle hr hconverged
    obtain ⟨k, hk, rfl⟩ := stopsAt_of_pageRank hn hd hb hcap hr
    exact pageRank_of_stopsAt hn hd hb (hk.raise hconverged hle)
  · intro tolerance lower cap r s hcap hle hr hs
    obtain ⟨k, hk, rfl⟩ := stopsAt_of_pageRank hn hd hb hcap hr
    obtain ⟨j, hj, rfl⟩ := stopsAt_of_pageRank hn hd hb hcap hs
    exact Nat.succ_le_succ (hk.le hj fun _ hx => isBelow_mono hle hx)

theorem scoresAfter_chain {g : ModuleGraph} (hg : ModuleGraph.ofEdges [("a", "b")] [] = g) :
    scoresAfter g (.of (0.5 : Float)) (weightsOf g.nodes none) 1 =
      [("a", 0.75), ("b", 1.25)] ∧
    scoresAfter g (.of (0.5 : Float)) (weightsOf g.nodes none) 2 =
      [("a", 0.8125), ("b", 1.1875)] := by
  have hnodes : g.nodes = ["a", "b"] := by
    subst hg
    cbv
  have hdangling : PageRank.dangling g = ["b"] := by
    subst hg
    cbv
  have hincoming : g.incoming "a" = [] ∧ g.incoming "b" = ["a"] := by
    subst hg
    exact ⟨by cbv, by cbv⟩
  have hcounts : g.outDegree "a" = 1 ∧ g.nodeCount = 2 := by
    subst hg
    exact ⟨rfl, rfl⟩
  have hpass : ∀ scores : Scores Float,
      PageRank.pass g (.of 0.5) (weightsOf g.nodes none) scores =
        let base := (1 - 0.5) * 1 + 0.5 * (0 + scores.of "b") * 1 / Float.ofNat 2
        [("a", base), ("b", base + 0.5 * scores.of "a" / Float.ofNat 1)] := by
    intro scores
    simp only [PageRank.pass, weightsOf, PageRank.uniform, PageRank.danglingScore, PageRank.total,
      PageRank.nextScore, hnodes, hdangling, hincoming, hcounts, List.map_cons, List.map_nil,
      List.foldl_cons, List.foldl_nil]
    rfl
  have hfirst : scoresAfter g (.of (0.5 : Float)) (weightsOf g.nodes none) 1 =
      [("a", 0.75), ("b", 1.25)] := by
    rw [scoresAfter, hpass, scoresAfter, hnodes]
    decide +kernel
  refine ⟨hfirst, ?_⟩
  rw [scoresAfter, hpass, hfirst]
  decide +kernel

theorem changeAfter_chain {g : ModuleGraph} (hg : ModuleGraph.ofEdges [("a", "b")] [] = g) :
    changeAfter g (.of (0.5 : Float)) (weightsOf g.nodes none) 0 = 0.5 ∧
    changeAfter g (.of (0.5 : Float)) (weightsOf g.nodes none) 1 = 0.125 := by
  obtain ⟨hfirst, hsecond⟩ := scoresAfter_chain hg
  have hnodes : g.nodes = ["a", "b"] := by
    subst hg
    cbv
  rw [changeAfter, changeAfter, hfirst, hsecond, scoresAfter, hnodes]
  exact ⟨by decide +kernel, by decide +kernel⟩

theorem pageRank_stops_chain :
    let g := ModuleGraph.ofEdges [("a", "b")] []
    let run := fun (tolerance : Number) (cap : Nat) =>
      pageRank g (.float 0.5) (.int cap) tolerance ∅
    g.nodes ≠ [] ∧ ∃ r s, run (.float 0.25) 2 = .ok r ∧ r.converged = true ∧ r.iterations = 2 ∧
      run (.float 0.25) 9 = .ok r ∧ Number.float 0.1 ≤ Number.float 0.25 ∧
      run (.float 0.1) 2 = .ok s ∧ s.converged = false ∧ r.iterations ≤ s.iterations := by
  intro g run
  have hn : g.nodes ≠ [] := by
    refine List.ne_nil_of_mem (a := "a") ?_
    rw [ModuleGraph.mem_nodes_ofEdges]
    exact .inr ⟨("a", "b"), List.mem_cons_self, .inl rfl⟩
  have hbias : biasIn ∅ (g.nodes.map fun m => (m, (0.0 : Float))) = none := rfl
  obtain ⟨hzero, hone⟩ := changeAfter_chain (g := g) rfl
  obtain ⟨hsmall, hlarge, hraise, hlower⟩ :=
    pageRank_stops hn (show dampingOf (.float 0.5) = .ok (.of 0.5) from rfl) (biasOf_empty g.nodes)
  simp only [hbias] at hsmall hlarge
  have hr := hsmall (.float 0.25) 2 1 (by decide) (by rw [hone]; decide +kernel) fun j hj => by
    obtain rfl : j = 0 := by omega
    rw [hzero]
    decide +kernel
  have hs := hlarge (.float 0.1) 2 (by decide) fun k hk => by
    obtain rfl | rfl : k = 0 ∨ k = 1 := by omega
    · rw [hzero]
      decide +kernel
    · rw [hone]
      decide +kernel
  have hle : Number.float 0.1 ≤ Number.float 0.25 := by decide +kernel
  exact ⟨hn, _, _, hr, rfl, rfl, hraise _ 2 9 _ (by decide) (by decide) hr rfl, hle, hs, rfl,
    hlower _ _ 2 _ _ (by decide) hle hr hs⟩

end Centrality

end DependencyRanking
