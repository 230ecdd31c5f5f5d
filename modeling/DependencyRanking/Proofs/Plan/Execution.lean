import DependencyRanking.Proofs.Plan.Prerequisites

/-!
# Carrying out a plan

Phases may overlap and their modules may be worked on in any order. All that is demanded is that a
phase starts after its prerequisites are finished, a module after its phase, and that a phase is
finished when all of its modules are. This already keeps every module back until all that it
depends on outside its own phase, directly or not, is finished.
-/
namespace DependencyRanking.Plan

inductive Event where
  | phaseStarts (order : Nat)
  | moduleStarts (m : ModuleId)
  | moduleFinishes (m : ModuleId)
  | phaseFinishes (order : Nat)

structure Progress where
  startedPhases : List Nat := []
  startedModules : List ModuleId := []
  finishedModules : List ModuleId := []
  finishedPhases : List Nat := []

def Event.apply (s : Progress) : Event → Progress
  | .phaseStarts n => { s with startedPhases := n :: s.startedPhases }
  | .moduleStarts m => { s with startedModules := m :: s.startedModules }
  | .moduleFinishes m => { s with finishedModules := m :: s.finishedModules }
  | .phaseFinishes n => { s with finishedPhases := n :: s.finishedPhases }

def Event.Admissible (plan : Plan) (s : Progress) : Event → Prop
  | .phaseStarts n =>
    ∃ p ∈ plan.phases, p.order = n ∧ ∀ k ∈ p.prerequisites, k ∈ s.finishedPhases
  | .moduleStarts m => ∃ p ∈ plan.phases, m ∈ p.modules ∧ p.order ∈ s.startedPhases
  | .moduleFinishes m => m ∈ s.startedModules
  | .phaseFinishes n => ∃ p ∈ plan.phases, p.order = n ∧ n ∈ s.startedPhases ∧
    ∀ m ∈ p.modules, m ∈ s.finishedModules

/-- What can have happened after some events, each of them admissible in its turn. -/
inductive Run (plan : Plan) : Progress → Prop
  | start : Run plan {}
  | step {s : Progress} {e : Event} (run : Run plan s) (admissible : e.Admissible plan s) :
      Run plan (e.apply s)

structure Orderly (plan : Plan) (s : Progress) : Prop where
  waited : ∀ p ∈ plan.phases, p.order ∈ s.startedPhases →
    ∀ k ∈ p.prerequisites, k ∈ s.finishedPhases
  whole : ∀ p ∈ plan.phases, p.order ∈ s.finishedPhases →
    p.order ∈ s.startedPhases ∧ ∀ m ∈ p.modules, m ∈ s.finishedModules

variable {g : ModuleGraph} {plan : Plan} {s : Progress} {e : Event} {p : Phase} {u v : ModuleId}

section Runs

variable (hinj : ∀ p ∈ plan.phases, ∀ q ∈ plan.phases, p.order = q.order → p = q)
include hinj

theorem Orderly.step (h : Orderly plan s) (he : e.Admissible plan s) :
    Orderly plan (e.apply s) := by
  cases e with
  | phaseStarts n =>
    obtain ⟨q, hq, rfl, hwait⟩ := he
    refine ⟨?_, ?_⟩
    · intro p hp hstarted
      rcases List.mem_cons.1 hstarted with heq | hstarted
      · obtain rfl := hinj p hp q hq heq
        exact hwait
      · exact h.waited p hp hstarted
    · intro p hp hfinished
      obtain ⟨hstarted, hall⟩ := h.whole p hp hfinished
      exact ⟨List.mem_cons_of_mem _ hstarted, hall⟩
  | moduleStarts m => exact ⟨h.waited, h.whole⟩
  | moduleFinishes m =>
    refine ⟨h.waited, ?_⟩
    intro p hp hfinished
    obtain ⟨hstarted, hall⟩ := h.whole p hp hfinished
    exact ⟨hstarted, fun m hm => List.mem_cons_of_mem _ (hall m hm)⟩
  | phaseFinishes n =>
    obtain ⟨q, hq, rfl, hstarted, hall⟩ := he
    refine ⟨?_, ?_⟩
    · intro p hp hp' k hk
      exact List.mem_cons_of_mem _ (h.waited p hp hp' k hk)
    · intro p hp hfinished
      rcases List.mem_cons.1 hfinished with heq | hfinished
      · obtain rfl := hinj p hp q hq heq
        exact ⟨hstarted, hall⟩
      · exact h.whole p hp hfinished

theorem Run.orderly (h : Run plan s) : Orderly plan s := by
  induction h with
  | start => exact ⟨fun p _ hp => absurd hp List.not_mem_nil, fun p _ hp => absurd hp List.not_mem_nil⟩
  | step run admissible ih => exact ih.step hinj admissible

end Runs

theorem Orderly.finished (h : Orderly plan s) (hguard : Guarded g plan)
    (hplaced : ∀ m, (∃ l, g.Depends l m) → ∃ q ∈ plan.phases, m ∈ q.modules)
    (hp : p ∈ plan.phases) (hstarted : p.order ∈ s.startedPhases) (hu : u ∈ p.modules)
    (hr : g.Reaches u v) (hv : v ∉ p.modules) : v ∈ s.finishedModules := by
  induction hr using Relation.ReflTransGen.head_induction_on generalizing p with
  | refl => exact absurd hu hv
  | @head u w huw _ ih =>
    obtain ⟨q, hq, hw⟩ := hplaced w ⟨u, huw⟩
    by_cases hqp : q = p
    · subst hqp
      exact ih hq hstarted hw hv
    · have hpre := (hguard.mem_iff p hp q.order).2 ⟨q, hq, hqp, rfl, u, hu, w, hw, huw⟩
      obtain ⟨hqstarted, hall⟩ := h.whole q hq (h.waited p hp hstarted _ hpre)
      by_cases hvq : v ∈ q.modules
      · exact hall v hvq
      · exact ih hq hqstarted hw hvq

section Completion

variable {t : Progress} {m : ModuleId} {ms : List ModuleId}

structure Extends (s t : Progress) : Prop where
  started : t.startedPhases = s.startedPhases
  finishedPhases : t.finishedPhases = s.finishedPhases
  finishedModules : s.finishedModules ⊆ t.finishedModules

theorem Run.exists_extension (h : Run plan s) (hp : p ∈ plan.phases)
    (hstarted : p.order ∈ s.startedPhases) (hms : ms ⊆ p.modules) :
    ∃ t, Run plan t ∧ Extends s t ∧ ms ⊆ t.finishedModules := by
  induction ms with
  | nil => exact ⟨s, h, ⟨rfl, rfl, fun m hm => hm⟩, List.nil_subset _⟩
  | cons m rest ih =>
    obtain ⟨hm, hrest⟩ := List.cons_subset.1 hms
    obtain ⟨t, ht, hst, hfinished⟩ := ih hrest
    have hopen : p.order ∈ t.startedPhases := by
      rw [hst.started]
      exact hstarted
    have hstart := ht.step (e := .moduleStarts m) ⟨p, hp, hm, hopen⟩
    have hfinish := hstart.step (e := .moduleFinishes m) List.mem_cons_self
    refine ⟨_, hfinish, ⟨hst.started, hst.finishedPhases, ?_⟩, ?_⟩
    · intro x hx
      exact List.mem_cons_of_mem _ (hst.finishedModules hx)
    · intro x hx
      rcases List.mem_cons.1 hx with rfl | hx
      · exact List.mem_cons_self
      · exact List.mem_cons_of_mem _ (hfinished hx)

theorem Run.exists_phase_finished (h : Run plan s) (hp : p ∈ plan.phases)
    (hwait : ∀ k ∈ p.prerequisites, k ∈ s.finishedPhases) :
    ∃ t, Run plan t ∧ t.finishedPhases = p.order :: s.finishedPhases ∧
      s.finishedModules ⊆ t.finishedModules ∧ p.modules ⊆ t.finishedModules := by
  have hstart := h.step (e := .phaseStarts p.order) ⟨p, hp, rfl, hwait⟩
  obtain ⟨t, ht, hst, hall⟩ := hstart.exists_extension hp List.mem_cons_self
    (List.Subset.refl p.modules)
  have hopen : p.order ∈ t.startedPhases := by
    rw [hst.started]
    exact List.mem_cons_self
  have hfinish := ht.step (e := .phaseFinishes p.order) ⟨p, hp, rfl, hopen, fun m hm => hall hm⟩
  refine ⟨_, hfinish, ?_, hst.finishedModules, hall⟩
  exact congrArg (p.order :: ·) hst.finishedPhases

theorem Guarded.exists_run (hguard : Guarded g plan)
    (hinj : ∀ p ∈ plan.phases, ∀ q ∈ plan.phases, p.order = q.order → p = q) (k : Nat) :
    ∃ s, Run plan s ∧ ∀ p ∈ plan.phases, p.order < k →
      p.order ∈ s.finishedPhases ∧ p.modules ⊆ s.finishedModules := by
  induction k with
  | zero => exact ⟨{}, .start, fun p _ hp => absurd hp (Nat.not_lt_zero _)⟩
  | succ k ih =>
    obtain ⟨s, hs, hfinished⟩ := ih
    by_cases hex : ∃ p ∈ plan.phases, p.order = k
    · obtain ⟨p, hp, rfl⟩ := hex
      have hwait : ∀ n ∈ p.prerequisites, n ∈ s.finishedPhases := by
        intro n hn
        have hlt := hguard.smaller p hp n hn
        obtain ⟨q, hq, -, rfl, -⟩ := (hguard.mem_iff p hp n).1 hn
        exact (hfinished q hq hlt).1
      obtain ⟨t, ht, hphases, hmodules, hall⟩ := hs.exists_phase_finished hp hwait
      refine ⟨t, ht, ?_⟩
      intro q hq hqk
      rw [hphases]
      by_cases hqp : q.order = p.order
      · obtain rfl := hinj q hq p hp hqp
        exact ⟨List.mem_cons_self, hall⟩
      · obtain ⟨hqfinished, hqall⟩ := hfinished q hq (by omega)
        exact ⟨List.mem_cons_of_mem _ hqfinished, fun m hm => hmodules (hqall hm)⟩
    · refine ⟨s, hs, ?_⟩
      intro q hq hqk
      have hne : q.order ≠ k := fun hq' => hex ⟨q, hq, hq'⟩
      exact hfinished q hq (by omega)

end Completion

section Made

variable {components : List Component}
variable {ν : Type} [Measured ν] {coupling : Table ModuleId (CouplingMetrics ν)}
variable {setting : Setting ν} {levels : List (List Nat)}

theorem Made.order_injective (h : Made g components coupling setting levels plan) :
    ∀ p ∈ plan.phases, ∀ q ∈ plan.phases, p.order = q.order → p = q := by
  intro p hp q hq hpq
  obtain ⟨k, hk⟩ := List.mem_iff_getElem?.1 hp
  obtain ⟨l, hl⟩ := List.mem_iff_getElem?.1 hq
  have hpk := h.order_eq hk
  have hql := h.order_eq hl
  obtain rfl : k = l := by omega
  exact Option.some.inj (hk.symm.trans hl)

theorem Made.exists_complete_run (h : Made g components coupling setting levels plan)
    (hp : g.Partitioned components) : ∃ s, Run plan s ∧ ∀ m ∈ g.nodes, m ∈ s.finishedModules := by
  obtain ⟨s, hs, hall⟩ :=
    (h.guarded hp).exists_run h.order_injective (plan.phases.length + 1)
  refine ⟨s, hs, ?_⟩
  intro m hm
  obtain ⟨p, ⟨hpp, hmp⟩, -⟩ := h.existsUnique_phase hp hm
  obtain ⟨k, hk⟩ := List.mem_iff_getElem?.1 hpp
  have hlt := (List.getElem?_eq_some_iff.1 hk).1
  have horder := h.order_eq hk
  exact (hall p hpp (by omega)).2 hmp

theorem Made.finished_of_moduleStarts (h : Made g components coupling setting levels plan)
    (hp : g.Partitioned components) (hm : g.Mirrored) (hs : Run plan s)
    (hstart : Event.Admissible plan s (.moduleStarts u)) (hr : g.Reaches u v)
    (hv : ∀ p ∈ plan.phases, u ∈ p.modules → v ∉ p.modules) : v ∈ s.finishedModules := by
  obtain ⟨p, hpp, hu, hstarted⟩ := hstart
  refine (hs.orderly h.order_injective).finished (h.guarded hp) ?_ hpp hstarted hu hr (hv p hpp hu)
  rintro m ⟨l, hl⟩
  obtain ⟨q, hq, -⟩ := h.existsUnique_phase hp (hm.target_mem l m hl)
  exact ⟨q, hq⟩

end Made

/-- The phases of a plan for a graph that was read name exactly the phases that they depend on
directly. If every phase waits for those, no module starts before all that it depends on outside
its own phase is finished; and so the plan can be carried out to the end. -/
theorem make_guarded {edges isolated : Value} {given : DependencyRanking.Setting → Value}
    {config : RankingConfig} (hg : ModuleGraph.read? edges isolated = .ok g)
    (hc : RankingConfig.check given = .ok config) :
    ∃ components, g.components = .ok components ∧
      (g.nodeCount < 2 ^ 1023 → ∃ plan, make g components
        (couplingTable g : Table ModuleId (CouplingMetrics Float)) config = .ok plan) ∧
      ∀ plan, make g components
        (couplingTable g : Table ModuleId (CouplingMetrics Float)) config = .ok plan →
          Guarded g plan ∧
          (∃ s, Run plan s ∧ ∀ m ∈ g.nodes, m ∈ s.finishedModules) ∧
          ∀ s, Run plan s → ∀ u v, Event.Admissible plan s (.moduleStarts u) → g.Reaches u v →
            (∀ p ∈ plan.phases, u ∈ p.modules → v ∉ p.modules) → v ∈ s.finishedModules := by
  have hm := ModuleGraph.mirrored_of_read? hg
  obtain ⟨components, hok, hp, hex, hmade⟩ := exists_made hg hc
  refine ⟨components, hok, hex, ?_⟩
  intro plan hplan
  rcases hmade plan hplan with ⟨hnodes, rfl⟩ | ⟨setting, levels, h⟩
  · refine ⟨Guarded.empty g, ⟨{}, .start, by simp [hnodes]⟩, ?_⟩
    rintro s - u v ⟨p, hp, -⟩
    exact absurd hp List.not_mem_nil
  · exact ⟨h.guarded hp, h.exists_complete_run hp, fun s hs u v hstart hr hv =>
      h.finished_of_moduleStarts hp hm hs hstart hr hv⟩

theorem make_guarded_cycle : ∃ g components plan,
    ModuleGraph.read? (.list [.tuple [.text "a", .text "b"], .tuple [.text "b", .text "c"],
      .tuple [.text "c", .text "b"], .tuple [.text "c", .text "d"]]) (.list []) = .ok g ∧
    RankingConfig.check DependencyRanking.Setting.default = .ok {} ∧ g.components = .ok components ∧
    make g components (couplingTable g : Table ModuleId (CouplingMetrics Float)) {} = .ok plan ∧
    Guarded g plan ∧ ∃ s, Run plan s ∧ "a" ∈ s.finishedModules := by
  have hg : ModuleGraph.read? (.list [.tuple [.text "a", .text "b"], .tuple [.text "b", .text "c"],
      .tuple [.text "c", .text "b"], .tuple [.text "c", .text "d"]]) (.list []) =
    .ok (.ofEdges [("a", "b"), ("b", "c"), ("c", "b"), ("c", "d")] []) := rfl
  obtain ⟨components, hok, hex, hall⟩ := make_guarded hg RankingConfig.check_default
  obtain ⟨plan, hplan⟩ := hex (lt_two_pow (by decide) (by decide))
  obtain ⟨hguard, ⟨s, hs, hfinished⟩, -⟩ := hall plan hplan
  refine ⟨_, components, plan, hg, RankingConfig.check_default, hok, hplan, hguard, s, hs, ?_⟩
  apply hfinished
  rw [ModuleGraph.mem_nodes_ofEdges]
  exact .inr ⟨("a", "b"), List.mem_cons_self, .inl rfl⟩

end DependencyRanking.Plan
