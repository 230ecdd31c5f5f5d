import DependencyRanking.Proofs.Graph.Level

/-!
# Peeling tables that need not match

Nothing makes the two tables of a condensation hold the same edges. A count falls by one whenever a
placed position names it and never rises, so it is used up in one round at most, and a count that
starts at zero is never used up again. That round places the position. Peeling stops early only
where a position has no entry in a table.
-/
namespace DependencyRanking

variable {successors predecessors : List (List Nat)} {placed current : List Nat}
variable {levels : List (List Nat)} {remaining : List Int} {c : Countdown} {i : Nat}

def namings (predecessors : List (List Nat)) (placed : List Nat) (i : Nat) : Nat :=
  (placed.flatMap fun j => predecessors.getD j []).count i

theorem namings_append (predecessors : List (List Nat)) (placed current : List Nat) (i : Nat) :
    namings predecessors (placed ++ current) i =
      namings predecessors placed i + namings predecessors current i := by
  simp [namings]

/-- A position that is not placed, though the placed ones name it as often as it has successors. -/
def Due (successors predecessors : List (List Nat)) (placed : List Nat) (i : Nat) : Prop :=
  i < successors.length ∧ i ∉ placed ∧
    (successors.getD i []).length ≤ namings predecessors placed i

/-- Levels from a point on at which some positions are placed: each holds all that is due, until
nothing is. -/
inductive Exhausted (successors predecessors : List (List Nat)) :
    List Nat → List (List Nat) → Prop
  | nil {placed : List Nat} (stuck : ∀ i, ¬ Due successors predecessors placed i) :
      Exhausted successors predecessors placed []
  | cons {placed level : List Nat} {levels : List (List Nat)} (nonempty : level ≠ [])
      (ascending : level.Pairwise (· < ·))
      (due : ∀ i, i ∈ level ↔ Due successors predecessors placed i)
      (rest : Exhausted successors predecessors (placed ++ level) levels) :
      Exhausted successors predecessors placed (level :: levels)

namespace Exhausted

theorem nodup (h : Exhausted successors predecessors placed levels) (hp : placed.Nodup) :
    (placed ++ levels.flatten).Nodup := by
  induction h with
  | nil stuck => simpa using hp
  | cons nonempty ascending due rest ih =>
    rw [List.flatten_cons, ← List.append_assoc]
    apply ih
    apply hp.append (ascending.imp fun hij => hij.ne)
    intro i hi hlevel
    exact ((due i).1 hlevel).2.1 hi

theorem ascending_of_mem (h : Exhausted successors predecessors placed levels) :
    ∀ level ∈ levels, level.Pairwise (· < ·) := by
  induction h with
  | nil stuck => simp
  | cons nonempty ascending due rest ih => exact List.forall_mem_cons.2 ⟨ascending, ih⟩

end Exhausted

def Dangling (successors predecessors : List (List Nat)) : Prop :=
  predecessors.length < successors.length ∨
    ∃ entries ∈ predecessors, ∃ i ∈ entries, successors.length ≤ i

/-- Between two rounds: the counts are what the namings have left of them, those of placed positions
are used up, and the current positions are all that are due. -/
structure Exhausting (successors predecessors : List (List Nat)) (placed : List Nat)
    (remaining : List Int) (current : List Nat) : Prop where
  count : ∀ i : Nat, remaining[i]? =
    successors[i]?.map fun s => (s.length : Int) - (namings predecessors placed i : Int)
  spent : ∀ i ∈ placed, (successors.getD i []).length ≤ namings predecessors placed i
  ascending : current.Pairwise (· < ·)
  due : ∀ i, i ∈ current ↔ Due successors predecessors placed i

namespace Exhausting

theorem start (successors predecessors : List (List Nat)) :
    Exhausting successors predecessors [] (initialCounts successors)
      (initialReady (initialCounts successors)) where
  count i := by simp [initialCounts, namings]
  spent := by simp
  ascending := ascending_initialReady _
  due i := by
    rw [mem_initialReady]
    simp [Ready, Due, namings, List.eq_nil_iff_forall_not_mem]

variable (h : Exhausting successors predecessors placed remaining current)
include h

theorem mem_iff_spent {s : List Nat} (hs : successors[i]? = some s) :
    i ∈ placed ++ current ↔ s.length ≤ namings predecessors placed i := by
  have hget : successors.getD i [] = s := by
    rw [List.getD_eq_getElem?_getD, hs, Option.getD_some]
  have hlt : i < successors.length := (List.getElem?_eq_some_iff.1 hs).1
  have hspent := h.spent i
  have hdue := h.due i
  simp only [Due, hget, hlt, true_and] at hspent hdue
  rw [List.mem_append, hdue]
  tauto

theorem step (hc : peel predecessors remaining current = .ok c) :
    Exhausting successors predecessors (placed ++ current) c.remaining
      (c.ready.mergeSort fun a b => decide (a ≤ b)) := by
  obtain ⟨-, hsettle⟩ := peel_eq_ok.1 hc
  have hs := Countdown.settled_of_settleAll hsettle
  constructor
  case count =>
    intro i
    rw [hs.remaining i, h.count i, namings_append]
    cases successors[i]? with
    | none => rfl
    | some s =>
      simp only [Option.map_some, namings, Option.some.injEq]
      omega
  case spent =>
    intro i hi
    rw [namings_append]
    apply Nat.le_add_right_of_le
    rcases List.mem_append.1 hi with hi | hi
    · exact h.spent i hi
    · exact ((h.due i).1 hi).2.2
  case ascending => exact ascending_mergeSort hs.nodup
  case due =>
    intro i
    rw [List.mem_mergeSort, hs.mem_ready i, h.count i, Due, namings_append]
    cases hi : successors[i]? with
    | none =>
      have hlt : ¬ i < successors.length := by simpa using hi
      simp [hlt]
    | some s =>
      have hlt : i < successors.length := (List.getElem?_eq_some_iff.1 hi).1
      rw [h.mem_iff_spent hi, List.getD_eq_getElem?_getD, hi]
      simp only [Option.map_some, Option.some.injEq, exists_eq_left', Option.getD_some, hlt,
        true_and, namings]
      -- ready in this round: the count was positive, and the namings of the round reach it
      omega

theorem lt_length (hi : i < successors.length) : i < remaining.length := by
  have hc := h.count i
  rw [List.getElem?_eq_getElem hi] at hc
  exact (List.getElem?_eq_some_iff.1 hc).1

theorem dangling (hfail : ∀ c, peel predecessors remaining current ≠ .ok c) :
    Dangling successors predecessors := by
  by_contra hnot
  simp only [Dangling, not_or, not_exists, not_and, not_lt, not_le] at hnot
  obtain ⟨hlength, hentries⟩ := hnot
  obtain ⟨c, hc⟩ : ∃ c, Countdown.settleAll { remaining }
      (current.flatMap fun j => predecessors.getD j []) = .ok c := by
    apply Countdown.settleAll_ok
    intro i hi
    obtain ⟨j, hj, hij⟩ := List.mem_flatMap.1 hi
    have hlt : j < predecessors.length := ((h.due j).1 hj).1.trans_le hlength
    rw [List.getD_eq_getElem?_getD, List.getElem?_eq_getElem hlt, Option.getD_some] at hij
    exact h.lt_length (hentries _ (List.getElem_mem hlt) i hij)
  apply hfail c
  rw [peel_eq_ok]
  exact ⟨fun i hi => ((h.due i).1 hi).1.trans_le hlength, hc⟩

end Exhausting

theorem levelsFrom_exhausts (h : Exhausting successors predecessors placed remaining current) :
    (levelsFrom predecessors remaining current = .error .positionOutOfRange ∧
      Dangling successors predecessors) ∨
    ∃ levels, levelsFrom predecessors remaining current = .ok levels ∧
      Exhausted successors predecessors placed levels := by
  induction remaining, current using levelsFrom.induct predecessors generalizing placed with
  | case1 remaining =>
    right
    rw [levelsFrom]
    refine ⟨[], rfl, .nil fun i hi => ?_⟩
    exact List.not_mem_nil ((h.due i).2 hi)
  | case2 remaining current hne e he =>
    left
    cases peel_error he
    refine ⟨levelsFrom_eq_error hne he, h.dangling fun c hc => ?_⟩
    cases he.symm.trans hc
  | case3 remaining current hne c hc ih =>
    rw [levelsFrom_eq_cons hne hc]
    rcases ih (h.step hc) with ⟨hfail, hdangling⟩ | ⟨levels, hok, hlevels⟩
    · left
      rw [hfail]
      exact ⟨rfl, hdangling⟩
    · right
      rw [hok]
      exact ⟨current :: levels, rfl, .cons hne h.ascending h.due hlevels⟩

/-- Peeling ends on any two tables. Either it stops at a position without an entry, which takes a
table that is too short or an entry out of range, or every position stands in one level at most and
every level is ascending. The levels are then those in which the counts are used up. -/
theorem Condensation.levels_exhaust (c : Condensation) :
    (c.levels = .error .positionOutOfRange ∧
      (c.predecessors.length < c.successors.length ∨
        ∃ entries ∈ c.predecessors, ∃ i ∈ entries, c.successors.length ≤ i)) ∨
    ∃ levels, c.levels = .ok levels ∧ levels.flatten.Nodup ∧
      (∀ level ∈ levels, level.Pairwise (· < ·)) ∧
      Exhausted c.successors c.predecessors [] levels := by
  rcases levelsFrom_exhausts (Exhausting.start c.successors c.predecessors) with h | h
  · exact .inl h
  · obtain ⟨levels, hok, hlevels⟩ := h
    exact .inr ⟨levels, hok, hlevels.nodup List.nodup_nil, hlevels.ascending_of_mem, hlevels⟩

example : levelsOf [[1], []] [[0], [0, 0]] = .ok [[1], [0]] := by cbv

end DependencyRanking
