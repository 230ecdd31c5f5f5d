import DependencyRanking.Proofs.Graph.Condensation
import DependencyRanking.Proofs.Graph.Countdown

/-!
# The levels of transposed tables

A level holds, in ascending order, exactly the positions that wait for placed positions only. The
count of a position is the number of positions that it still waits for; as both tables hold the same
edges, a round takes off that count what the round has placed.
-/
namespace DependencyRanking

variable {successors predecessors : List (List Nat)} {placed current : List Nat}
variable {levels : List (List Nat)} {remaining : List Int} {s : List Nat} {i j : Nat}

def Ready (successors : List (List Nat)) (placed : List Nat) (i : Nat) : Prop :=
  i < successors.length ∧ i ∉ placed ∧ ∀ j ∈ successors.getD i [], j ∈ placed

theorem ready_append_iff : Ready successors (placed ++ current) i ↔
    (i ∉ current ∧ Ready successors placed i) ∨
      (Ready successors (placed ++ current) i ∧ ¬ Ready successors placed i) := by
  constructor
  · intro h
    by_cases hbefore : Ready successors placed i
    · exact .inl ⟨fun hi => h.2.1 (List.mem_append_right _ hi), hbefore⟩
    · exact .inr ⟨h, hbefore⟩
  · rintro (⟨hi, hlt, hp, hall⟩ | ⟨h, -⟩)
    · exact ⟨hlt, by simp [hp, hi], fun j hj => List.mem_append_left _ (hall j hj)⟩
    · exact h

inductive Peeled (successors : List (List Nat)) : List Nat → List (List Nat) → Prop
  | nil {placed : List Nat} (stuck : ∀ i, ¬ Ready successors placed i) :
      Peeled successors placed []
  | cons {placed group : List Nat} {groups : List (List Nat)} (nodup : group.Nodup)
      (ready : ∀ i ∈ group, Ready successors placed i)
      (rest : Peeled successors (placed ++ group) groups) : Peeled successors placed (group :: groups)

/-- Levels from a point on at which some positions are placed, until none is ready. -/
inductive Levelled (successors : List (List Nat)) : List Nat → List (List Nat) → Prop
  | nil {placed : List Nat} (stuck : ∀ i, ¬ Ready successors placed i) :
      Levelled successors placed []
  | cons {placed level : List Nat} {levels : List (List Nat)} (nonempty : level ≠ [])
      (ascending : level.Pairwise (· < ·)) (ready : ∀ i, i ∈ level ↔ Ready successors placed i)
      (rest : Levelled successors (placed ++ level) levels) :
      Levelled successors placed (level :: levels)

section Counts

theorem countP_mem_cons (hj : j ∉ current) (s : List Nat) :
    s.countP (· ∈ j :: current) = s.count j + s.countP (· ∈ current) := by
  induction s with
  | nil => rfl
  | cons i rest ih =>
    rw [List.countP_cons, List.countP_cons, List.count_cons, ih]
    by_cases hij : i = j
    · subst hij
      simp [hj]
      omega
    · simp [hij]
      omega

theorem countP_not_mem_split (hd : ∀ i ∈ current, i ∉ placed) (s : List Nat) :
    s.countP (· ∉ placed) = s.countP (· ∉ placed ++ current) + s.countP (· ∈ current) := by
  induction s with
  | nil => rfl
  | cons i rest ih =>
    rw [List.countP_cons, List.countP_cons, List.countP_cons, ih]
    by_cases hp : i ∈ placed
    · have hc : i ∉ current := fun hc => hd i hc hp
      simp [hp, hc]
    · by_cases hc : i ∈ current <;> simp [hp, hc] <;> omega

theorem count_entries (ht : Transposed successors predecessors) (hn : current.Nodup) :
    (current.flatMap fun j => predecessors.getD j []).count i =
      (successors.getD i []).countP (· ∈ current) := by
  induction current with
  | nil => simp
  | cons j rest ih =>
    obtain ⟨hj, hrest⟩ := List.nodup_cons.1 hn
    rw [List.flatMap_cons, List.count_append, ih hrest, countP_mem_cons hj,
      (ht.nodup_predecessors j).count, (ht.nodup_successors i).count]
    simp only [ht.mem_iff]

end Counts

theorem ascending_mergeSort (h : current.Nodup) :
    (current.mergeSort fun a b => decide (a ≤ b)).Pairwise (· < ·) :=
  pairwise_mergeSort_key id (by simpa using h)

/-- What is placed depends on placed positions only, and the counts are those of the dependencies
that are not placed. -/
structure Counted (successors : List (List Nat)) (placed : List Nat) (remaining : List Int) :
    Prop where
  count : ∀ i : Nat, remaining[i]? = successors[i]?.map fun s => (s.countP (· ∉ placed) : Int)
  closed : ∀ i ∈ placed, ∀ j ∈ successors.getD i [], j ∈ placed

namespace Counted

theorem start (successors : List (List Nat)) : Counted successors [] (initialCounts successors) where
  count i := by simp [initialCounts]
  closed i hi := absurd hi List.not_mem_nil

variable (h : Counted successors placed remaining)
include h

theorem becomes_ready_iff (hc : ∀ i ∈ current, Ready successors placed i) (i : Nat) :
    Ready successors (placed ++ current) i ∧ ¬ Ready successors placed i ↔
      ∃ s, successors[i]? = some s ∧ 1 ≤ s.countP (· ∉ placed) ∧
        s.countP (· ∉ placed) ≤ s.countP (· ∈ current) := by
  have hle : ∀ s : List Nat, s.countP (· ∉ placed) ≤ s.countP (· ∈ current) ↔
      ∀ j ∈ s, j ∈ placed ++ current := by
    intro s
    have hz : ∀ m n : Nat, m + n ≤ n ↔ m = 0 := fun m n => by omega
    rw [countP_not_mem_split (fun i hi => (hc i hi).2.1) s, hz, List.countP_eq_zero]
    simp only [decide_eq_true_eq, not_not]
  simp only [hle, List.one_le_countP_iff, decide_eq_true_eq]
  constructor
  · rintro ⟨⟨hi, hp, hs⟩, hnot⟩
    rw [List.getD_eq_getElem?_getD, List.getElem?_eq_getElem hi, Option.getD_some] at hs
    refine ⟨successors[i], List.getElem?_eq_getElem hi, ?_, hs⟩
    by_contra hall
    simp only [not_exists, not_and, not_not] at hall
    refine hnot ⟨hi, fun hip => hp (List.mem_append_left _ hip), ?_⟩
    rw [List.getD_eq_getElem?_getD, List.getElem?_eq_getElem hi, Option.getD_some]
    exact hall
  · rintro ⟨s, hs, ⟨j, hj, hjp⟩, hall⟩
    have hget : successors.getD i [] = s := by
      rw [List.getD_eq_getElem?_getD, hs, Option.getD_some]
    have hnot : ¬ Ready successors placed i := fun hr => hjp (hr.2.2 j (hget ▸ hj))
    refine ⟨⟨(List.getElem?_eq_some_iff.1 hs).1, fun hi => ?_, hget ▸ hall⟩, hnot⟩
    rcases List.mem_append.1 hi with hi | hi
    · exact hjp (h.closed i hi j (hget ▸ hj))
    · exact hnot (hc i hi)

theorem step (ht : Transposed successors predecessors) (hn : current.Nodup)
    (hready : ∀ i ∈ current, Ready successors placed i) :
    ∃ c, peel predecessors remaining current = .ok c ∧
      Counted successors (placed ++ current) c.remaining ∧ c.ready.Nodup ∧
      ∀ i, i ∈ c.ready ↔ Ready successors (placed ++ current) i ∧ ¬ Ready successors placed i := by
  have hlt : ∀ i, i < successors.length → i < remaining.length := by
    intro i hi
    have hc := h.count i
    rw [List.getElem?_eq_getElem hi] at hc
    exact (List.getElem?_eq_some_iff.1 hc).1
  obtain ⟨c, hc⟩ : ∃ c, Countdown.settleAll { remaining }
      (current.flatMap fun i => predecessors.getD i []) = .ok c := by
    refine Countdown.settleAll_ok fun i hi => ?_
    obtain ⟨j, -, hij⟩ := List.mem_flatMap.1 hi
    exact hlt i (lt_length_of_mem_getD ((ht.mem_iff i j).1 hij))
  have hs := Countdown.settled_of_settleAll hc
  refine ⟨c, peel_eq_ok.2 ⟨fun i hi => ?_, hc⟩, ⟨fun i => ?_, fun i hi j hj => ?_⟩, hs.nodup,
    fun i => ?_⟩
  · rw [ht.length_eq]
    exact (hready i hi).1
  · rw [hs.remaining i, h.count i, count_entries ht hn]
    cases hi : successors[i]? with
    | none => rfl
    | some s =>
      have hsplit := countP_not_mem_split (fun i hi => (hready i hi).2.1) s
      simp only [Option.map_some, List.getD_eq_getElem?_getD, hi, Option.getD_some,
        Option.some.injEq]
      omega
  · refine List.mem_append_left _ ?_
    rcases List.mem_append.1 hi with hi | hi
    · exact h.closed i hi j hj
    · exact (hready i hi).2.2 j hj
  · rw [hs.mem_ready i, h.count i, count_entries ht hn, h.becomes_ready_iff hready i]
    cases hi : successors[i]? with
    | none => simp
    | some s =>
      simp only [Option.map_some, Option.some.injEq, exists_eq_left', List.getD_eq_getElem?_getD,
        hi, Option.getD_some]
      omega

end Counted

theorem mem_initialReady (successors : List (List Nat)) (i : Nat) :
    i ∈ initialReady (initialCounts successors) ↔ Ready successors [] i := by
  unfold initialReady Ready initialCounts
  simp only [List.mem_map, List.mem_filter, List.mem_zipIdx_iff_getElem?, decide_eq_true_eq,
    Prod.exists, List.getElem?_map, List.not_mem_nil, not_false_eq_true, true_and]
  constructor
  · rintro ⟨n, k, ⟨hk, hn⟩, rfl⟩
    obtain ⟨s, hs, rfl⟩ := Option.map_eq_some_iff.1 hk
    obtain rfl : s = [] := List.length_eq_zero_iff.1 (by simpa using hn)
    exact ⟨(List.getElem?_eq_some_iff.1 hs).1, by simp [hs]⟩
  · rintro ⟨hi, hs⟩
    have hnil : successors.getD i [] = [] := List.eq_nil_iff_forall_not_mem.2 hs
    rw [List.getD_eq_getElem?_getD, List.getElem?_eq_getElem hi, Option.getD_some] at hnil
    exact ⟨0, i, ⟨by simp [hi, hnil], rfl⟩, rfl⟩

theorem ascending_initialReady (counts : List Int) : (initialReady counts).Pairwise (· < ·) := by
  have h : (counts.zipIdx.map Prod.snd).Pairwise (· < ·) := by
    rw [List.zipIdx_map_snd]
    exact List.pairwise_lt_range'
  exact h.sublist (List.filter_sublist.map Prod.snd)

/-- Between two rounds, the current positions are all that are ready. -/
structure Peeling (successors : List (List Nat)) (placed : List Nat) (remaining : List Int)
    (current : List Nat) : Prop extends Counted successors placed remaining where
  ascending : current.Pairwise (· < ·)
  ready : ∀ i, i ∈ current ↔ Ready successors placed i

namespace Peeling

theorem start (successors : List (List Nat)) :
    Peeling successors [] (initialCounts successors) (initialReady (initialCounts successors)) where
  __ := Counted.start successors
  ascending := ascending_initialReady _
  ready := mem_initialReady successors

theorem step (h : Peeling successors placed remaining current)
    (ht : Transposed successors predecessors) :
    ∃ c, peel predecessors remaining current = .ok c ∧
      Peeling successors (placed ++ current) c.remaining
        (c.ready.mergeSort fun a b => decide (a ≤ b)) := by
  have hn : current.Nodup := h.ascending.imp fun hij => hij.ne
  obtain ⟨c, hc, hcounted, hnodup, hmem⟩ :=
    h.toCounted.step ht hn fun i hi => (h.ready i).1 hi
  refine ⟨c, hc, hcounted, ascending_mergeSort hnodup, fun i => ?_⟩
  rw [List.mem_mergeSort, hmem]
  refine and_iff_left_of_imp fun hi hbefore => hi.2.1 ?_
  exact List.mem_append_right _ ((h.ready i).2 hbefore)

end Peeling

section Rounds

theorem levelsFrom_eq_error {e : RankingError} (hne : current ≠ [])
    (he : peel predecessors remaining current = .error e) :
    levelsFrom predecessors remaining current = .error e := by
  rw [levelsFrom, if_neg hne]
  split
  · rename_i e' he'
    cases he.symm.trans he'
    rfl
  · rename_i c hc
    cases he.symm.trans hc

theorem levelsFrom_eq_cons {c : Countdown} (hne : current ≠ [])
    (hc : peel predecessors remaining current = .ok c) :
    levelsFrom predecessors remaining current =
      (levelsFrom predecessors c.remaining (c.ready.mergeSort fun a b => decide (a ≤ b)) >>=
        fun rest => pure (current :: rest)) := by
  rw [levelsFrom, if_neg hne]
  split
  · rename_i e he
    cases he.symm.trans hc
  · rename_i c' hc'
    cases hc.symm.trans hc'
    rfl

end Rounds

theorem levelsFrom_levelled (ht : Transposed successors predecessors)
    (h : Peeling successors placed remaining current) :
    ∃ levels, levelsFrom predecessors remaining current = .ok levels ∧
      Levelled successors placed levels := by
  induction remaining, current using levelsFrom.induct predecessors generalizing placed with
  | case1 remaining =>
    rw [levelsFrom]
    refine ⟨[], rfl, .nil fun i hi => ?_⟩
    exact List.not_mem_nil ((h.ready i).2 hi)
  | case2 remaining current hne e he =>
    obtain ⟨c, hc, -⟩ := h.step ht
    rw [hc] at he
    cases he
  | case3 remaining current hne c hc ih =>
    obtain ⟨c', hc', hstep⟩ := h.step ht
    cases hc.symm.trans hc'
    obtain ⟨levels, hok, hl⟩ := ih hstep
    refine ⟨current :: levels, ?_, .cons hne h.ascending h.ready hl⟩
    rw [levelsFrom_eq_cons hne hc, hok]
    rfl

theorem levelsOf_levelled (ht : Transposed successors predecessors) :
    ∃ levels, levelsOf successors predecessors = .ok levels ∧ Levelled successors [] levels :=
  levelsFrom_levelled ht (Peeling.start successors)

namespace Peeled

variable {groups : List (List Nat)} (h : Peeled successors placed groups)
include h

theorem not_mem_placed : ∀ i ∈ groups.flatten, i ∉ placed := by
  induction h with
  | nil stuck => exact fun i hi => absurd hi List.not_mem_nil
  | cons nodup ready rest ih =>
    intro i hi
    rw [List.flatten_cons, List.mem_append] at hi
    rcases hi with hi | hi
    · exact (ready i hi).2.1
    · exact fun hp => ih i hi (List.mem_append_left _ hp)

theorem nodup_flatten : groups.flatten.Nodup := by
  induction h with
  | nil stuck => exact List.nodup_nil
  | cons nodup ready rest ih =>
    rw [List.flatten_cons]
    refine List.nodup_append.2 ⟨nodup, ih, fun i hi j hj hij => ?_⟩
    exact rest.not_mem_placed j hj (List.mem_append_right _ (hij ▸ hi))

theorem lt_length : ∀ i ∈ groups.flatten, i < successors.length := by
  induction h with
  | nil stuck => exact fun i hi => absurd hi List.not_mem_nil
  | cons nodup ready rest ih =>
    intro i hi
    rw [List.flatten_cons, List.mem_append] at hi
    exact hi.elim (fun hi => (ready i hi).1) (ih i)

theorem exists_blocking (hi : i < successors.length) (hp : i ∉ placed ++ groups.flatten) :
    ∃ j ∈ successors.getD i [], j ∉ placed ++ groups.flatten := by
  induction h with
  | @nil placed stuck =>
    rw [List.flatten_nil, List.append_nil] at *
    by_contra hall
    refine stuck i ⟨hi, hp, fun j hj => ?_⟩
    by_contra hjp
    exact hall ⟨j, hj, hjp⟩
  | cons nodup ready rest ih =>
    rw [List.flatten_cons, ← List.append_assoc] at *
    exact ih hp

end Peeled

theorem Peeled.mem_flatten_of_lt {groups : List (List Nat)} (h : Peeled successors [] groups)
    (hlt : ∀ i j, j ∈ successors.getD i [] → j < i) (hi : i < successors.length) :
    i ∈ groups.flatten := by
  induction i using Nat.strong_induction_on with
  | _ i ih =>
    by_contra hp
    obtain ⟨j, hj, hjp⟩ := h.exists_blocking hi (by simpa using hp)
    have hji := hlt i j hj
    exact hjp (by simpa using ih j hji (hji.trans hi))

theorem Levelled.peeled (h : Levelled successors placed levels) :
    Peeled successors placed levels := by
  induction h with
  | nil stuck => exact .nil stuck
  | cons nonempty ascending ready rest ih =>
    exact .cons (ascending.imp fun hij => hij.ne) (fun i hi => (ready i).1 hi) ih

end DependencyRanking
