import DependencyRanking.Graph.Level
import DependencyRanking.Proofs.Outcome
import Mathlib.Data.List.Induction
import Mathlib.Data.List.Nodup

/-!
# What counting down yields

A round takes one off a count for every placed dependency. A count falls by as many as its position
is named, and the position becomes ready, once, if the count was positive and is so no more. This
holds on any tables, also if counts fall below zero.
-/
namespace DependencyRanking

variable {before : List Int} {dependents : List Nat} {c : Countdown} {i : Nat}

namespace Countdown

structure Settled (before : List Int) (dependents : List Nat) (c : Countdown) : Prop where
  remaining : ∀ i : Nat, c.remaining[i]? = before[i]?.map (· - (dependents.count i : Int))
  mem_ready : ∀ i, i ∈ c.ready ↔
    ∃ n, before[i]? = some n ∧ 1 ≤ n ∧ n ≤ (dependents.count i : Int)
  nodup : c.ready.Nodup

theorem Settled.nil (before : List Int) : Settled before [] { remaining := before } where
  remaining i := by
    cases before[i]? with
    | none => rfl
    | some n => simp
  mem_ready i := by
    refine ⟨fun h => absurd h List.not_mem_nil, fun ⟨n, _, h₁, h₂⟩ => ?_⟩
    rw [List.count_nil] at h₂
    omega
  nodup := List.nodup_nil

theorem count_concat (dependents : List Nat) (i j : Nat) :
    (dependents ++ [i]).count j = dependents.count j + if i = j then 1 else 0 := by
  rw [List.count_append, List.count_singleton]
  simp

theorem settle_eq_ok {c d : Countdown} : c.settle i = .ok d ↔
    ∃ n, c.remaining[i]? = some n ∧
      d = ⟨c.remaining.set i (n - 1), if n = 1 then c.ready ++ [i] else c.ready⟩ := by
  unfold settle
  cases c.remaining[i]? with
  | none => simp
  | some n => simp [eq_comm]

section Snoc

variable {n : Int} (h : Settled before dependents c) (hn : c.remaining[i]? = some n)
include h hn

theorem Settled.exists_before :
    ∃ b, before[i]? = some b ∧ n = b - (dependents.count i : Int) := by
  have hr := h.remaining i
  rw [hn] at hr
  obtain ⟨b, hb, hbn⟩ := Option.map_eq_some_iff.1 hr.symm
  exact ⟨b, hb, hbn.symm⟩

theorem Settled.remaining_set (j : Nat) : (c.remaining.set i (n - 1))[j]? =
    before[j]?.map (· - ((dependents ++ [i]).count j : Int)) := by
  obtain ⟨b, hb, hbn⟩ := h.exists_before hn
  rw [count_concat, List.getElem?_set]
  by_cases hij : i = j
  · subst hij
    have hlt := (List.getElem?_eq_some_iff.1 hn).1
    rw [if_pos rfl, if_pos hlt, if_pos rfl, hb, Option.map_some, Option.some.injEq]
    omega
  · rw [if_neg hij, if_neg hij, h.remaining j, Nat.add_zero]

theorem Settled.mem_ready_snoc (j : Nat) : j ∈ (if n = 1 then c.ready ++ [i] else c.ready) ↔
    ∃ b, before[j]? = some b ∧ 1 ≤ b ∧ b ≤ ((dependents ++ [i]).count j : Int) := by
  obtain ⟨b, hb, hbn⟩ := h.exists_before hn
  have hmem : j ∈ (if n = 1 then c.ready ++ [i] else c.ready) ↔ j ∈ c.ready ∨ (n = 1 ∧ j = i) := by
    by_cases hn1 : n = 1 <;> simp [hn1]
  rw [hmem, count_concat, h.mem_ready j]
  by_cases hij : i = j
  · subst hij
    rw [hb, if_pos rfl]
    constructor
    · rintro (⟨m, hm, h₁, h₂⟩ | ⟨h₁, -⟩)
      · exact ⟨m, hm, h₁, by omega⟩
      · exact ⟨b, rfl, by omega, by omega⟩
    · rintro ⟨m, hm, h₁, h₂⟩
      cases hm
      by_cases hle : b ≤ (dependents.count i : Int)
      · exact .inl ⟨b, rfl, h₁, hle⟩
      · exact .inr ⟨by omega, rfl⟩
  · rw [if_neg hij, Nat.add_zero]
    exact ⟨fun hj => hj.resolve_right fun he => hij he.2.symm, .inl⟩

theorem Settled.nodup_snoc : (if n = 1 then c.ready ++ [i] else c.ready).Nodup := by
  obtain ⟨b, hb, hbn⟩ := h.exists_before hn
  split
  · have hi : i ∉ c.ready := by
      intro hi
      obtain ⟨m, hm, -, hle⟩ := (h.mem_ready i).1 hi
      cases hb.symm.trans hm
      omega
    refine List.nodup_append.2 ⟨h.nodup, List.nodup_singleton i, fun x hx y hy => ?_⟩
    rw [List.mem_singleton] at hy
    exact fun he => hi (hy ▸ he ▸ hx)
  · exact h.nodup

end Snoc

theorem Settled.snoc {d : Countdown} (h : Settled before dependents c) (hd : c.settle i = .ok d) :
    Settled before (dependents ++ [i]) d := by
  obtain ⟨n, hn, rfl⟩ := settle_eq_ok.1 hd
  exact ⟨h.remaining_set hn, h.mem_ready_snoc hn, h.nodup_snoc hn⟩

theorem settleAll_concat (c : Countdown) (dependents : List Nat) (i : Nat) :
    c.settleAll (dependents ++ [i]) = c.settleAll dependents >>= fun d => d.settle i :=
  Outcome.foldlM_concat

theorem settled_of_settleAll (h : settleAll { remaining := before } dependents = .ok c) :
    Settled before dependents c := by
  induction dependents using List.reverseRecOn generalizing c with
  | nil =>
    cases h
    exact Settled.nil before
  | append_singleton rest i ih =>
    rw [settleAll_concat] at h
    obtain ⟨d, hd, hi⟩ := Outcome.bind_eq_ok.1 h
    exact (ih hd).snoc hi

theorem settleAll_ok (h : ∀ i ∈ dependents, i < before.length) :
    ∃ c, settleAll { remaining := before } dependents = .ok c := by
  induction dependents using List.reverseRecOn with
  | nil => exact ⟨_, rfl⟩
  | append_singleton rest i ih =>
    obtain ⟨c, hc⟩ := ih fun j hj => h j (List.mem_append_left _ hj)
    have hi : i < before.length := h i (List.mem_append_right _ (List.mem_singleton_self i))
    have hr := (settled_of_settleAll hc).remaining i
    rw [List.getElem?_eq_getElem hi, Option.map_some] at hr
    rw [settleAll_concat, hc]
    exact ⟨_, settle_eq_ok.2 ⟨_, hr, rfl⟩⟩

end Countdown

theorem entriesAt_eq_ok {table : List (List Nat)} {positions entries : List Nat} :
    entriesAt table positions = .ok entries ↔
      (∀ i ∈ positions, i < table.length) ∧
        entries = positions.flatMap fun i => table.getD i [] := by
  unfold entriesAt
  rw [Outcome.bind_eq_ok]
  constructor
  · rintro ⟨lists, hlists, he⟩
    cases he
    have hentry := (Outcome.mapM_eq_ok.1 hlists).imp
      (S := fun i l => i < table.length ∧ table.getD i [] = l) fun i l h => by
        split at h
        · rename_i l' hl
          cases h
          exact ⟨(List.getElem?_eq_some_iff.1 hl).1, by rw [List.getD_eq_getElem?_getD, hl]; rfl⟩
        · cases h
    obtain ⟨hlt, hl⟩ := (List.forall₂_and_left _ _).1 hentry
    refine ⟨hlt, congrArg List.flatten ?_⟩
    rw [← List.forall₂_eq_eq_eq, List.forall₂_map_right_iff]
    exact (hl.imp fun i l h => h.symm).flip
  · rintro ⟨hlt, rfl⟩
    refine ⟨positions.map fun i => table.getD i [], Outcome.mapM_of_eq_ok fun i hi => ?_, rfl⟩
    simp [hlt i hi]

section Failure

variable {table : List (List Nat)} {positions : List Nat} {e : RankingError}

theorem settleAll_error (h : c.settleAll dependents = .error e) : e = .positionOutOfRange := by
  induction dependents using List.reverseRecOn with
  | nil => cases h
  | append_singleton rest i ih =>
    rw [Countdown.settleAll_concat, Outcome.bind_eq_error] at h
    rcases h with h | ⟨d, -, h⟩
    · exact ih h
    · simp only [Countdown.settle] at h
      split at h
      · cases h
      · exact (Except.error.inj h).symm

theorem entriesAt_error (h : entriesAt table positions = .error e) : e = .positionOutOfRange := by
  rw [entriesAt, Outcome.bind_eq_error] at h
  rcases h with h | ⟨lists, -, h⟩
  · obtain ⟨-, i, -, -, -, hi⟩ := Outcome.failure?_mapM_eq_some.1 (Outcome.failure?_eq_some.2 h)
    split at hi
    · cases hi
    · exact (Except.error.inj hi).symm
  · cases h

theorem peel_error {predecessors : List (List Nat)} {remaining : List Int} {current : List Nat}
    (h : peel predecessors remaining current = .error e) : e = .positionOutOfRange := by
  rw [peel, Outcome.bind_eq_error] at h
  rcases h with h | ⟨entries, -, h⟩
  · exact entriesAt_error h
  · exact settleAll_error h

end Failure

theorem peel_eq_ok {predecessors : List (List Nat)} {remaining : List Int} {current : List Nat} :
    peel predecessors remaining current = .ok c ↔
      (∀ i ∈ current, i < predecessors.length) ∧
        Countdown.settleAll { remaining } (current.flatMap fun i => predecessors.getD i []) =
          .ok c := by
  unfold peel
  rw [Outcome.bind_eq_ok]
  simp only [entriesAt_eq_ok]
  constructor
  · rintro ⟨entries, ⟨hlt, rfl⟩, hc⟩
    exact ⟨hlt, hc⟩
  · rintro ⟨hlt, hc⟩
    exact ⟨_, ⟨hlt, rfl⟩, hc⟩

end DependencyRanking
