import DependencyRanking.Proofs.Search.Run

/-!
# The components of a search

The components that a search returns are the classes of mutual reachability, each of them once, and
a component comes after everything that it can reach.
-/
namespace DependencyRanking

variable {α : Type} {nodes : List α} {succ : α → List α} {cs : List (List α)} {c d : List α}
variable {v w : α} {i j : Nat}

namespace Search.Emitted

variable (h : Emitted nodes succ cs)
include h

theorem position_le (hc : cs[i]? = some c) (hd : cs[j]? = some d) (hn : cs.flatten.Nodup)
    (hv : v ∈ c) (hw : w ∈ d) (hr : Reaches nodes succ v w) : j ≤ i := by
  -- the components up to position `i` are closed, so nothing behind them is reached
  by_contra hlt
  have hvi : v ∈ (cs.take (i + 1)).flatten := by
    refine List.mem_flatten.2 ⟨c, ?_, hv⟩
    exact List.mem_of_getElem? ((List.getElem?_take_of_lt (Nat.lt_succ_self i)).trans hc)
  have hwi := (h.closed _ (List.take_prefix (i + 1) cs)).mem_of_reaches hr hvi
  have hwj : w ∈ (cs.drop (i + 1)).flatten := by
    refine List.mem_flatten.2 ⟨d, ?_, hw⟩
    refine List.mem_of_getElem? (i := j - (i + 1)) ?_
    rw [List.getElem?_drop, ← hd]
    congr 1
    omega
  rw [← List.take_append_drop (i + 1) cs, List.flatten_append] at hn
  exact (List.nodup_append.1 hn).2.2 w hwi w hwj rfl

theorem position_unique (hc : cs[i]? = some c) (hd : cs[j]? = some d) (hn : cs.flatten.Nodup)
    (hv : v ∈ c) (hw : w ∈ d) (hm : Mutual nodes succ v w) : i = j :=
  Nat.le_antisymm (h.position_le hd hc hn hw hv hm.2) (h.position_le hc hd hn hv hw hm.1)

theorem mem_iff_mutual (hn : cs.flatten.Nodup) (hcover : ∀ v, v ∈ cs.flatten ↔ v ∈ nodes)
    (hc : c ∈ cs) (hv : v ∈ c) : w ∈ c ↔ Mutual nodes succ v w := by
  constructor
  · intro hw
    exact ⟨h.joined c hc v hv w hw, h.joined c hc w hw v hv⟩
  · intro hm
    have hvn : v ∈ nodes := (hcover v).1 (List.mem_flatten.2 ⟨c, hc, hv⟩)
    obtain ⟨d, hd, hwd⟩ := List.mem_flatten.1 ((hcover w).2 (hm.1.listed hvn))
    obtain ⟨i, hi⟩ := List.mem_iff_getElem?.1 hc
    obtain ⟨j, hj⟩ := List.mem_iff_getElem?.1 hd
    obtain rfl := h.position_unique hi hj hn hv hwd hm
    exact Option.some.inj (hi.symm.trans hj) ▸ hwd

end Search.Emitted

variable [DecidableEq α]

theorem strongComponents_emitted (nodes : List α) (succ : α → List α) :
    ∃ cs, strongComponents nodes succ = .ok cs ∧ Search.Emitted nodes succ cs ∧
      cs.flatten.Nodup ∧ ∀ v, v ∈ cs.flatten ↔ v ∈ nodes := by
  have hstart : Search.Visited nodes succ (Search.start nodes) := .start
  obtain ⟨s, hrun, hvis, hf, hr⟩ := hstart.run
  have h := hvis.invariant
  have hstack := h.stack_eq_nil hf
  refine ⟨s.components, ?_, h.emitted, (List.nodup_append.1 h.placed.nodup).2.1, fun v => ?_⟩
  · unfold strongComponents
    rw [hrun]
    rfl
  · have hp := h.placed.placed v
    rw [hstack] at hp
    constructor
    · intro hv
      exact h.placed.listed v (hp.2 (.inr hv))
    · intro hv
      have hi := (h.placed.covered v hv).resolve_right (by simp [hr])
      exact (hp.1 hi).resolve_left List.not_mem_nil

theorem strongComponents_classes (nodes : List α) (succ : α → List α) :
    ∃ cs, strongComponents nodes succ = .ok cs ∧
      (∀ c ∈ cs, c.Nodup ∧ ∃ v ∈ nodes, ∀ w, w ∈ c ↔ Mutual nodes succ v w) ∧
      (∀ v ∈ nodes, ∃! i : Nat, ∃ c, cs[i]? = some c ∧ v ∈ c) ∧
      ∀ v ∈ nodes, ∀ w ∈ nodes, (∃ c ∈ cs, v ∈ c ∧ w ∈ c) ↔ Mutual nodes succ v w := by
  obtain ⟨cs, hok, h, hn, hcover⟩ := strongComponents_emitted nodes succ
  have hpos : ∀ v ∈ nodes, ∃ (i : Nat) (c : List α), cs[i]? = some c ∧ v ∈ c := by
    intro v hv
    obtain ⟨c, hc, hvc⟩ := List.mem_flatten.1 ((hcover v).2 hv)
    obtain ⟨i, hi⟩ := List.mem_iff_getElem?.1 hc
    exact ⟨i, c, hi, hvc⟩
  have hsame : ∀ {i : Nat} {c : List α} {v w : α}, cs[i]? = some c → v ∈ c → v ∈ nodes → Mutual nodes succ v w →
      w ∈ c := by
    intro i c v w hc hv hvn hm
    obtain ⟨j, d, hd, hw⟩ := hpos w (hm.1.listed hvn)
    obtain rfl := h.position_unique hc hd hn hv hw hm
    obtain rfl : c = d := Option.some.inj (hc.symm.trans hd)
    exact hw
  refine ⟨cs, hok, fun c hc => ⟨?_, ?_⟩, fun v hv => ?_, fun v hv w hw => ⟨?_, fun hm => ?_⟩⟩
  · exact (List.nodup_flatten.1 hn).1 c hc
  · obtain ⟨v, hv⟩ := List.exists_mem_of_ne_nil c fun he => h.nonempty (he ▸ hc)
    obtain ⟨i, hi⟩ := List.mem_iff_getElem?.1 hc
    have hvn := (hcover v).1 (List.mem_flatten.2 ⟨c, hc, hv⟩)
    refine ⟨v, hvn, fun w => ⟨fun hw => ?_, hsame hi hv hvn⟩⟩
    exact ⟨h.joined c hc v hv w hw, h.joined c hc w hw v hv⟩
  · obtain ⟨i, c, hc, hvc⟩ := hpos v hv
    refine ⟨i, ⟨c, hc, hvc⟩, fun j ⟨d, hd, hvd⟩ => ?_⟩
    exact h.position_unique hd hc hn hvd hvc ⟨.refl v, .refl v⟩
  · rintro ⟨c, hc, hvc, hwc⟩
    exact ⟨h.joined c hc v hvc w hwc, h.joined c hc w hwc v hvc⟩
  · obtain ⟨i, c, hc, hvc⟩ := hpos v hv
    exact ⟨c, List.mem_of_getElem? hc, hvc, hsame hc hvc hv hm⟩

theorem strongComponents_reverse_topological (nodes : List α) (succ : α → List α) :
    ∃ cs, strongComponents nodes succ = .ok cs ∧ ∀ (i j : Nat) (c d : List α),
      cs[i]? = some c → cs[j]? = some d → i ≠ j →
        (∃ v ∈ c, ∃ w ∈ d, Reaches nodes succ v w) → j < i := by
  obtain ⟨cs, hok, h, hn, -⟩ := strongComponents_emitted nodes succ
  refine ⟨cs, hok, fun i j c d hc hd hij ⟨v, hv, w, hw, hr⟩ => ?_⟩
  exact lt_of_le_of_ne (h.position_le hc hd hn hv hw hr) hij.symm

end DependencyRanking
