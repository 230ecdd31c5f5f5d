import DependencyRanking.Number.Exact
import DependencyRanking.Statistics

/-!
# Quantiles without rounding

Over the rational numbers a quantile is the value on the line between two order statistics of the
sample, at a position between them. It rises with the position, and up to the next whole position it
stays below the order statistic there.
-/
namespace DependencyRanking

def entryOrLast (l : List ℚ) (i : ℕ) : ℚ := l.getD (min i (l.length - 1)) 0

def orderStatistic (sample : List ℚ) : ℕ → ℚ := entryOrLast (sample.mergeSort (· ≤ ·))

def interpolation (s : ℕ → ℚ) (x : ℚ) : ℚ := s ⌊x⌋₊ + (x - ⌊x⌋₊) * (s (⌊x⌋₊ + 1) - s ⌊x⌋₊)

section Interpolation

variable {s : ℕ → ℚ} {x y : ℚ}

theorem interpolation_natCast (s : ℕ → ℚ) (n : ℕ) : interpolation s n = s n := by
  simp [interpolation]

theorem le_interpolation (hs : Monotone s) (hx : 0 ≤ x) : s ⌊x⌋₊ ≤ interpolation s x := by
  have hpart : (0 : ℚ) ≤ x - ⌊x⌋₊ := sub_nonneg.2 (Nat.floor_le hx)
  have hstep : 0 ≤ s (⌊x⌋₊ + 1) - s ⌊x⌋₊ := sub_nonneg.2 (hs (Nat.le_succ _))
  exact le_add_of_nonneg_right (mul_nonneg hpart hstep)

theorem interpolation_le (hs : Monotone s) (x : ℚ) : interpolation s x ≤ s (⌊x⌋₊ + 1) := by
  have hpart : x - ⌊x⌋₊ ≤ 1 := sub_le_iff_le_add'.2 (Nat.lt_floor_add_one x).le
  have hstep : 0 ≤ s (⌊x⌋₊ + 1) - s ⌊x⌋₊ := sub_nonneg.2 (hs (Nat.le_succ _))
  have hle := mul_le_of_le_one_left hstep hpart
  unfold interpolation
  linarith

theorem interpolation_mono (hs : Monotone s) (hx : 0 ≤ x) (hxy : x ≤ y) :
    interpolation s x ≤ interpolation s y := by
  rcases (Nat.floor_mono hxy).eq_or_lt with heq | hlt
  · have hstep : 0 ≤ s (⌊y⌋₊ + 1) - s ⌊y⌋₊ := sub_nonneg.2 (hs (Nat.le_succ _))
    unfold interpolation
    rw [heq]
    gcongr
  · calc interpolation s x ≤ s (⌊x⌋₊ + 1) := interpolation_le hs x
      _ ≤ s ⌊y⌋₊ := hs hlt
      _ ≤ interpolation s y := le_interpolation hs (hx.trans hxy)

theorem interpolation_le_ceil (hs : Monotone s) (hx : 0 ≤ x) : interpolation s x ≤ s ⌈x⌉₊ :=
  (interpolation_mono hs hx (Nat.le_ceil x)).trans_eq (interpolation_natCast s _)

end Interpolation

section Order

variable {l sample : List ℚ} {a : ℚ} {i : ℕ}

theorem entryOrLast_eq (hi : i < l.length) : entryOrLast l i = l[i] := by
  unfold entryOrLast
  rw [min_eq_left (Nat.le_sub_one_of_lt hi), List.getD_eq_getElem]

theorem monotone_entryOrLast (hl : l.SortedLE) : Monotone (entryOrLast l) := by
  intro i j hij
  rcases Nat.eq_zero_or_pos l.length with hnone | hsome
  · rw [List.length_eq_zero_iff.1 hnone]
    exact le_refl _
  · have hlast : min j (l.length - 1) < l.length := by omega
    have hle : min i (l.length - 1) ≤ min j (l.length - 1) := by omega
    unfold entryOrLast
    rw [List.getD_eq_getElem _ _ (hle.trans_lt hlast), List.getD_eq_getElem _ _ hlast]
    exact hl.getElem_le_getElem_of_le hle

theorem monotone_orderStatistic (sample : List ℚ) : Monotone (orderStatistic sample) :=
  monotone_entryOrLast List.sortedLE_mergeSort

theorem countP_le_of_lt_entry (hl : l.SortedLE) (hi : i < l.length) (ha : a < l[i]) :
    l.countP (· ≤ a) ≤ i := by
  have hback : (l.drop i).countP (· ≤ a) = 0 := by
    refine List.countP_eq_zero.2 fun x hx => ?_
    obtain ⟨j, hj, rfl⟩ := List.mem_drop_iff_getElem.1 hx
    have hle : l[i] ≤ l[i + j] := hl.getElem_le_getElem_of_le (Nat.le_add_right i j)
    simpa using ha.trans_le hle
  rw [← List.take_append_drop i l, List.countP_append, hback, Nat.add_zero]
  exact List.countP_le_length.trans (List.length_take_le i l)

theorem orderStatistic_le (hi : i < sample.countP (· ≤ a)) : orderStatistic sample i ≤ a := by
  have hperm := List.mergeSort_perm sample (· ≤ ·)
  rw [← hperm.countP_eq] at hi
  have hlt := hi.trans_le List.countP_le_length
  unfold orderStatistic
  rw [entryOrLast_eq hlt]
  exact not_lt.1 fun ha =>
    absurd (countP_le_of_lt_entry List.sortedLE_mergeSort hlt ha) (Nat.not_le.2 hi)

end Order

section Quantiles

theorem between_eq (a b t : ℚ) : between a b t = a + t * (b - a) := by
  have h : between a b t = if (0.5 : ℚ) ≤ t then b - (b - a) * (1 - t) else a + (b - a) * t := rfl
  rw [h]
  split <;> ring

theorem pointAt_eq (sorted : List ℚ) {x : ℚ} (hx : 0 ≤ x) :
    pointAt sorted x = interpolation (entryOrLast sorted) x := by
  have h : pointAt sorted x = if ((sorted.length - 1 : ℕ) : ℚ) ≤ x then
      between (sorted.getD (sorted.length - 1) 0) (sorted.getD (sorted.length - 1) 0) (x + 1)
    else between (sorted.getD ⌊x⌋₊ 0) (sorted.getD (⌊x⌋₊ + 1) 0) (x - ⌊x⌋₊) := rfl
  rw [h]
  unfold interpolation entryOrLast
  split
  · rename_i hlast
    have hfloor : sorted.length - 1 ≤ ⌊x⌋₊ := Nat.le_floor hlast
    rw [between_eq, min_eq_right hfloor, min_eq_right (hfloor.trans (Nat.le_succ _))]
    ring
  · rename_i hlast
    have hfloor : ⌊x⌋₊ < sorted.length - 1 := (Nat.floor_lt hx).2 (not_le.1 hlast)
    rw [between_eq, min_eq_left hfloor.le, min_eq_left hfloor]

theorem quantile_eq (sample : List ℚ) {q : ℚ} (h0 : 0 ≤ q) (h1 : q ≤ 1) :
    quantile sample q =
      .ok (interpolation (orderStatistic sample) ((sample.length - 1 : ℕ) * q)) := by
  unfold quantile
  split
  · rename_i hempty
    rw [List.isEmpty_iff.1 hempty]
    simp [interpolation, orderStatistic, entryOrLast]
  · rw [if_pos ⟨h0, h1⟩]
    split
    · rename_i undefined hfound
      have hdefined : (undefined == undefined) = true := beq_self_eq_true undefined
      simpa [hdefined] using List.find?_some hfound
    · exact congrArg Except.ok (pointAt_eq _ (mul_nonneg (Nat.cast_nonneg _) h0))

end Quantiles

end DependencyRanking
