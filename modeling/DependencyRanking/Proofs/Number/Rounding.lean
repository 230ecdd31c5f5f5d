import DependencyRanking.Number.Exact

/-!
# Rounding rational numbers

A rational number is rounded to an integer nearest to it, and of two to the even one. So rounding
keeps the order, also where the exact quotient is a tie, and what is already rounded stays.
-/
namespace DependencyRanking

structure NearestEven (x : ℚ) (k : ℤ) : Prop where
  dist_le : |x - k| ≤ 1 / 2
  even : |x - k| = 1 / 2 → Even k

namespace NearestEven

variable {x y : ℚ} {k l : ℤ}

theorem of_lt (h : |x - k| < 1 / 2) : NearestEven x k := ⟨h.le, fun heq => absurd heq h.ne⟩

theorem intCast (k : ℤ) : NearestEven k k := of_lt (by norm_num)

theorem neg (h : NearestEven x k) : NearestEven (-x) (-k) := by
  have hdist : |-x - (-k : ℤ)| = |x - k| := by
    rw [Int.cast_neg, ← neg_sub', abs_neg]
  exact ⟨hdist.trans_le h.dist_le, fun heq => (h.even (hdist.symm.trans heq)).neg⟩

theorem mono (hx : NearestEven x k) (hy : NearestEven y l) (hxy : x ≤ y) : k ≤ l := by
  -- out of order by a whole step, both would be the even neighbour of one tie
  by_contra hlt
  have hstep : (l : ℚ) + 1 ≤ k := by exact_mod_cast not_le.1 hlt
  have hlow := (abs_le.1 hx.dist_le).1
  have hhigh := (abs_le.1 hy.dist_le).2
  have hk : (k : ℚ) = l + 1 := by linarith
  have hxk : x - k = -(1 / 2) := by linarith
  have hyl : y - l = 1 / 2 := by linarith
  obtain ⟨a, ha⟩ := hx.even (by rw [hxk, abs_neg, abs_of_pos one_half_pos])
  obtain ⟨b, hb⟩ := hy.even (by rw [hyl, abs_of_pos one_half_pos])
  have hkl : k = l + 1 := by exact_mod_cast hk
  omega

theorem unique (hk : NearestEven x k) (hl : NearestEven x l) : k = l :=
  le_antisymm (hk.mono hl (le_refl x)) (hl.mono hk (le_refl x))

end NearestEven

section Quotients

variable {den : ℕ}

theorem nearestEven_roundHalfEven (num : ℕ) (hden : 0 < den) :
    NearestEven ((num : ℚ) / den) (roundHalfEven num den : ℕ) := by
  -- the remainder is compared with half the divisor; at just half, the parity decides
  have hpos : (0 : ℚ) < den := Nat.cast_pos.2 hden
  have hquot : (num : ℚ) / den = (num / den : ℕ) + ((num % den : ℕ) : ℚ) / den := by
    rw [div_eq_iff hpos.ne', add_mul, div_mul_cancel₀ _ hpos.ne', mul_comm]
    exact_mod_cast (Nat.div_add_mod num den).symm
  have hrest : num % den < den := Nat.mod_lt num hden
  rw [hquot]
  unfold roundHalfEven
  dsimp only
  generalize num / den = q
  generalize num % den = r at hrest ⊢
  have hdown : |((q : ℚ) + (r : ℚ) / den) - (q : ℕ)| = r / den := by
    rw [add_sub_cancel_left, abs_of_nonneg (by positivity)]
  have hup : |((q : ℚ) + (r : ℚ) / den) - (q + 1 : ℕ)| = (den - r : ℕ) / den := by
    have hle : (r : ℚ) / den ≤ 1 := (div_le_one₀ hpos).2 (Nat.cast_le.2 hrest.le)
    rw [Nat.cast_add_one, add_sub_add_left_eq_sub, abs_sub_comm, abs_of_nonneg (sub_nonneg.2 hle),
      Nat.cast_sub hrest.le, sub_div, div_self hpos.ne']
  have hbelow (n : ℕ) (hn : 2 * n < den) : (n : ℚ) / den < 1 / 2 := by
    rw [div_lt_div_iff₀ hpos two_pos]
    exact_mod_cast (by omega : n * 2 < 1 * den)
  have htie (n : ℕ) (hn : 2 * n = den) : (n : ℚ) / den = 1 / 2 := by
    rw [div_eq_div_iff hpos.ne' two_ne_zero]
    exact_mod_cast (by omega : n * 2 = 1 * den)
  split_ifs with hlow hhigh heven
  · exact .of_lt (hdown.trans_lt (hbelow r hlow))
  · exact .of_lt (hup.trans_lt (hbelow (den - r) (by omega)))
  · exact ⟨(hdown.trans (htie r (by omega))).le, fun _ => ⟨q / 2, by omega⟩⟩
  · exact ⟨(hup.trans (htie (den - r) (by omega))).le, fun _ => ⟨(q + 1 : ℕ) / 2, by omega⟩⟩

theorem nearestEven_roundHalfEvenInt (num : ℤ) (hden : 0 < den) :
    NearestEven ((num : ℚ) / den) (roundHalfEvenInt num den) := by
  have hnear := nearestEven_roundHalfEven num.natAbs hden
  rw [Nat.cast_natAbs, Int.cast_abs] at hnear
  unfold roundHalfEvenInt
  split
  · rename_i hneg
    have hsign : |(num : ℚ)| = -num := abs_of_neg (Int.cast_lt_zero.2 hneg)
    rw [hsign, neg_div] at hnear
    simpa only [neg_neg] using hnear.neg
  · rename_i hpos
    rwa [abs_of_nonneg (Int.cast_nonneg (not_lt.1 hpos))] at hnear

theorem nearestEven_roundRat (x : ℚ) (scale : ℕ) : NearestEven (x * scale) (roundRat x scale) := by
  have hquot : x * scale = ((x.num * scale : ℤ) : ℚ) / x.den := by
    rw [Int.cast_mul, Int.cast_natCast, mul_div_right_comm, Rat.num_div_den]
  rw [hquot]
  exact nearestEven_roundHalfEvenInt _ x.den_pos

end Quotients

section Places

variable {x y : ℚ} {scale places : ℕ} {k : ℤ}

theorem roundRat_mono (scale : ℕ) (hxy : x ≤ y) : roundRat x scale ≤ roundRat y scale :=
  (nearestEven_roundRat x scale).mono (nearestEven_roundRat y scale)
    (mul_le_mul_of_nonneg_right hxy (Nat.cast_nonneg scale))

theorem roundRat_eq (h : x * scale = k) : roundRat x scale = k :=
  (nearestEven_roundRat x scale).unique (h ▸ .intCast k)

theorem roundPlaces_eq (places : ℕ) (x : ℚ) :
    Scalar.roundPlaces places x = (roundRat x (10 ^ places) : ℚ) / 10 ^ places := rfl

theorem roundPlaces_mono (places : ℕ) (hxy : x ≤ y) :
    Scalar.roundPlaces places x ≤ Scalar.roundPlaces places y := by
  rw [roundPlaces_eq, roundPlaces_eq]
  exact div_le_div_of_nonneg_right (Int.cast_le.2 (roundRat_mono _ hxy)) (by positivity)

theorem roundPlaces_of_mul_eq (h : x * 10 ^ places = k) : Scalar.roundPlaces places x = x := by
  have hscale : x * (10 ^ places : ℕ) = k := by exact_mod_cast h
  rw [roundPlaces_eq, roundRat_eq hscale, ← h, mul_div_cancel_right₀ _ (by positivity)]

theorem roundPlaces_natCast (places n : ℕ) : Scalar.roundPlaces places (n : ℚ) = n :=
  roundPlaces_of_mul_eq (k := n * 10 ^ places) (by push_cast; rfl)

theorem roundPlaces_nonneg (places : ℕ) (hx : 0 ≤ x) : 0 ≤ Scalar.roundPlaces places x := by
  have hzero := roundPlaces_natCast places 0
  rw [Nat.cast_zero] at hzero
  exact hzero.ge.trans (roundPlaces_mono places hx)

theorem roundPlaces_le (places : ℕ) (x : ℚ) :
    Scalar.roundPlaces places x ≤ x + 1 / 2 / 10 ^ places := by
  have hpos : (0 : ℚ) < 10 ^ places := by positivity
  have hdist := (abs_le.1 (nearestEven_roundRat x (10 ^ places)).dist_le).1
  rw [Nat.cast_pow, Nat.cast_ofNat] at hdist
  rw [roundPlaces_eq, div_le_iff₀ hpos, add_mul, div_mul_cancel₀ _ hpos.ne']
  linarith

end Places

end DependencyRanking
