import DependencyRanking.Proofs.Number.Unsigned

/-!
# The doubles of counts

A count below half the range of doubles has a double above zero that is finite.
-/
namespace DependencyRanking.Double

open Float.Model (UnpackedFloat Format totalExponent)
open Float.Model.UnpackedFloat

inductive Normalized (t : Int) : UnpackedFloat → Prop
  | finite (m : Nat) (e : Int) (pos : 0 < m) (hm : m.log2 = 52) (he : t ≤ e ∧ e ≤ t + 1) :
      Normalized t (.finite .positive m e pos)

section Rounding

variable {m k : Nat} {e t : Int}

theorem log2_mul_two_pow (hm : m ≠ 0) (k : Nat) : (m * 2 ^ k).log2 = m.log2 + k := by
  rw [Nat.log2_eq_iff (Nat.mul_ne_zero hm (Nat.two_pow_pos k).ne'), Nat.pow_add,
    Nat.add_right_comm, Nat.pow_add]
  exact ⟨Nat.mul_le_mul_right _ (Nat.log2_self_le hm),
    Nat.mul_lt_mul_of_pos_right Nat.lt_log2_self (Nat.two_pow_pos k)⟩

theorem log2_div_two_pow (hm : m ≠ 0) (h : m.log2 = 52 + k) :
    2 ^ 52 ≤ m / 2 ^ k ∧ m / 2 ^ k < 2 ^ 53 := by
  have hlow := Nat.log2_self_le hm
  have hhigh : m < 2 ^ (m.log2 + 1) := Nat.lt_log2_self
  rw [h, Nat.pow_add] at hlow
  rw [h, Nat.add_right_comm, Nat.pow_add] at hhigh
  exact ⟨(Nat.le_div_iff_mul_le (Nat.two_pow_pos k)).2 hlow, Nat.div_lt_of_lt_mul (by
    rwa [Nat.mul_comm])⟩

theorem mantissa_shiftRight (em : ExtendedMantissa) (k : Nat) :
    (em >>> k).mantissa = em.mantissa / 2 ^ k := by
  induction k with
  | zero => exact (Nat.div_one _).symm
  | succ k ih =>
    change (em >>> k).mantissa / 2 = _
    rw [ih, Nat.div_div_eq_div_mul, Nat.pow_succ]

theorem roundedMantissa_bounds (em : ExtendedMantissa) :
    em.mantissa ≤ em.roundedMantissa ∧ em.roundedMantissa ≤ em.mantissa + 1 := by
  obtain ⟨m, round, sticky⟩ := em
  unfold ExtendedMantissa.roundedMantissa
  cases round <;> cases sticky <;>
    simp only [ExtendedMantissa.accuracy, Accuracy.roundToNearestEven] <;> omega

theorem mantissa_ofMantissaAndAccuracy (m : Nat) (accuracy : Accuracy) :
    (ExtendedMantissa.ofMantissaAndAccuracy m accuracy).mantissa = m := by
  unfold ExtendedMantissa.ofMantissaAndAccuracy
  split <;> rfl

theorem shiftToTargetExponent_eq (accuracy : Accuracy) (h : m.log2 = 52 + k) (he : -1074 ≤ e + k) :
    (shiftToTargetExponent .binary64 m e accuracy).1.mantissa = m / 2 ^ k ∧
      (shiftToTargetExponent .binary64 m e accuracy).2 = e + k := by
  have htarget : (Format.binary64.targetExponent (totalExponent m e) - e).toNat = k := by
    unfold Format.targetExponent totalExponent
    change (max ((m.log2 : Int) + 1 + e - 53) (-1074) - e).toNat = k
    omega
  unfold shiftToTargetExponent shiftToExponent
  dsimp only
  rw [htarget, mantissa_shiftRight, mantissa_ofMantissaAndAccuracy]
  exact ⟨rfl, rfl⟩

theorem normalized_roundWithAccuracy (accuracy : Accuracy) (hm : m ≠ 0) (h : m.log2 = 52 + k)
    (he : -1074 ≤ e + k) :
    Normalized (e + k) (roundWithAccuracy .binary64 .positive m e accuracy) := by
  obtain ⟨hmantissa, hexponent⟩ := shiftToTargetExponent_eq accuracy h he
  have hbounds := roundedMantissa_bounds (shiftToTargetExponent .binary64 m e accuracy).1
  rw [hmantissa] at hbounds
  obtain ⟨hlow, hhigh⟩ := log2_div_two_pow hm h
  unfold roundWithAccuracy
  dsimp only
  rw [hexponent]
  generalize (shiftToTargetExponent .binary64 m e accuracy).1.roundedMantissa = r at hbounds
  have hr0 : r ≠ 0 := by omega
  -- rounding carries into one more bit at most
  obtain ⟨j, hj, hle⟩ : ∃ j, r.log2 = 52 + j ∧ j ≤ 1 := by
    have hlog : 52 ≤ r.log2 := (Nat.le_log2 hr0).2 (by omega)
    have hlog' : r.log2 < 54 := (Nat.log2_lt hr0).2 (by omega)
    exact ⟨r.log2 - 52, by omega, by omega⟩
  obtain ⟨hmantissa, hexponent⟩ :=
    shiftToTargetExponent_eq .exact hj (show -1074 ≤ e + k + (j : Int) by omega)
  obtain ⟨hlow, hhigh⟩ := log2_div_two_pow hr0 hj
  have hr : r / 2 ^ j ≠ 0 := by omega
  rw [hexponent, dif_neg (hmantissa ▸ hr)]
  exact .finite _ _ _ (by rw [hmantissa]; exact (Nat.log2_eq_iff hr).2 ⟨hlow, hhigh⟩) (by omega)

theorem pack_normal {pos : 0 < m} (hm : m.log2 = 52) (hlow : -1074 ≤ e) (hhigh : e ≤ 971) :
    pack .binary64 (.finite .positive m e pos) =
      packComponents .binary64 .positive (BitVec.ofNat 11 (e + 1075).toNat) (BitVec.ofNat 52 m) := by
  have hbiased : e + (Format.binary64.exponentBias : Int) + ((52 : Nat) : Int) = e + 1075 := by
    change e + 1023 + 52 = e + 1075
    omega
  unfold UnpackedFloat.pack
  dsimp only
  rw [hbiased, if_neg (by change ¬ 2048 ≤ _; omega), if_pos (by rw [hm]; rfl)]

theorem Normalized.pack {u : UnpackedFloat} (hu : Normalized t u) (hlow : -1074 ≤ t)
    (hhigh : t ≤ 970) : Normalized t (.unpack .binary64 (pack .binary64 u)) := by
  obtain ⟨m, e, pos, hm, he⟩ := hu
  obtain ⟨hleast, hgreatest⟩ := (Nat.log2_eq_iff pos.ne').1 hm
  rw [pack_normal hm (by omega) (by omega)]
  have hunpacked := unpacked (packComponents .binary64 .positive
    (BitVec.ofNat 11 (e + 1075).toNat) (BitVec.ofNat 52 m))
  have hmantissa := toNat_unpackMantissa (packComponents .binary64 .positive
    (BitVec.ofNat 11 (e + 1075).toNat) (BitVec.ofNat 52 m))
  have hexponent := toNat_unpackExponent (packComponents .binary64 .positive
    (BitVec.ofNat 11 (e + 1075).toNat) (BitVec.ofNat 52 m))
  have hbiased : (e + 1075).toNat < 2 ^ 11 := by omega
  rw [unpackMantissa_packComponents, BitVec.toNat_ofNat] at hmantissa
  rw [unpackExponent_packComponents, BitVec.toNat_ofNat, Nat.mod_eq_of_lt hbiased] at hexponent
  rw [unpackSign_packComponents] at hunpacked
  generalize UnpackedFloat.unpack .binary64 _ = v at hunpacked ⊢
  cases hunpacked with
  | infinity top _ => omega
  | notANumber top _ => omega
  | zero low _ => omega
  | subnormal low _ _ => omega
  | normal high low hm' he' =>
    have hsame : m % 2 ^ 52 + 2 ^ 52 = m := by omega
    rw [← hmantissa] at hm'
    rw [← hexponent] at he'
    obtain rfl := hm'.trans hsame
    exact .finite _ _ _ hm (by omega)

theorem Normalized.mul_one {u : UnpackedFloat} (hu : Normalized t u) (hlow : -1074 ≤ t)
    (pos : 0 < 2 ^ 52) : ∃ s, t ≤ s ∧ s ≤ t + 1 ∧
      Normalized s (mul .binary64 u (.finite .positive (2 ^ 52) (-52) pos)) := by
  obtain ⟨m, e, pos', hm, he⟩ := hu
  have hlog : (m * 2 ^ 52).log2 = 52 + 52 := by rw [log2_mul_two_pow pos'.ne', hm]
  have hround := normalized_roundWithAccuracy (e := e + -52) .exact
    (Nat.mul_ne_zero pos'.ne' pos.ne') hlog (by omega)
  exact ⟨e + -52 + (52 : Nat), by omega, by omega, hround⟩

theorem Normalized.above {u : UnpackedFloat} (hu : Normalized t u) : Above u := by
  cases hu
  exact .finite _ _ _

end Rounding

section Count

variable {n : Nat}

theorem normalized_ofNat (h0 : n ≠ 0) (hn : n < 2 ^ 53) :
    Normalized (n.log2 - 52) (UnpackedFloat.ofNat .binary64 n) := by
  have hlog : n.log2 < 53 := (Nat.log2_lt h0).2 hn
  have htarget : Format.binary64.targetExponent (totalExponent n 0) = (n.log2 : Int) - 52 := by
    unfold Format.targetExponent totalExponent
    change max ((n.log2 : Int) + 1 + 0 - 53) (-1074) = _
    omega
  have hgt : compare (n : Int) 0 = .gt := Int.compare_eq_gt.2 (by omega)
  have hshift : (0 - ((n.log2 : Int) - 52)).toNat = 52 - n.log2 := by omega
  unfold UnpackedFloat.ofNat UnpackedFloat.ofInt UnpackedFloat.normalize
  rw [hgt]
  dsimp only
  unfold UnpackedFloat.round decreaseExponent
  dsimp only
  rw [Int.toNat_natCast, htarget, hshift, Nat.shiftLeft_eq]
  have hround := normalized_roundWithAccuracy (e := 0 - ((52 - n.log2 : Nat) : Int)) (k := 0) .exact
    (Nat.mul_ne_zero h0 (Nat.two_pow_pos (52 - n.log2)).ne')
    (by rw [log2_mul_two_pow h0]; omega) (by omega)
  have ht : 0 - ((52 - n.log2 : Nat) : Int) + ((0 : Nat) : Int) = n.log2 - 52 := by omega
  rwa [ht] at hround

theorem ofNat_eq_mul (hn : n < 2 ^ 53) :
    Float.ofNat n = n.toUInt64.toFloat * Float.ofBits 0x3FF0000000000000 := by
  unfold Float.ofNat OfScientific.ofScientific instOfScientificFloat Float.ofScientific
  exact dif_pos ⟨hn, by decide⟩

theorem ofNat_eq_ofModel (hn : ¬ n < 2 ^ 53) : Float.ofNat n = .ofModel (.ofScientific n 0) := by
  unfold Float.ofNat OfScientific.ofScientific instOfScientificFloat Float.ofScientific
  exact dif_neg fun h => hn h.1

theorem normalized_ofScientific (h0 : n ≠ 0) :
    Normalized (n.log2 - 52) (UnpackedFloat.ofScientific .binary64 n 0) := by
  have hlog : (n * 2 ^ 53 * 1).log2 = 52 + (n.log2 + 1) := by
    rw [Nat.mul_one, log2_mul_two_pow h0]
    omega
  have hround := normalized_roundWithAccuracy (e := -53 + 0) .exact
    (Nat.mul_ne_zero (Nat.mul_ne_zero h0 (Nat.two_pow_pos 53).ne') Nat.one_ne_zero) hlog (by omega)
  have ht : -53 + 0 + ((n.log2 + 1 : Nat) : Int) = n.log2 - 52 := by omega
  rw [ht] at hround
  unfold UnpackedFloat.ofScientific
  rw [dif_neg h0, if_neg (by decide), if_neg (by change ¬ (0 : Int) < -(2048 + n.log2); omega),
    if_pos (by decide)]
  unfold UnpackedFloat.mul
  dsimp only
  rw [Nat.shiftLeft_eq]
  exact hround

theorem positive_ofNat (h0 : n ≠ 0) {b : Nat} (hb : b ≤ 1023) (hn : n < 2 ^ b) :
    Positive (Float.ofNat n) := by
  have hlog : n.log2 < b := (Nat.log2_lt h0).2 hn
  by_cases h53 : n < 2 ^ 53
  · have hone : (Float.ofBits 0x3FF0000000000000).toModel.unpack =
      .finite .positive (2 ^ 52) (-52) (by decide) := by rfl
    have hsmall : n.toUInt64.toNat = n := UInt64.toNat_ofNat_of_lt' (h53.trans (by decide))
    have hcount : Normalized (n.log2 - 52) n.toUInt64.toFloat.toModel.unpack := by
      have hpack := (normalized_ofNat h0 h53).pack (by omega) (by omega)
      rw [← congrArg (UnpackedFloat.ofNat .binary64) hsmall] at hpack
      exact hpack
    have hlog53 : n.log2 < 53 := (Nat.log2_lt h0).2 h53
    obtain ⟨s, hs, hs', hmul⟩ := hcount.mul_one (by omega) (by decide)
    rw [← hone] at hmul
    rw [ofNat_eq_mul h53]
    exact (hmul.pack (by omega) (by omega)).above
  · have hpack := (normalized_ofScientific h0).pack (by omega) (by omega)
    rw [ofNat_eq_ofModel h53]
    exact hpack.above

end Count

end DependencyRanking.Double
