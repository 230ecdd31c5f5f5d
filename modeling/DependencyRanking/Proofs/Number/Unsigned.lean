import DependencyRanking.Proofs.Number.Order

/-!
# Doubles that are not below zero

Sums of doubles without a sign have none, nor have their products with finite doubles above zero,
their quotients by such doubles, and quotients of natural numbers. In particular none of these is
undefined.
-/
namespace DependencyRanking.Double

open Float.Model (UnpackedFloat Format)
open Float.Model.UnpackedFloat

inductive Unsigned : UnpackedFloat → Prop
  | infinity : Unsigned (.infinity .positive)
  | zero : Unsigned (.zero .positive)
  | finite (m : Nat) (e : Int) (pos : 0 < m) : Unsigned (.finite .positive m e pos)

inductive Above : UnpackedFloat → Prop
  | finite (m : Nat) (e : Int) (pos : 0 < m) : Above (.finite .positive m e pos)

namespace Unsigned

variable {u v : UnpackedFloat}

theorem roundWithAccuracy (format : Format) (m : Nat) (e : Int) (accuracy : Accuracy) :
    Unsigned (roundWithAccuracy format .positive m e accuracy) := by
  unfold UnpackedFloat.roundWithAccuracy
  obtain ⟨first, e₁⟩ := shiftToTargetExponent format m e accuracy
  dsimp only
  obtain ⟨last, e₂⟩ := shiftToTargetExponent format first.roundedMantissa e₁ .exact
  dsimp only
  by_cases h : last.mantissa = 0
  · rw [dif_pos h]
    exact .zero
  · rw [dif_neg h]
    exact .finite _ _ _

theorem normalize (format : Format) {m : Int} (hm : 0 ≤ m) (e : Int) :
    Unsigned (normalize format m e .positive) := by
  unfold UnpackedFloat.normalize
  split
  · rename_i h
    exact absurd (Int.compare_eq_lt.1 h) (Int.not_lt.2 hm)
  · exact .zero
  · exact roundWithAccuracy _ _ _ _

theorem add (format : Format) (hu : Unsigned u) (hv : Unsigned v) :
    Unsigned (add format u v) := by
  cases hu with
  | infinity => cases hv <;> exact .infinity
  | zero =>
    cases hv with
    | infinity => exact .infinity
    | zero => exact .zero
    | finite n f pos => exact .finite n f pos
  | finite m e pos =>
    cases hv with
    | infinity => exact .infinity
    | zero => exact .finite m e pos
    | finite n f pos =>
      exact normalize format (Int.add_nonneg (Int.natCast_nonneg _) (Int.natCast_nonneg _)) _

theorem above_mul (format : Format) (hu : Above u) (hv : Unsigned v) :
    Unsigned (mul format u v) := by
  cases hu
  cases hv with
  | infinity => exact .infinity
  | zero => exact .zero
  | finite n f pos => exact roundWithAccuracy _ _ _ _

theorem mul_above (format : Format) (hu : Unsigned u) (hv : Above v) :
    Unsigned (mul format u v) := by
  cases hv
  cases hu with
  | infinity => exact .infinity
  | zero => exact .zero
  | finite n f pos => exact roundWithAccuracy _ _ _ _

theorem div_above (format : Format) (hu : Unsigned u) (hv : Above v) :
    Unsigned (div format u v) := by
  cases hv
  cases hu with
  | infinity => exact .infinity
  | zero => exact .zero
  | finite n f pos => exact roundWithAccuracy _ _ _ _

end Unsigned

theorem Above.unsigned {u : UnpackedFloat} (hu : Above u) : Unsigned u := by
  cases hu
  exact .finite _ _ _

theorem Unsigned.isNaN {u : UnpackedFloat} (hu : Unsigned u) : u.isNaN = false := by
  cases hu <;> rfl

theorem unsigned_unpack {b : BitVec Format.binary64.numBits} (hs : unpackSign b = 0#1)
    (hm : unpackExponent b = -1#11 → unpackMantissa b = 0#52) :
    Unsigned (.unpack .binary64 b) := by
  have hu := unpacked b
  rw [hs, show Sign.ofBitVec 0#1 = .positive from rfl] at hu
  generalize UnpackedFloat.unpack .binary64 b = u at hu ⊢
  cases hu with
  | infinity top _ => exact .infinity
  | notANumber top hne =>
    have hzero := hm ((unpackExponent_eq_iff b (-1#11)).2 top)
    exact absurd ((unpackMantissa_eq_zero b).1 hzero) hne
  | zero low _ => exact .zero
  | subnormal low _ _ => exact .finite _ _ _
  | normal high low _ _ => exact .finite _ _ _

theorem unpackSign_packComponents (s : Sign) (e : BitVec 11) (m : BitVec 52) :
    unpackSign (packComponents .binary64 s e m) = s.toBitVec := by
  ext i hi
  obtain rfl : i = 0 := by omega
  have hbit : (s.toBitVec ++ e ++ m).getLsbD 63 = s.toBitVec.getLsbD 0 := by
    rw [BitVec.getLsbD_append, if_neg (by decide), BitVec.getLsbD_append, if_neg (by decide)]
  change (BitVec.cast _ ((packComponents .binary64 s e m).extractLsb 63 63))[0] = _
  simp only [packComponents, BitVec.getElem_cast, BitVec.extractLsb, BitVec.getElem_extractLsb']
  exact hbit.trans (BitVec.getLsbD_eq_getElem hi)

theorem Unsigned.pack {u : UnpackedFloat} (hu : Unsigned u) :
    Unsigned (.unpack .binary64 (pack .binary64 u)) := by
  have hcomponents (e : BitVec 11) (m : BitVec 52) (hm : e = -1#11 → m = 0#52) :
      Unsigned (.unpack .binary64 (packComponents .binary64 .positive e m)) := by
    refine unsigned_unpack (unpackSign_packComponents _ _ _) ?_
    rw [unpackExponent_packComponents, unpackMantissa_packComponents]
    exact hm
  unfold UnpackedFloat.pack
  cases hu with
  | infinity => exact hcomponents _ _ fun _ => rfl
  | zero => exact hcomponents _ _ fun _ => rfl
  | finite m e pos =>
    dsimp only
    split
    · exact hcomponents _ _ fun _ => rfl
    · rename_i hfits
      split
      · refine hcomponents _ _ fun he => ?_
        have hlt : (e + (Format.binary64.exponentBias : Int) + 52).toNat < 2047 := by
          change ¬ 2048 ≤ _ at hfits
          omega
        have ht := congrArg BitVec.toNat he
        rw [BitVec.toNat_ofNat, Nat.mod_eq_of_lt (by omega)] at ht
        exact absurd ht hlt.ne
      · exact hcomponents _ _ fun he => absurd he (by decide)

def Nonneg (x : Float) : Prop := Unsigned x.toModel.unpack

def Positive (x : Float) : Prop := Above x.toModel.unpack

section Arithmetic

variable {x y : Float}

theorem Nonneg.add (hx : Nonneg x) (hy : Nonneg y) : Nonneg (x + y) := (Unsigned.add _ hx hy).pack

theorem Nonneg.mul (hx : Nonneg x) (hy : Positive y) : Nonneg (x * y) :=
  (Unsigned.mul_above _ hx hy).pack

theorem Positive.mul (hx : Positive x) (hy : Nonneg y) : Nonneg (x * y) :=
  (Unsigned.above_mul _ hx hy).pack

theorem Nonneg.div (hx : Nonneg x) (hy : Positive y) : Nonneg (x / y) :=
  (Unsigned.div_above _ hx hy).pack

theorem Positive.nonneg (hx : Positive x) : Nonneg x := Above.unsigned hx

theorem Nonneg.isNaN (hx : Nonneg x) : x.isNaN = false := Unsigned.isNaN hx

theorem nonneg_zero : Nonneg 0.0 := by
  have h : (0.0 : Float).toModel.unpack = .zero .positive := by rfl
  unfold Nonneg
  rw [h]
  exact .zero

theorem positive_one : Positive 1.0 := by
  have h : (1.0 : Float).toModel.unpack = .finite .positive (2 ^ 52) (-52) (by decide) := by rfl
  unfold Positive
  rw [h]
  exact .finite _ _ _

theorem positive_half : Positive 0.5 := by
  have h : (0.5 : Float).toModel.unpack = .finite .positive (2 ^ 52) (-53) (by decide) := by rfl
  unfold Positive
  rw [h]
  exact .finite _ _ _

end Arithmetic

section Quotients

theorem nonneg_ofBits {b : UInt64} (h : b.toNat ≤ 2047 * Nat.pow 2 52) : Nonneg (Float.ofBits b) := by
  have h52 : Nat.pow 2 52 = 4503599627370496 := rfl
  have h63 : Nat.pow 2 63 = 9223372036854775808 := rfl
  have h11 : Nat.pow 2 11 = 2048 := rfl
  have hn : b.toBitVec.toNat = b.toNat := rfl
  refine (unsigned_unpack (b := b.toBitVec) ((unpackSign_eq_zero _).2 ?_) fun he => ?_).pack
  · rw [h52] at h
    rw [hn, h63]
    omega
  · have htop : b.toBitVec.toNat / Nat.pow 2 52 % Nat.pow 2 11 = 2047 :=
      (unpackExponent_eq_iff _ (-1#11)).1 he
    rw [h52] at h
    rw [hn, h52, h11] at htop
    refine (unpackMantissa_eq_zero _).2 ?_
    rw [hn, h52]
    omega

theorem nonneg_assemble (m : Nat) (e : Int) : Nonneg (assemble false m e) := by
  unfold assemble
  dsimp only
  refine nonneg_ofBits ?_
  have h52 : Nat.pow 2 52 = 4503599627370496 := rfl
  rw [if_neg Bool.false_ne_true, UInt64.toNat_ofNat']
  exact (Nat.mod_le _ _).trans (Nat.min_le_right _ _)

theorem nonneg_ofQuotient (num den : Nat) : Nonneg (ofQuotient false num den) := by
  unfold ofQuotient
  split
  · exact nonneg_assemble _ _
  · exact nonneg_assemble _ _

end Quotients

section Unit

variable {x : Float}

theorem parts_zero : Parts.ofFloat 0.0 = .finite false 0 (-1074) := by decide

theorem parts_one : Parts.ofFloat 1.0 = .finite false (2 ^ 52) (-52) := by decide

theorem magnitude_of_unit (h0 : Number.float 0.0 < Number.float x)
    (h1 : Number.float x < Number.float 1.0) : ∃ m e pos,
      x.toModel.unpack = .finite .positive m e pos ∧
      m * 2 ^ (e - min (-52) e).toNat < 2 ^ 52 * 2 ^ (-52 - min (-52) e).toNat := by
  change (Parts.ofFloat 0.0).compare? (Parts.ofFloat x) = some .lt at h0
  change (Parts.ofFloat x).compare? (Parts.ofFloat 1.0) = some .lt at h1
  rw [parts_zero, Parts.ofFloat_eq] at h0
  rw [parts_one, Parts.ofFloat_eq] at h1
  generalize x.toModel.unpack = u at h0 h1
  cases u with
  | notANumber => cases h1
  | infinity s =>
    cases s with
    | negative => cases h0
    | positive => cases h1
  | zero s =>
    change some (compare (scaled _ 0 _ _) (scaled _ 0 _ _)) = some .lt at h0
    rw [scaled_zero, scaled_zero] at h0
    cases h0
  | finite s m e pos =>
    change some (compare (scaled _ 0 _ _) (scaled _ m e _)) = some .lt at h0
    change some (compare (scaled _ m e _) (scaled _ _ _ _)) = some .lt at h1
    rw [Option.some.injEq, Int.compare_eq_lt] at h0 h1
    cases s with
    | negative =>
      rw [scaled_zero] at h0
      exact absurd h0 (Int.not_lt.2 (Int.le_of_lt (scaled_neg pos _ _)))
    | positive =>
      refine ⟨m, e, pos, rfl, ?_⟩
      rw [Int.min_comm]
      change scaled false m e _ < scaled false (2 ^ 52) (-52) _ at h1
      rw [scaled_eq, scaled_eq] at h1
      exact Int.ofNat_lt.1 h1

theorem positive_of_unit (h0 : Number.float 0.0 < Number.float x)
    (h1 : Number.float x < Number.float 1.0) : Positive x := by
  obtain ⟨m, e, pos, hx, -⟩ := magnitude_of_unit h0 h1
  unfold Positive
  rw [hx]
  exact .finite _ _ _

theorem nonneg_one_sub (h0 : Number.float 0.0 < Number.float x)
    (h1 : Number.float x < Number.float 1.0) : Nonneg (1.0 - x) := by
  obtain ⟨m, e, pos, hx, hlt⟩ := magnitude_of_unit h0 h1
  have hone : (1.0 : Float).toModel.unpack = .finite .positive (2 ^ 52) (-52) (by decide) := by rfl
  have hsub : Unsigned (sub .binary64 (1.0 : Float).toModel.unpack x.toModel.unpack) := by
    rw [hone, hx]
    unfold sub decreaseExponent
    refine Unsigned.normalize _ (Int.sub_nonneg_of_le (Int.ofNat_le.2 ?_)) _
    rw [Nat.shiftLeft_eq, Nat.shiftLeft_eq]
    exact hlt.le
  exact hsub.pack

end Unit

end DependencyRanking.Double
