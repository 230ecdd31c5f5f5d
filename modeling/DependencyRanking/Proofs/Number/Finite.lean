import DependencyRanking.Number.Nearest
import DependencyRanking.Proofs.Number.Unpack

/-!
# Quotients that have a double

A quotient of integers below half the range of doubles is rounded to a finite one.
-/
namespace DependencyRanking.Double

open Float.Model (UnpackedFloat)
open Float.Model.UnpackedFloat (Sign unpackExponent)

variable {n : Nat} {s : Sign} {u : UnpackedFloat}

theorem Unpacked.isFinite_iff (h : Unpacked n s u) :
    u.isFinite = true ↔ n / Nat.pow 2 52 % Nat.pow 2 11 ≠ 2047 := by
  cases h with
  | infinity top hm => exact iff_of_false Bool.false_ne_true (not_not.2 top)
  | notANumber top hm => exact iff_of_false Bool.false_ne_true (not_not.2 top)
  | zero low hm => exact iff_of_true rfl (by omega)
  | subnormal low hm he => exact iff_of_true rfl (by omega)
  | normal high low hm he => exact iff_of_true rfl high

theorem Unpacked.pack_ne_top (h : Unpacked n s u)
    (hn : n / Nat.pow 2 52 % Nat.pow 2 11 ≠ 2047) :
    unpackExponent (UnpackedFloat.pack .binary64 u) ≠ -1#11 := by
  have hlt : n / Nat.pow 2 52 % Nat.pow 2 11 < Nat.pow 2 11 := Nat.mod_lt _ (by decide)
  have hp : Nat.pow 2 11 = 2048 := rfl
  have hfinite : ∀ (s : Sign) (m : Nat) (e : Int) (pos : 0 < m), -1074 ≤ e → e < 972 →
      unpackExponent (UnpackedFloat.pack .binary64 (.finite s m e pos)) ≠ -1#11 := by
    intro s m e pos hlow hhigh
    unfold UnpackedFloat.pack
    dsimp only
    have hb : (e + (Float.Model.Format.binary64.exponentBias : Int) + 52).toNat < 2047 := by
      change (e + 1023 + 52).toNat < 2047
      omega
    rw [if_neg (by change ¬ 2048 ≤ _; omega)]
    split
    · rw [UnpackedFloat.unpackExponent_packComponents]
      intro he
      have ht := congrArg BitVec.toNat he
      rw [BitVec.toNat_ofNat, Nat.mod_eq_of_lt (by omega)] at ht
      exact absurd ht hb.ne
    · rw [UnpackedFloat.unpackExponent_packComponents]
      decide
  cases h with
  | infinity top hm => exact absurd top hn
  | notANumber top hm => exact absurd top hn
  | zero low hm =>
    unfold UnpackedFloat.pack UnpackedFloat.packedZero
    rw [UnpackedFloat.unpackExponent_packComponents]
    decide
  | subnormal low hm he => exact hfinite _ _ _ _ (by omega) (by omega)
  | normal high low hm he => exact hfinite _ _ _ _ (by omega) (by omega)

theorem isFinite_ofBits (b : UInt64) (h : b.toNat / Nat.pow 2 52 % Nat.pow 2 11 ≠ 2047) :
    (Float.ofBits b).isFinite = true := by
  have hp := (unpacked b.toBitVec).pack_ne_top h
  have hu := unpacked (UnpackedFloat.pack .binary64 (.unpack .binary64 b.toBitVec))
  exact hu.isFinite_iff.2 fun hn => hp ((unpackExponent_eq_iff _ (-1#11)).2 hn)

theorem isFinite_assemble (negative : Bool) (m : Nat) (e : Int)
    (h : (e + 1074).toNat * Nat.pow 2 52 + m < 2047 * Nat.pow 2 52) :
    (assemble negative m e).isFinite = true := by
  unfold assemble
  dsimp only
  rw [Nat.min_eq_left (Nat.le_of_lt h)]
  generalize (e + 1074).toNat * Nat.pow 2 52 + m = bits at h
  refine isFinite_ofBits _ ?_
  rw [UInt64.toNat_ofNat']
  have h52 : Nat.pow 2 52 = 4503599627370496 := rfl
  have h63 : Nat.pow 2 63 = 9223372036854775808 := rfl
  have h11 : Nat.pow 2 11 = 2048 := rfl
  rw [h52] at h
  rw [h52, h63, h11]
  split <;> omega

section Quotients

variable {num den k t : Nat}

theorem binaryExponent_cases (num den : Nat) :
    binaryExponent num den = (num.log2 : Int) - den.log2 ∧
        (∀ t : Nat, (t : Int) = (num.log2 : Int) - den.log2 → den * 2 ^ t ≤ num) ∨
      binaryExponent num den = (num.log2 : Int) - den.log2 - 1 ∧
        ∀ k t : Nat, (t : Int) = k + ((num.log2 : Int) - den.log2) → num * 2 ^ k < den * 2 ^ t := by
  unfold binaryExponent
  dsimp only
  generalize (num.log2 : Int) - den.log2 = guess
  by_cases hneg : guess < 0
  · simp only [hneg, if_true]
    by_cases hreached : den ≤ num * Nat.pow 2 (-guess).toNat
    · exact .inl ⟨if_pos hreached, fun t ht => by omega⟩
    · refine .inr ⟨if_neg hreached, fun k t ht => ?_⟩
      have hk : k = (-guess).toNat + t := by omega
      rw [hk, Nat.pow_add, ← Nat.mul_assoc]
      exact Nat.mul_lt_mul_of_pos_right (Nat.lt_of_not_le hreached) (Nat.two_pow_pos t)
  · simp only [hneg, if_false]
    by_cases hreached : den * Nat.pow 2 guess.toNat ≤ num
    · refine .inl ⟨if_pos hreached, fun t ht => ?_⟩
      rw [← ht, Int.toNat_natCast] at hreached
      exact hreached
    · refine .inr ⟨if_neg hreached, fun k t ht => ?_⟩
      have ht : t = guess.toNat + k := by omega
      rw [ht, Nat.pow_add, ← Nat.mul_assoc]
      exact Nat.mul_lt_mul_of_pos_right (Nat.lt_of_not_le hreached) (Nat.two_pow_pos k)

theorem lt_of_binaryExponent (hd : den ≠ 0) (h : (t : Int) = k + (binaryExponent num den + 1)) :
    num * 2 ^ k < den * 2 ^ t := by
  rcases binaryExponent_cases num den with ⟨hexp, -⟩ | ⟨hexp, hlt⟩
  · have hnum : num < 2 ^ (num.log2 + 1) := Nat.lt_log2_self
    have hden : 2 ^ den.log2 ≤ den := Nat.log2_self_le hd
    have hpow : 2 ^ (num.log2 + 1) * 2 ^ k = 2 ^ den.log2 * 2 ^ t := by
      rw [← Nat.pow_add, ← Nat.pow_add]
      congr 1
      omega
    calc num * 2 ^ k < 2 ^ (num.log2 + 1) * 2 ^ k :=
          Nat.mul_lt_mul_of_pos_right hnum (Nat.two_pow_pos k)
      _ = 2 ^ den.log2 * 2 ^ t := hpow
      _ ≤ den * 2 ^ t := Nat.mul_le_mul_right _ hden
  · exact hlt k t (by omega)

theorem lt_of_binaryExponent_le (num : Nat) (hd : den ≠ 0) (h : k + (binaryExponent num den + 1) ≤ t) :
    num * 2 ^ k < den * 2 ^ t := by
  have hle : k ≤ (t - (binaryExponent num den + 1)).toNat := by omega
  refine (Nat.mul_le_mul_left num (Nat.pow_le_pow_right Nat.two_pos hle)).trans_lt ?_
  exact lt_of_binaryExponent hd (by omega)

theorem binaryExponent_lt (hn : num ≠ 0) (h : num < den * 2 ^ t) : binaryExponent num den < t := by
  have hpow : 2 ^ num.log2 < 2 ^ (den.log2 + 1 + t) := by
    calc 2 ^ num.log2 ≤ num := Nat.log2_self_le hn
      _ < den * 2 ^ t := h
      _ ≤ 2 ^ (den.log2 + 1) * 2 ^ t := Nat.mul_le_mul_right _ Nat.lt_log2_self.le
      _ = 2 ^ (den.log2 + 1 + t) := (Nat.pow_add ..).symm
  have hlog := (Nat.pow_lt_pow_iff_right Nat.one_lt_two).1 hpow
  rcases binaryExponent_cases num den with ⟨hexp, hreached⟩ | ⟨hexp, -⟩
  · by_contra hle
    have heq : (t : Int) = (num.log2 : Int) - den.log2 := by omega
    exact absurd (hreached t heq) (Nat.not_le.2 h)
  · omega

theorem mantissa_le (num : Nat) (hd : den ≠ 0) {e : Int} (he : binaryExponent num den - 52 ≤ e) :
    (if e < 0 then roundHalfEven (num * Nat.pow 2 (-e).toNat) den
      else roundHalfEven num (den * Nat.pow 2 e.toNat)) ≤ 2 ^ 53 := by
  split
  · refine (roundHalfEven_le _ _).trans (Nat.succ_le_of_lt (Nat.div_lt_of_lt_mul ?_))
    exact lt_of_binaryExponent_le num hd (by omega)
  · refine (roundHalfEven_le _ _).trans (Nat.succ_le_of_lt (Nat.div_lt_of_lt_mul ?_))
    have hlt := lt_of_binaryExponent_le (k := 0) (t := e.toNat + 53) num hd (by omega)
    rwa [Nat.pow_zero, Nat.mul_one, Nat.pow_add, ← Nat.mul_assoc] at hlt

theorem isFinite_ofQuotient (negative : Bool) {b : Nat} (hb : b ≤ 1023) (hd : den ≠ 0)
    (h : num < den * 2 ^ b) : (ofQuotient negative num den).isFinite = true := by
  unfold ofQuotient
  split
  · exact isFinite_assemble _ _ _ (by decide)
  · rename_i hn
    have hexp := binaryExponent_lt hn h
    have hm := mantissa_le num hd (Int.le_max_left (binaryExponent num den - 52) (-1074))
    refine isFinite_assemble _ _ _ ?_
    have h52 : Nat.pow 2 52 = 2 ^ 52 := rfl
    rw [h52]
    omega

end Quotients

theorem isFinite_ofInt (k : Int) {b : Nat} (hb : b ≤ 1023) (h : k.natAbs < 2 ^ b) :
    (ofInt k).isFinite = true := by
  unfold ofInt
  exact isFinite_ofQuotient _ hb Nat.one_ne_zero (by rwa [Nat.one_mul])

end DependencyRanking.Double

namespace DependencyRanking.Number

theorem nearest_int (n : Int) {b : Nat} (hb : b ≤ 1023) (h : n.natAbs < 2 ^ b) :
    Number.nearest (.int n) = .ok (Double.ofInt n) := by
  unfold nearest toFloat?
  dsimp only
  rw [if_pos (Double.isFinite_ofInt n hb h)]

theorem nearest_ok_or_tooLarge (n : Number) :
    (∃ x, nearest n = .ok x) ∨ nearest n = .error .numberTooLarge := by
  unfold nearest
  split
  · exact .inl ⟨_, rfl⟩
  · exact .inr rfl

end DependencyRanking.Number
