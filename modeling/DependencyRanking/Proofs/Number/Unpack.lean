import DependencyRanking.Number.Scalar
import Mathlib.Order.Basic
import Mathlib.Algebra.Ring.Int.Defs
import Mathlib.Algebra.Ring.Nat

/-!
# Doubles and their exact values

The sign, mantissa and exponent that are read off the bits of a double are those of its unpacked
form, and the order of the exact values is the order of doubles.
-/
namespace DependencyRanking.Double

open Float.Model (UnpackedFloat)
open Float.Model.UnpackedFloat (Sign unpackMantissa unpackExponent unpackSign)

def isNegative : Sign → Bool
  | .negative => true
  | .positive => false

def Parts.ofUnpacked : UnpackedFloat → Parts
  | .notANumber => .undefined
  | .infinity s => .infinite (isNegative s)
  | .zero s => .finite (isNegative s) 0 (-1074)
  | .finite s m e _ => .finite (isNegative s) m e

section Bits

variable (b : BitVec Float.Model.Format.binary64.numBits)

theorem toNat_unpackMantissa :
    (unpackMantissa b).toNat = b.toNat % Nat.pow 2 52 := by
  simp [unpackMantissa]

theorem toNat_unpackExponent :
    (unpackExponent b).toNat = b.toNat / Nat.pow 2 52 % Nat.pow 2 11 := by
  simp [unpackExponent, Nat.shiftRight_eq_div_pow]

theorem unpackSign_eq_zero : unpackSign b = 0#1 ↔ b.toNat / Nat.pow 2 63 % 2 = 0 := by
  have h : (unpackSign b).toNat = b.toNat / Nat.pow 2 63 % 2 := by
    change (BitVec.cast _ (b.extractLsb 63 63)).toNat = _
    simp [Nat.shiftRight_eq_div_pow]
  rw [← h, ← BitVec.toNat_inj]
  rfl

theorem isNegative_unpackSign :
    isNegative (Sign.ofBitVec (unpackSign b)) = decide (b.toNat / Nat.pow 2 63 % 2 = 1) := by
  unfold Sign.ofBitVec
  by_cases hb : b.toNat / Nat.pow 2 63 % 2 = 0
  · rw [if_pos ((unpackSign_eq_zero b).2 hb), hb]
    rfl
  · rw [if_neg fun he => hb ((unpackSign_eq_zero b).1 he)]
    exact (decide_eq_true (by omega)).symm

theorem unpackExponent_eq_iff (e : BitVec 11) :
    unpackExponent b = e ↔ b.toNat / Nat.pow 2 52 % Nat.pow 2 11 = e.toNat := by
  rw [← toNat_unpackExponent, ← BitVec.toNat_inj]

theorem toNat_implicit :
    (1#1 ++ unpackMantissa b).toNat = b.toNat % Nat.pow 2 52 + Nat.pow 2 52 := by
  have hlt : b.toNat % Nat.pow 2 52 < 2 ^ 52 := Nat.mod_lt _ (by decide)
  have hor := Nat.two_pow_add_eq_or_of_lt hlt 1
  rw [BitVec.toNat_append, toNat_unpackMantissa, Nat.shiftLeft_eq, Nat.mul_comm]
  exact hor.symm.trans (Nat.add_comm _ _)

theorem unpackMantissa_eq_zero :
    unpackMantissa b = 0#52 ↔ b.toNat % Nat.pow 2 52 = 0 := by
  rw [← toNat_unpackMantissa, ← BitVec.toNat_inj]
  rfl

end Bits

/-- The mantissa stays below 53 bits, and fills them unless the exponent is the least one. -/
def Canonical (m : Nat) (e : Int) : Prop := m < 2 ^ 53 ∧ (e = -1074 ∨ -1074 < e ∧ 2 ^ 52 ≤ m)

inductive Unpacked (n : Nat) (s : Sign) : UnpackedFloat → Prop
  | infinity (top : n / Nat.pow 2 52 % Nat.pow 2 11 = 2047) (hm : n % Nat.pow 2 52 = 0) :
      Unpacked n s (.infinity s)
  | notANumber (top : n / Nat.pow 2 52 % Nat.pow 2 11 = 2047) (hm : n % Nat.pow 2 52 ≠ 0) :
      Unpacked n s .notANumber
  | zero (low : n / Nat.pow 2 52 % Nat.pow 2 11 = 0) (hm : n % Nat.pow 2 52 = 0) :
      Unpacked n s (.zero s)
  | subnormal {m : Nat} {e : Int} {pos : 0 < m} (low : n / Nat.pow 2 52 % Nat.pow 2 11 = 0)
      (hm : m = n % Nat.pow 2 52) (he : e = -1074) : Unpacked n s (.finite s m e pos)
  | normal {m : Nat} {e : Int} {pos : 0 < m} (high : n / Nat.pow 2 52 % Nat.pow 2 11 ≠ 2047)
      (low : n / Nat.pow 2 52 % Nat.pow 2 11 ≠ 0) (hm : m = n % Nat.pow 2 52 + Nat.pow 2 52)
      (he : e = (n / Nat.pow 2 52 % Nat.pow 2 11 : Nat) - 1075) : Unpacked n s (.finite s m e pos)

theorem unpacked (b : BitVec Float.Model.Format.binary64.numBits) :
    Unpacked b.toNat (Sign.ofBitVec (unpackSign b)) (.unpack .binary64 b) := by
  have hm := unpackMantissa_eq_zero b
  have he := toNat_unpackExponent b
  have htop : unpackExponent b = -1#11 ↔ b.toNat / Nat.pow 2 52 % Nat.pow 2 11 = 2047 :=
    unpackExponent_eq_iff b (-1#11)
  have hlow : unpackExponent b = 0#11 ↔ b.toNat / Nat.pow 2 52 % Nat.pow 2 11 = 0 :=
    unpackExponent_eq_iff b 0#11
  unfold UnpackedFloat.unpack
  dsimp only
  by_cases h : unpackExponent b = -1#11
  · rw [if_pos h]
    by_cases hf : unpackMantissa b = 0#52
    · rw [if_pos hf]
      exact .infinity (htop.1 h) (hm.1 hf)
    · rw [if_neg hf]
      exact .notANumber (htop.1 h) fun h => hf (hm.2 h)
  · rw [if_neg h]
    by_cases h0 : unpackExponent b = 0#11
    · rw [if_pos h0]
      by_cases hf : unpackMantissa b = 0#52
      · rw [dif_pos hf]
        exact .zero (hlow.1 h0) (hm.1 hf)
      · rw [dif_neg hf]
        refine .subnormal (hlow.1 h0) (toNat_unpackMantissa b) ?_
        rw [he, hlow.1 h0]
        rfl
    · rw [if_neg h0]
      refine .normal (fun hn => h (htop.2 hn)) (fun hn => h0 (hlow.2 hn)) (toNat_implicit b) ?_
      rw [he]
      rfl

theorem unpacked_float (x : Float) : ∃ s, Unpacked x.toBits.toNat s x.toModel.unpack ∧
    isNegative s = decide (x.toBits.toNat / Nat.pow 2 63 % 2 = 1) :=
  ⟨_, unpacked x.toModel.toBits.toBitVec, isNegative_unpackSign x.toModel.toBits.toBitVec⟩

theorem Parts.ofFloat_eq (x : Float) : Parts.ofFloat x = Parts.ofUnpacked x.toModel.unpack := by
  obtain ⟨s, hu, hs⟩ := unpacked_float x
  unfold Parts.ofFloat
  dsimp only
  rw [← hs]
  generalize x.toModel.unpack = u at hu
  generalize x.toBits.toNat = n at hu
  cases hu with
  | infinity top hm =>
    rw [if_pos top, if_pos hm]
    rfl
  | notANumber top hm =>
    rw [if_pos top, if_neg hm]
    rfl
  | zero low hm =>
    rw [low, if_neg (by decide), if_pos rfl, hm]
    rfl
  | subnormal low hm he =>
    rw [low, if_neg (by decide), if_pos rfl, ← hm, ← he]
    rfl
  | normal high low hm he =>
    rw [if_neg high, if_neg low, ← hm, ← he]
    rfl

theorem Unpacked.canonical {n : Nat} {s s' : Sign} {u : UnpackedFloat} (hu : Unpacked n s u)
    {m : Nat} {e : Int} {pos : 0 < m} (h : u = .finite s' m e pos) : Canonical m e := by
  have hlt : n % Nat.pow 2 52 < Nat.pow 2 52 := Nat.mod_lt _ (by decide)
  have hp : Nat.pow 2 52 = 2 ^ 52 := rfl
  unfold Canonical
  cases hu with
  | infinity top hm => cases h
  | notANumber top hm => cases h
  | zero low hm => cases h
  | subnormal low hm he =>
    cases h
    omega
  | normal high low hm he =>
    cases h
    omega

theorem canonical_unpack (x : Float) (s : Sign) (m : Nat) (e : Int) (pos : 0 < m)
    (h : x.toModel.unpack = .finite s m e pos) : Canonical m e := by
  obtain ⟨s', hu, -⟩ := unpacked_float x
  exact hu.canonical h

end DependencyRanking.Double
