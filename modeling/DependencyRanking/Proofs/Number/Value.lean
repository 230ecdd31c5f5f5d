import DependencyRanking.Proofs.Number.Order
import Mathlib.Algebra.Order.Field.Power
import Mathlib.Algebra.Order.Ring.Rat
import Mathlib.Data.Int.Cast.Lemmas
import Mathlib.Order.WithBot
import Mathlib.Tactic.NormNum
import Mathlib.Tactic.Ring

/-!
# The value of a given number

A given number stands for a rational number or for an infinite value, and given numbers are compared
by their values. An undefined double stands for nothing, which is put below every value here: so the
values of all given numbers are in one linear order.
-/
namespace DependencyRanking

abbrev Extended := WithBot (WithTop ℚ)

def Extended.ofRat (q : ℚ) : Extended := ((q : WithTop ℚ) : WithBot (WithTop ℚ))

namespace Extended

variable {p q : ℚ}

@[simp] theorem ofRat_lt_ofRat : ofRat p < ofRat q ↔ p < q := by
  simp [ofRat]

@[simp] theorem ofRat_inj : ofRat p = ofRat q ↔ p = q := by
  simp [ofRat]

@[simp] theorem bot_lt_ofRat (q : ℚ) : ⊥ < ofRat q := WithBot.bot_lt_coe _

@[simp] theorem ofRat_lt_top (q : ℚ) : ofRat q < ⊤ := by
  simp [ofRat, ← WithBot.coe_top]

@[simp] theorem ofRat_ne_bot (q : ℚ) : ofRat q ≠ ⊥ := (bot_lt_ofRat q).ne'

@[simp] theorem bot_ne_ofRat (q : ℚ) : ⊥ ≠ ofRat q := (bot_lt_ofRat q).ne

@[simp] theorem ofRat_ne_top (q : ℚ) : ofRat q ≠ ⊤ := (ofRat_lt_top q).ne

@[simp] theorem top_ne_ofRat (q : ℚ) : ⊤ ≠ ofRat q := (ofRat_lt_top q).ne'

@[simp] theorem coe_lt_top (x : Extended) : (x : WithBot Extended) < ⊤ ↔ x < ⊤ := by
  rw [← WithBot.coe_top, WithBot.coe_lt_coe]

end Extended

namespace Double

open Float.Model (UnpackedFloat)

def rational (negative : Bool) (m : Nat) (e : Int) : ℚ := (scaled negative m 0 0 : ℚ) * 2 ^ e

def Parts.value : Parts → WithBot Extended
  | .undefined => ⊥
  | .infinite s => ((if s then ⊥ else ⊤ : Extended) : WithBot Extended)
  | .finite s m e => (Extended.ofRat (rational s m e) : WithBot Extended)

theorem rational_eq_scaled (negative : Bool) (m : Nat) {e base : Int} (h : base ≤ e) :
    rational negative m e = scaled negative m e base * 2 ^ base := by
  obtain ⟨k, rfl⟩ := Int.le.dest h
  have hk : (base + k - base).toNat = k := by omega
  unfold rational
  rw [scaled_eq, scaled_eq, hk, zpow_add₀ two_ne_zero, zpow_natCast]
  cases negative <;> simp <;> ring

theorem rational_lt_rational (s t : Bool) (m n : Nat) (e f : Int) :
    rational s m e < rational t n f ↔
      scaled s m e (min e f) < scaled t n f (min e f) := by
  have hpos : (0 : ℚ) < 2 ^ min e f := zpow_pos two_pos _
  rw [rational_eq_scaled s m (min_le_left e f), rational_eq_scaled t n (min_le_right e f),
    mul_lt_mul_iff_left₀ hpos, Int.cast_lt]

theorem rational_inj (s t : Bool) (m n : Nat) (e f : Int) :
    rational s m e = rational t n f ↔
      scaled s m e (min e f) = scaled t n f (min e f) := by
  have hne : (2 : ℚ) ^ min e f ≠ 0 := zpow_ne_zero _ two_ne_zero
  rw [rational_eq_scaled s m (min_le_left e f), rational_eq_scaled t n (min_le_right e f),
    mul_left_inj' hne, Int.cast_inj]

namespace Parts

theorem compare?_eq_lt (p q : Parts) :
    p.compare? q = some .lt ↔ p.value ≠ ⊥ ∧ p.value < q.value := by
  cases p with
  | undefined => simp [compare?, value]
  | infinite s =>
    cases q with
    | undefined => simp [compare?, value]
    | infinite t => cases s <;> cases t <;> simp [compare?, value, compare]
    | finite t n f => cases s <;> simp [compare?, value]
  | finite s m e =>
    cases q with
    | undefined => simp [compare?, value]
    | infinite t => cases t <;> simp [compare?, value]
    | finite t n f => simp [compare?, value, rational_lt_rational, Int.compare_eq_lt]

theorem compare?_eq_eq (p q : Parts) :
    p.compare? q = some .eq ↔ p.value ≠ ⊥ ∧ p.value = q.value := by
  cases p with
  | undefined => simp [compare?, value]
  | infinite s =>
    cases q with
    | undefined => simp [compare?, value]
    | infinite t => cases s <;> cases t <;> simp [compare?, value]
    | finite t n f => cases s <;> simp [compare?, value]
  | finite s m e =>
    cases q with
    | undefined => simp [compare?, value]
    | infinite t => cases t <;> simp [compare?, value]
    | finite t n f => simp [compare?, value, rational_inj]

theorem value_ofFloat_ne_bot (x : Float) : (ofFloat x).value ≠ ⊥ ↔ x.isNaN = false := by
  have hx : x.isNaN = x.toModel.unpack.isNaN := rfl
  rw [hx, ofFloat_eq]
  cases x.toModel.unpack with
  | notANumber => exact iff_of_false (fun h => h rfl) Bool.noConfusion
  | infinity s => exact iff_of_true WithBot.coe_ne_bot rfl
  | zero s => exact iff_of_true WithBot.coe_ne_bot rfl
  | finite s m e pos => exact iff_of_true WithBot.coe_ne_bot rfl

end Parts

end Double

namespace Number

def value (n : Number) : WithBot Extended := n.parts.value

variable {a b : Number}

theorem value_float_ne_bot (x : Float) : (Number.float x).value ≠ ⊥ ↔ x.isNaN = false :=
  Double.Parts.value_ofFloat_ne_bot x

theorem lt_iff_value : a < b ↔ a.value ≠ ⊥ ∧ a.value < b.value :=
  Double.Parts.compare?_eq_lt a.parts b.parts

theorem beq_iff_value : (a == b) = true ↔ a.value ≠ ⊥ ∧ a.value = b.value := by
  change (a.compare? b == some Ordering.eq) = true ↔ _
  rw [beq_iff_eq]
  exact Double.Parts.compare?_eq_eq a.parts b.parts

theorem le_iff_value : a ≤ b ↔ a.value ≠ ⊥ ∧ a.value ≤ b.value := by
  rw [le_def, le_iff_lt_or_eq, and_or_left]
  exact or_congr lt_iff_value (Double.Parts.compare?_eq_eq a.parts b.parts)

def isUndefined : Number → Bool
  | .float x => x.isNaN
  | _ => false

theorem isUndefined_iff {n : Number} : n.isUndefined = true ↔ n.value = ⊥ := by
  cases n with
  | flag b => exact iff_of_false Bool.false_ne_true WithBot.coe_ne_bot
  | int k => exact iff_of_false Bool.false_ne_true WithBot.coe_ne_bot
  | float x =>
    change x.isNaN = true ↔ _
    rw [← not_iff_not, Bool.not_eq_true]
    exact (value_float_ne_bot x).symm

theorem not_le_iff (hb : b.value ≠ ⊥) : ¬ a ≤ b ↔ b < a ∨ a.isUndefined = true := by
  rw [le_iff_value, lt_iff_value, isUndefined_iff, not_and_or, not_not, not_le, and_iff_right hb,
    or_comm]

theorem not_lt_iff (hb : b.value ≠ ⊥) : ¬ a < b ↔ b ≤ a ∨ a.isUndefined = true := by
  rw [le_iff_value, lt_iff_value, isUndefined_iff, not_and_or, not_not, not_lt, and_iff_right hb,
    or_comm]

protected theorem le_trans {a b c : Number} (hab : a ≤ b) (hbc : b ≤ c) : a ≤ c := by
  rw [le_iff_value] at *
  exact ⟨hab.1, hab.2.trans hbc.2⟩

protected theorem lt_of_lt_of_le {a b c : Number} (hab : a < b) (hbc : b ≤ c) : a < c := by
  rw [lt_iff_value] at *
  rw [le_iff_value] at hbc
  exact ⟨hab.1, hab.2.trans_le hbc.2⟩

theorem float_beq_float (x y : Float) : (Number.float x == Number.float y) = (x == y) := by
  change ((Double.Parts.ofFloat x).compare? (Double.Parts.ofFloat y) == some Ordering.eq) =
    (x.toModel.compare y.toModel == some Ordering.eq)
  rw [Double.Parts.compare?_ofFloat]

theorem value_int (n : Int) : (Number.int n).value = (Extended.ofRat n : WithBot Extended) := by
  have hn : Double.rational (n < 0) n.natAbs 0 = n := by
    unfold Double.rational
    rw [Double.scaled_int]
    simp
  change ((Extended.ofRat (Double.rational _ _ 0) : Extended) : WithBot Extended) = _
  rw [hn]

theorem value_of_toInt? {n : Number} {k : Int} (h : n.toInt? = some k) :
    n.value = (Extended.ofRat k : WithBot Extended) := by
  cases n with
  | flag b =>
    cases h
    cases b
    · exact value_int 0
    · exact value_int 1
  | int n =>
    cases h
    exact value_int _
  | float x => cases h

theorem value_float {x : Float} {negative : Bool} {m : Nat} {e : Int}
    (hx : Double.Parts.ofFloat x = .finite negative m e) :
    (Number.float x).value = (Extended.ofRat (Double.rational negative m e) : WithBot Extended) := by
  change (Double.Parts.ofFloat x).value = _
  rw [hx]
  rfl

theorem value_float_zero : (Number.float 0.0).value = (Extended.ofRat 0 : WithBot Extended) := by
  have hzero : Double.Parts.ofFloat 0.0 = .finite false 0 (-1074) := by decide
  have hval : Double.rational false 0 (-1074) = 0 := by simp [Double.rational, Double.scaled]
  rw [value_float hzero, hval]

theorem value_float_one : (Number.float 1.0).value = (Extended.ofRat 1 : WithBot Extended) := by
  have hone : Double.Parts.ofFloat 1.0 = .finite false (2 ^ 52) (-52) := by decide
  have hval : Double.rational false (2 ^ 52) (-52) = 1 := by
    norm_num [Double.rational, Double.scaled]
  rw [value_float hone, hval]

theorem toInt?_of_unit {n : Number} (h0 : Number.float 0.0 < n) (h1 : n < Number.float 1.0) :
    n.toInt? = none := by
  cases hk : n.toInt? with
  | none => rfl
  | some k =>
    rw [lt_iff_value, value_of_toInt? hk, value_float_zero] at h0
    rw [lt_iff_value, value_of_toInt? hk, value_float_one] at h1
    simp only [WithBot.coe_lt_coe, Extended.ofRat_lt_ofRat] at h0 h1
    have hpos : 0 < k := by exact_mod_cast h0.2
    have hlt : k < 1 := by exact_mod_cast h1.2
    omega

theorem zero_le_int (n : Int) : Number.float 0.0 ≤ Number.int n ↔ 0 ≤ n := by
  rw [le_iff_value, value_float_zero, value_int]
  simp [Extended.ofRat]

theorem int_le_one (n : Int) : Number.int n ≤ Number.float 1.0 ↔ n ≤ 1 := by
  rw [le_iff_value, value_float_one, value_int]
  simp only [ne_eq, WithBot.coe_ne_bot, not_false_eq_true, true_and, WithBot.coe_le_coe,
    Extended.ofRat, WithTop.coe_le_coe]
  exact_mod_cast Iff.rfl

theorem int_le_int (m n : Int) : Number.int m ≤ Number.int n ↔ m ≤ n := by
  rw [le_iff_value, value_int, value_int]
  simp [Extended.ofRat]

theorem le_int_iff {n : Number} {k : Int} (h : n.toInt? = some k) (m : Int) :
    n ≤ Number.int m ↔ k ≤ m := by
  rw [le_iff_value, value_of_toInt? h, ← value_int, ← le_iff_value, int_le_int]

end Number

end DependencyRanking
