import DependencyRanking.Proofs.Number.Unpack

/-!
# The order of given numbers

Given numbers are compared by their exact values. Among doubles that is the order of the doubles.
-/
namespace DependencyRanking

namespace Double

open Float.Model (UnpackedFloat)

theorem scaled_eq (negative : Bool) (m : Nat) (e base : Int) :
    scaled negative m e base =
      if negative then -((m * 2 ^ (e - base).toNat : Nat) : Int)
      else ((m * 2 ^ (e - base).toNat : Nat) : Int) := by
  unfold scaled
  rw [Int.natCast_mul]
  rfl

variable {m n : Nat} {e f : Int}

theorem magnitude_lt (hm : m < 2 ^ 53) (hn : 2 ^ 52 ≤ n) (hef : e < f) :
    m * 2 ^ (e - min e f).toNat < n * 2 ^ (f - min e f).toNat := by
  rw [Int.min_eq_left (Int.le_of_lt hef), Int.sub_self, Int.toNat_zero, Nat.pow_zero, Nat.mul_one]
  have hp : 2 ^ 1 ≤ 2 ^ (f - e).toNat := Nat.pow_le_pow_right (by decide) (by omega)
  have hle := Nat.mul_le_mul hn hp
  omega

theorem compare_magnitudes (hm : Canonical m e) (hn : Canonical n f) :
    compare (m * 2 ^ (e - min e f).toNat) (n * 2 ^ (f - min e f).toNat) =
      (compare e f).then (compare m n) := by
  obtain ⟨hm, he⟩ := hm
  obtain ⟨hn, hf⟩ := hn
  rcases Int.lt_trichotomy e f with hef | rfl | hef
  · rw [Int.compare_eq_lt.2 hef, Nat.compare_eq_lt.2 (magnitude_lt hm (by omega) hef)]
    rfl
  · rw [Int.min_self, Int.sub_self, Int.toNat_zero, Nat.pow_zero, Nat.mul_one, Nat.mul_one,
      Int.compare_eq_eq.2 rfl]
    rfl
  · rw [Int.compare_eq_gt.2 hef, Int.min_comm, Nat.compare_eq_gt.2 (magnitude_lt hn (by omega) hef)]
    rfl

theorem compare_natCast (a b : Nat) : compare (a : Int) (b : Int) = compare a b := by
  rcases Nat.lt_trichotomy a b with h | rfl | h
  · rw [Nat.compare_eq_lt.2 h, Int.compare_eq_lt.2 (Int.ofNat_lt.2 h)]
  · rw [Nat.compare_eq_eq.2 rfl, Int.compare_eq_eq.2 rfl]
  · rw [Nat.compare_eq_gt.2 h, Int.compare_eq_gt.2 (Int.ofNat_lt.2 h)]

theorem compare_neg (a b : Int) : compare (-a) (-b) = (compare a b).swap := by
  rw [Int.compare_swap]
  rcases Int.lt_trichotomy a b with h | rfl | h
  · rw [Int.compare_eq_gt.2 h, Int.compare_eq_gt.2 (Int.neg_lt_neg h)]
  · rw [Int.compare_eq_eq.2 rfl, Int.compare_eq_eq.2 rfl]
  · rw [Int.compare_eq_lt.2 h, Int.compare_eq_lt.2 (Int.neg_lt_neg h)]

theorem scaled_zero (negative : Bool) (e base : Int) : scaled negative 0 e base = 0 := by
  rw [scaled_eq, Nat.zero_mul]
  cases negative <;> rfl

theorem scaled_pos (hm : 0 < m) (e base : Int) : 0 < scaled false m e base := by
  rw [scaled_eq]
  exact Int.natCast_pos.2 (Nat.mul_pos hm (Nat.two_pow_pos _))

theorem scaled_neg (hm : 0 < m) (e base : Int) : scaled true m e base < 0 := by
  rw [scaled_eq]
  exact Int.neg_neg_of_pos (Int.natCast_pos.2 (Nat.mul_pos hm (Nat.two_pow_pos _)))

theorem compare_scaled (s : Bool) (hm : Canonical m e) (hn : Canonical n f) :
    compare (scaled s m e (min e f)) (scaled s n f (min e f)) =
      if s then ((compare e f).then (compare m n)).swap else (compare e f).then (compare m n) := by
  rw [scaled_eq, scaled_eq, ← compare_magnitudes hm hn]
  cases s with
  | false => exact compare_natCast _ _
  | true => exact (compare_neg _ _).trans (congrArg Ordering.swap (compare_natCast _ _))

theorem Parts.compare?_ofFloat (x y : Float) :
    (Parts.ofFloat x).compare? (Parts.ofFloat y) = x.toModel.compare y.toModel := by
  have hx := canonical_unpack x
  have hy := canonical_unpack y
  rw [Parts.ofFloat_eq, Parts.ofFloat_eq]
  unfold Float.Model.compare
  generalize x.toModel.unpack = u at hx
  generalize y.toModel.unpack = v at hy
  cases u with
  | notANumber => rfl
  | infinity s =>
    cases v with
    | notANumber => rfl
    | infinity t => cases s <;> cases t <;> rfl
    | zero t => cases s <;> rfl
    | finite t n f pos => cases s <;> rfl
  | zero s =>
    cases v with
    | notANumber => rfl
    | infinity t => cases t <;> rfl
    | zero t =>
      change some (compare (scaled _ 0 _ _) (scaled _ 0 _ _)) = some .eq
      rw [scaled_zero, scaled_zero]
      rfl
    | finite t n f pos =>
      change some (compare (scaled _ 0 _ _) _) = _
      rw [scaled_zero]
      cases t with
      | negative => exact congrArg some (Int.compare_eq_gt.2 (scaled_neg pos f _))
      | positive => exact congrArg some (Int.compare_eq_lt.2 (scaled_pos pos f _))
  | finite s m e pos =>
    cases v with
    | notANumber => rfl
    | infinity t => cases t <;> rfl
    | zero t =>
      change some (compare _ (scaled _ 0 _ _)) = _
      rw [scaled_zero]
      cases s with
      | negative => exact congrArg some (Int.compare_eq_lt.2 (scaled_neg pos e _))
      | positive => exact congrArg some (Int.compare_eq_gt.2 (scaled_pos pos e _))
    | finite t n f pos' =>
      have hc := fun s => compare_scaled s (hx _ _ _ _ rfl) (hy _ _ _ _ rfl)
      cases s with
      | negative =>
        cases t with
        | negative => exact congrArg some (hc true)
        | positive =>
          exact congrArg some (Int.compare_eq_lt.2
            (Int.lt_trans (scaled_neg pos e _) (scaled_pos pos' f _)))
      | positive =>
        cases t with
        | negative =>
          exact congrArg some (Int.compare_eq_gt.2
            (Int.lt_trans (scaled_neg pos' f _) (scaled_pos pos e _)))
        | positive => exact congrArg some (hc false)

theorem scaled_int (n base : Int) :
    scaled (n < 0) n.natAbs 0 base = n * 2 ^ (-base).toNat := by
  rw [scaled_eq, Int.zero_sub, Int.natCast_mul, Int.natCast_pow]
  by_cases hn : n < 0
  · rw [if_pos (decide_eq_true hn), ← Int.neg_mul]
    congr 1
    omega
  · rw [if_neg (by simpa using hn)]
    congr 1
    omega

end Double

namespace Number

theorem float_le_float (x y : Float) : Number.float x ≤ Number.float y ↔ x ≤ y := by
  have hle : x ≤ y ↔ (x.toModel.compare y.toModel).any (·.isLE) = true := decide_eq_true_iff
  rw [hle, ← Double.Parts.compare?_ofFloat, le_def]
  change (Double.Parts.ofFloat x).compare? (Double.Parts.ofFloat y) = some .lt ∨
    (Double.Parts.ofFloat x).compare? (Double.Parts.ofFloat y) = some .eq ↔ _
  rcases (Double.Parts.ofFloat x).compare? (Double.Parts.ofFloat y) with _ | _ | _ | _ <;> simp

end Number

end DependencyRanking
