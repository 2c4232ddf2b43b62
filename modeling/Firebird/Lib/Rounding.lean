import Mathlib.Algebra.Order.Floor.Ring
import Mathlib.Data.Rat.Floor
import Mathlib.Tactic.Linarith
import Mathlib.Tactic.Ring

/-!
# Rounding half away from zero

The nearest integer of a rational number, and how it comes out when the digits of an integer are
dropped one at a time: the last digit that is dropped decides.
-/
namespace Firebird.Lib.Rounding

def nearest (x : ℚ) : ℤ := if 0 ≤ x then ⌊x + 1 / 2⌋ else ⌈x - 1 / 2⌉

variable {v w d : ℤ} {n : ℕ}

theorem nearest_intCast (v : ℤ) : nearest v = v := by
  unfold nearest
  split_ifs
  · rw [Int.floor_eq_iff]
    constructor <;> linarith
  · rw [Int.ceil_eq_iff]
    constructor <;> linarith

theorem nearest_neg (x : ℚ) : nearest (-x) = -nearest x := by
  rcases lt_trichotomy x 0 with hlt | rfl | hgt
  · rw [nearest, nearest, if_pos (by linarith), if_neg (by linarith), ← Int.floor_neg]
    congr 1
    ring
  · have hzero := nearest_intCast 0
    rw [Int.cast_zero] at hzero
    rw [neg_zero, hzero, neg_zero]
  · rw [nearest, nearest, if_neg (by linarith), if_pos hgt.le, ← Int.ceil_neg]
    congr 1
    ring

theorem nearest_div (hv : 0 ≤ v) (n : ℕ) :
    nearest ((v : ℚ) / 10 ^ (n + 1)) = (v + 5 * 10 ^ n) / 10 ^ (n + 1) := by
  have hhalf : (v : ℚ) / 10 ^ (n + 1) + 1 / 2 =
      ((v + 5 * 10 ^ n : ℤ) : ℚ) / ((10 ^ (n + 1) : ℕ) : ℚ) := by
    push_cast
    field_simp
    ring
  have hnonneg : (0 : ℚ) ≤ (v : ℚ) / 10 ^ (n + 1) := by positivity
  rw [nearest, if_pos hnonneg, hhalf, Rat.floor_intCast_div_natCast]
  norm_cast

def dropLast (w : ℤ) : ℤ :=
  if 4 < w.tmod 10 then w.tdiv 10 + 1 else if w.tmod 10 < -4 then w.tdiv 10 - 1 else w.tdiv 10

theorem dropLast_neg (w : ℤ) : dropLast (-w) = -dropLast w := by
  rw [dropLast, dropLast, Int.neg_tdiv, Int.neg_tmod]
  split_ifs <;> omega

theorem dropLast_of_nonneg (hw : 0 ≤ w) : dropLast w = (w + 5) / 10 := by
  rw [dropLast, Int.tdiv_eq_ediv_of_nonneg hw, Int.tmod_eq_emod_of_nonneg hw]
  split_ifs <;> omega

theorem tdiv_tdiv {a : ℤ} (ha : 0 ≤ a) (b : ℤ) : (v.tdiv a).tdiv b = v.tdiv (a * b) := by
  have hnonneg : ∀ u : ℤ, 0 ≤ u → (u.tdiv a).tdiv b = u.tdiv (a * b) := by
    intro u hu
    rw [Int.tdiv_eq_ediv_of_nonneg hu, Int.tdiv_eq_ediv_of_nonneg (Int.ediv_nonneg hu ha),
      Int.tdiv_eq_ediv_of_nonneg hu, Int.ediv_ediv_of_nonneg ha]
  rcases le_total 0 v with hv | hv
  · exact hnonneg v hv
  · have hneg := hnonneg (-v) (by omega)
    rwa [Int.neg_tdiv, Int.neg_tdiv, Int.neg_tdiv, Int.neg_inj] at hneg

theorem dropLast_tdiv (v : ℤ) (n : ℕ) :
    dropLast (v.tdiv (10 ^ n)) = nearest ((v : ℚ) / 10 ^ (n + 1)) := by
  have hpow : (0 : ℤ) < 10 ^ n := by positivity
  have hnonneg : ∀ u : ℤ, 0 ≤ u →
      dropLast (u.tdiv (10 ^ n)) = nearest ((u : ℚ) / 10 ^ (n + 1)) := by
    intro u hu
    rw [nearest_div hu, Int.tdiv_eq_ediv_of_nonneg hu,
      dropLast_of_nonneg (Int.ediv_nonneg hu hpow.le), pow_succ,
      ← Int.ediv_ediv_of_nonneg hpow.le, Int.add_mul_ediv_right _ _ hpow.ne']
  rcases le_total 0 v with hv | hv
  · exact hnonneg v hv
  · have hneg := hnonneg (-v) (by omega)
    rw [Int.neg_tdiv, dropLast_neg, Int.cast_neg, neg_div, nearest_neg] at hneg
    omega

end Firebird.Lib.Rounding
