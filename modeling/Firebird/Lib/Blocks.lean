import Mathlib.Data.Nat.Bitwise
import Mathlib.Order.Monotone.Basic

/-!
# Entries in blocks

Entries that are numbered from zero are kept in blocks of the same width, and in front of each block
there is a cell for the block itself.
-/
namespace Firebird.Lib.Blocks

variable {w n m : Nat}

def position (w n : Nat) : Nat := n + n / w

theorem position_eq (w n : Nat) : position w n = n / w * (w + 1) + n % w := by
  have := Nat.div_add_mod n w
  unfold position
  rw [Nat.mul_add, Nat.mul_comm (n / w) w]
  omega

theorem position_div (hw : 0 < w) (n : Nat) : position w n / (w + 1) = n / w := by
  have := Nat.mod_lt n hw
  rw [position_eq, Nat.add_comm, Nat.add_mul_div_right _ _ (Nat.succ_pos w),
    Nat.div_eq_of_lt (by omega), Nat.zero_add]

theorem position_mod (hw : 0 < w) (n : Nat) : position w n % (w + 1) = n % w := by
  have := Nat.mod_lt n hw
  rw [position_eq, Nat.add_comm, Nat.add_mul_mod_self_right, Nat.mod_eq_of_lt (by omega)]

theorem succ_position_div (hw : 0 < w) (n : Nat) : (position w n + 1) / (w + 1) = n / w := by
  have := Nat.mod_lt n hw
  rw [position_eq, Nat.add_assoc, Nat.add_comm, Nat.add_mul_div_right _ _ (Nat.succ_pos w),
    Nat.div_eq_of_lt (by omega), Nat.zero_add]

theorem succ_position_mod (hw : 0 < w) (n : Nat) : (position w n + 1) % (w + 1) = n % w + 1 := by
  have := Nat.mod_lt n hw
  rw [position_eq, Nat.add_assoc, Nat.add_comm, Nat.add_mul_mod_self_right, Nat.mod_eq_of_lt
    (by omega)]

theorem succ_div_of_lt (h : n % w + 1 < w) : (n + 1) / w = n / w := by
  have := Nat.div_add_mod n w
  exact Nat.div_eq_of_lt_le (by rw [Nat.mul_comm]; omega) (by rw [Nat.add_mul, Nat.mul_comm]; omega)

theorem succ_div_of_eq (h : n % w + 1 = w) : (n + 1) / w = n / w + 1 := by
  have := Nat.div_add_mod n w
  refine Nat.div_eq_of_lt_le ?_ ?_
  · rw [Nat.add_mul, Nat.mul_comm]
    omega
  · rw [Nat.add_mul, Nat.add_mul, Nat.mul_comm]
    omega

theorem position_succ (h : n % w + 1 < w) : position w (n + 1) = position w n + 1 := by
  have hdiv := succ_div_of_lt h
  unfold position
  omega

theorem position_succ_full (h : n % w + 1 = w) : position w (n + 1) = position w n + 2 := by
  have hdiv := succ_div_of_eq h
  unfold position
  omega

theorem position_le (hw : 3 ≤ w) (n : Nat) : position w n ≤ n + n / 3 :=
  Nat.add_le_add_left (Nat.div_le_div_left hw (by decide)) n

theorem and_sub_two_pow {x k b : Nat} (hx : x < 2 ^ b) (hk : k ≤ b) :
    x &&& (2 ^ b - 2 ^ k) = x / 2 ^ k * 2 ^ k := by
  have hmask : 2 ^ b - 2 ^ k = 2 ^ b - (2 ^ k - 1 + 1) := by
    rw [Nat.sub_add_cancel (Nat.one_le_two_pow)]
  have hlt : 2 ^ k - 1 < 2 ^ b := by
    have := Nat.pow_le_pow_right (by decide : 0 < 2) hk
    omega
  refine Nat.eq_of_testBit_eq fun i => ?_
  rw [Nat.testBit_and, hmask, Nat.testBit_two_pow_sub_succ hlt, Nat.testBit_two_pow_sub_one,
    Nat.testBit_mul_two_pow, Nat.testBit_div_two_pow]
  by_cases hi : k ≤ i
  · simp only [hi, Nat.sub_add_cancel, Nat.not_lt.2 hi]
    by_cases hb : i < b
    · simp [hb]
    · have : x.testBit i = false :=
        Nat.testBit_lt_two_pow (hx.trans_le (Nat.pow_le_pow_right (by decide) (Nat.not_lt.1 hb)))
      simp [this]
  · simp [Nat.not_le.1 hi]

end Firebird.Lib.Blocks
