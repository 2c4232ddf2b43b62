import Mathlib.Logic.Function.Basic
import Mathlib.Tactic.IntervalCases

/-!
# Two bits each

A map of two-bit values kept in bytes, the lowest two bits of each byte first.
-/
namespace Firebird.Lib.Crumb

/-- `(bytes[n >> 2] >> ((n & 3) << 1)) & 3` -/
def get (bytes : Nat → BitVec 8) (n : Nat) : BitVec 8 := bytes (n / 4) >>> (2 * (n % 4)) &&& 3#8

/-- `*address &= ~(3 << shift); *address |= s << shift` -/
def put (byte s : BitVec 8) (shift : Nat) : BitVec 8 := byte &&& ~~~ (3#8 <<< shift) ||| s <<< shift

def set (bytes : Nat → BitVec 8) (n : Nat) (s : BitVec 8) : Nat → BitVec 8 :=
  Function.update bytes (n / 4) (put (bytes (n / 4)) s (2 * (n % 4)))

theorem getLsbD_three (i : Nat) : (3#8).getLsbD i = decide (i < 2) := by
  by_cases h : i < 8
  · interval_cases i <;> rfl
  · rw [BitVec.getLsbD_of_ge _ _ (by omega), decide_eq_false (by omega)]

theorem getLsbD_of_lt_four {s : BitVec 8} (hs : s.toNat < 4) {i : Nat} (hi : 2 ≤ i) :
    s.getLsbD i = false := by
  rw [← BitVec.testBit_toNat]
  exact Nat.testBit_lt_two_pow (Nat.lt_of_lt_of_le hs
    (Nat.pow_le_pow_right (n := 2) (by decide) hi))

theorem getLsbD_put {byte s : BitVec 8} (hs : s.toNat < 4) {k i : Nat} (hi : i < 8) :
    (put byte s (2 * k)).getLsbD i =
      if 2 * k ≤ i ∧ i < 2 * k + 2 then s.getLsbD (i - 2 * k) else byte.getLsbD i := by
  unfold put
  simp only [BitVec.getLsbD_or, BitVec.getLsbD_and, BitVec.getLsbD_not, BitVec.getLsbD_shiftLeft,
    getLsbD_three, hi]
  split_ifs with h
  · have h₁ : ¬ i < 2 * k := by omega
    have h₂ : i - 2 * k < 2 := by omega
    simp [h₁, h₂]
  · by_cases h₁ : i < 2 * k
    · simp [h₁]
    · have h₂ : ¬ i - 2 * k < 2 := by omega
      simp [h₂, getLsbD_of_lt_four hs (show 2 ≤ i - 2 * k by omega)]

theorem crumb_put {byte s : BitVec 8} (hs : s.toNat < 4) {j k : Nat} (hj : j < 4) :
    put byte s (2 * k) >>> (2 * j) &&& 3#8 = if j = k then s else byte >>> (2 * j) &&& 3#8 := by
  refine BitVec.eq_of_getLsbD_eq fun i hi => ?_
  rw [BitVec.getLsbD_and, BitVec.getLsbD_ushiftRight, getLsbD_three]
  by_cases hi₂ : i < 2
  · rw [getLsbD_put hs (by omega)]
    by_cases e : j = k
    · subst e
      simp [hi₂]
    · have h₁ : ¬ (2 * k ≤ 2 * j + i ∧ 2 * j + i < 2 * k + 2) := by omega
      rw [if_neg h₁, if_neg e, BitVec.getLsbD_and, BitVec.getLsbD_ushiftRight, getLsbD_three]
  · by_cases e : j = k
    · simp [e, hi₂, getLsbD_of_lt_four hs (show 2 ≤ i by omega)]
    · rw [if_neg e, BitVec.getLsbD_and, BitVec.getLsbD_ushiftRight, getLsbD_three]
      simp [hi₂]

theorem get_set (bytes : Nat → BitVec 8) (n m : Nat) {s : BitVec 8} (hs : s.toNat < 4) :
    get (set bytes n s) m = if m = n then s else get bytes m := by
  unfold get set
  by_cases e : m / 4 = n / 4
  · rw [e, Function.update_self, crumb_put hs (Nat.mod_lt _ (by decide))]
    have : m % 4 = n % 4 ↔ m = n := by omega
    simp [this]
  · rw [Function.update_of_ne e, if_neg fun h => e (by rw [h])]

end Firebird.Lib.Crumb
