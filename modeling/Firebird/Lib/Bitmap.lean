import Mathlib.Logic.Function.Basic

/-!
# Bits in bytes

A map of bits kept in bytes, the lowest bit of each byte first.
-/
namespace Firebird.Lib.Bitmap

open Function

/-- The byte with the bit `i` only. -/
def mask (i : Nat) : BitVec 8 := 1#8 <<< i

def test (bytes : Nat → BitVec 8) (b : Nat) : Bool := (bytes (b / 8)).getLsbD (b % 8)

/-- `bytes[b >> 3] |= 1 << (b & 7)` -/
def set (bytes : Nat → BitVec 8) (b : Nat) : Nat → BitVec 8 :=
  Function.update bytes (b / 8) (bytes (b / 8) ||| mask (b % 8))

/-- `bytes[b >> 3] &= ~(1 << (b & 7))` -/
def clear (bytes : Nat → BitVec 8) (b : Nat) : Nat → BitVec 8 :=
  Function.update bytes (b / 8) (bytes (b / 8) &&& ~~~ mask (b % 8))

theorem getLsbD_mask {i j : Nat} (hj : j < 8) : (mask i).getLsbD j = decide (j = i) := by
  have : mask i = BitVec.twoPow 8 i := rfl
  rw [this, BitVec.getLsbD_twoPow]
  by_cases e : j = i
  · subst e
    simp [hj]
  · have : i ≠ j := fun h => e h.symm
    simp [e, this]

theorem and_mask_eq_zero {byte : BitVec 8} {i : Nat} (hi : i < 8) :
    byte &&& mask i = 0 ↔ byte.getLsbD i = false := by
  have : mask i = BitVec.twoPow 8 i := rfl
  rw [this, BitVec.and_twoPow]
  cases byte.getLsbD i with
  | false => simp
  | true =>
    simp only [Bool.true_eq_false, iff_false]
    intro h
    have := congrArg (fun x => BitVec.getLsbD x i) h
    simp [hi] at this

theorem mod_eq_iff {b b' : Nat} (h : b' / 8 = b / 8) : b' % 8 = b % 8 ↔ b' = b := by omega

theorem test_clear (bytes : Nat → BitVec 8) (b b' : Nat) :
    test (clear bytes b) b' = (test bytes b' && decide (b' ≠ b)) := by
  have hlt : b' % 8 < 8 := Nat.mod_lt _ (by decide)
  unfold test clear
  by_cases e : b' / 8 = b / 8
  · rw [e, update_self, BitVec.getLsbD_and, BitVec.getLsbD_not, getLsbD_mask hlt]
    simp [hlt, mod_eq_iff e]
  · rw [update_of_ne e]
    have : b' ≠ b := fun h => e (by rw [h])
    simp [this]

theorem test_set (bytes : Nat → BitVec 8) (b b' : Nat) :
    test (set bytes b) b' = (test bytes b' || decide (b' = b)) := by
  have hlt : b' % 8 < 8 := Nat.mod_lt _ (by decide)
  unfold test set
  by_cases e : b' / 8 = b / 8
  · rw [e, update_self, BitVec.getLsbD_or, getLsbD_mask hlt]
    simp [mod_eq_iff e]
  · rw [update_of_ne e]
    have : b' ≠ b := fun h => e (by rw [h])
    simp [this]

theorem test_mul_add (bytes : Nat → BitVec 8) (j : Nat) {i : Nat} (hi : i < 8) :
    test bytes (j * 8 + i) = (bytes j).getLsbD i := by
  have h₁ : (j * 8 + i) / 8 = j := by omega
  have h₂ : (j * 8 + i) % 8 = i := by omega
  rw [test, h₁, h₂]

theorem byte_eq_ones_iff {bytes : Nat → BitVec 8} {j : Nat} :
    bytes j = 255#8 ↔ ∀ i < 8, test bytes (j * 8 + i) = true := by
  have hones : 255#8 = BitVec.allOnes 8 := rfl
  rw [hones]
  constructor
  · intro h i hi
    rw [test_mul_add bytes j hi, h, BitVec.getLsbD_allOnes, decide_eq_true hi]
  · intro h
    refine BitVec.eq_of_getLsbD_eq fun i hi => ?_
    rw [← test_mul_add bytes j hi, h i hi, BitVec.getLsbD_allOnes, decide_eq_true hi]

end Firebird.Lib.Bitmap
