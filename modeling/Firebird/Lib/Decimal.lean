import Mathlib.Algebra.Order.Field.Rat
import Mathlib.Data.List.Induction
import Mathlib.Data.Rat.Cast.Order
import Mathlib.Tactic.FieldSimp
import Mathlib.Tactic.Ring

/-!
# Decimal literals

A literal has a sign, digits with at most one point among them, and an exponent; its text is in
ASCII, and its value is a rational number.
-/
namespace Firebird.Lib.Decimal

open List

instance ten_neZero : NeZero 10 := ⟨by decide⟩

def number (ds : List (Fin 10)) : Nat := ds.foldl (fun n d => n * 10 + d) 0

@[simp] theorem number_nil : number [] = 0 := rfl

@[simp] theorem number_concat (ds : List (Fin 10)) (d : Fin 10) :
    number (ds ++ [d]) = number ds * 10 + d := by
  simp [number]

theorem number_append (as bs : List (Fin 10)) :
    number (as ++ bs) = number as * 10 ^ bs.length + number bs := by
  induction bs using List.reverseRecOn with
  | nil => simp
  | append_singleton bs d ih =>
    rw [← append_assoc, number_concat, number_concat, ih, length_append, length_singleton,
      Nat.pow_succ]
    ring

theorem number_lt (ds : List (Fin 10)) : number ds < 10 ^ ds.length := by
  induction ds using List.reverseRecOn with
  | nil => simp
  | append_singleton ds d ih =>
    rw [number_concat, length_append, length_singleton, Nat.pow_succ]
    omega

@[simp] theorem number_zeros (k : Nat) : number (replicate k 0) = 0 := by
  induction k with
  | zero => rfl
  | succ k ih => rw [replicate_succ', number_concat, ih]; rfl

theorem number_zeros_append (k : Nat) (ds : List (Fin 10)) :
    number (replicate k 0 ++ ds) = number ds := by
  rw [number_append, number_zeros, Nat.zero_mul, Nat.zero_add]

theorem number_append_zeros (ds : List (Fin 10)) (k : Nat) :
    number (ds ++ replicate k 0) = number ds * 10 ^ k := by
  rw [number_append, number_zeros, length_replicate, Nat.add_zero]

def digits (n : Nat) : List (Fin 10) :=
  if h : n < 10 then [⟨n, h⟩] else digits (n / 10) ++ [⟨n % 10, Nat.mod_lt n (by decide)⟩]

theorem digits_ne_nil (n : Nat) : digits n ≠ [] := by
  rw [digits]
  split_ifs <;> simp

@[simp] theorem number_digits (n : Nat) : number (digits n) = n := by
  fun_induction digits n with
  | case1 n h => simp [number]
  | case2 n h ih =>
    rw [number_concat, ih]
    exact Nat.div_add_mod' n 10

theorem length_digits_pos (n : Nat) : 0 < (digits n).length :=
  length_pos_of_ne_nil (digits_ne_nil n)

theorem length_digits_le {n k : Nat} (h : n < 10 ^ (k + 1)) : (digits n).length ≤ k + 1 := by
  induction k generalizing n with
  | zero => rw [digits, dif_pos (by simpa using h)]; simp
  | succ k ih =>
    rw [digits]
    split_ifs with hlt
    · simp
    · rw [length_append, length_singleton]
      exact Nat.succ_le_succ (ih (Nat.div_lt_of_lt_mul (by rw [Nat.pow_succ] at h; omega)))

def digitByte (d : Fin 10) : UInt8 := UInt8.ofNat (48 + d)

/-! ## Literals -/

inductive Sign
  | none
  | plus
  | minus
  deriving DecidableEq

def Sign.text : Sign → List UInt8
  | none => []
  | plus => [43]
  | minus => [45]

def Sign.factor : Sign → Int
  | minus => -1
  | _ => 1

structure Exponent where
  upper : Bool
  sign : Sign
  digits : List (Fin 10)
  digits_ne_nil : digits ≠ []

def Exponent.value (e : Exponent) : Int := e.sign.factor * number e.digits

def Exponent.text (e : Exponent) : List UInt8 :=
  (if e.upper then 69 else 101) :: (e.sign.text ++ e.digits.map digitByte)

structure Literal where
  sign : Sign
  whole : List (Fin 10)
  fraction : Option (List (Fin 10))
  exponent : Option Exponent
  digits_ne_nil : whole ++ fraction.getD [] ≠ []

namespace Literal

variable (lit : Literal)

def fractionText : Option (List (Fin 10)) → List UInt8
  | none => []
  | some ds => 46 :: ds.map digitByte

def exponentText : Option Exponent → List UInt8
  | none => []
  | some e => e.text

def text : List UInt8 :=
  lit.sign.text ++ lit.whole.map digitByte ++ fractionText lit.fraction ++ exponentText lit.exponent

def fractionDigits : List (Fin 10) := lit.fraction.getD []

def exponentValue : Int := (lit.exponent.map Exponent.value).getD 0

def value : ℚ :=
  lit.sign.factor *
    (number lit.whole + number lit.fractionDigits / 10 ^ lit.fractionDigits.length) *
      10 ^ lit.exponentValue

def mantissa : Int := lit.sign.factor * number (lit.whole ++ lit.fractionDigits)

def scale : Int := lit.exponentValue - lit.fractionDigits.length

theorem value_eq : lit.value = lit.mantissa * 10 ^ lit.scale := by
  have hten : (10 : ℚ) ≠ 0 := by norm_num
  unfold value mantissa scale
  rw [zpow_sub₀ hten, zpow_natCast, number_append]
  push_cast
  field_simp

theorem mul_zpow_eq_value (m : Int) (k : Nat) :
    (m : ℚ) * 10 ^ (lit.scale + k) = lit.value ↔ m * 10 ^ k = lit.mantissa := by
  have hten : (10 : ℚ) ≠ 0 := by norm_num
  rw [value_eq, zpow_add₀ hten, zpow_natCast, mul_comm (_ ^ _) (_ ^ _), ← mul_assoc,
    mul_left_inj' (zpow_ne_zero _ hten)]
  exact_mod_cast Iff.rfl

theorem natAbs_mantissa_lt :
    lit.mantissa.natAbs < 10 ^ (lit.whole.length + lit.fractionDigits.length) := by
  have h := number_lt (lit.whole ++ lit.fractionDigits)
  rw [length_append] at h
  unfold mantissa
  cases lit.sign <;> simpa [Sign.factor] using h

theorem mul_zpow_eq_value_of_le {m : Int} {k : Nat}
    (h : lit.whole.length + lit.fractionDigits.length ≤ k) :
    (m : ℚ) * 10 ^ (lit.scale + k) = lit.value ↔ m = 0 ∧ lit.mantissa = 0 := by
  rw [mul_zpow_eq_value]
  constructor
  · intro heq
    have hlt := lit.natAbs_mantissa_lt.trans_le (Nat.pow_le_pow_right (by decide : 0 < 10) h)
    have hm : m = 0 := by
      by_contra hne
      have hpos := Int.natAbs_pos.2 hne
      rw [← heq, Int.natAbs_mul, Int.natAbs_pow] at hlt
      have := Nat.le_mul_of_pos_left (10 ^ k) hpos
      exact absurd hlt (Nat.not_lt.2 this)
    exact ⟨hm, by rw [← heq, hm, Int.zero_mul]⟩
  · rintro ⟨rfl, hM⟩
    rw [hM, Int.zero_mul]

/-- The digits of a number, at least `k + 1`. -/
def leadingDigits (n k : Nat) : List (Fin 10) :=
  List.replicate (k + 1 - (digits n).length) 0 ++ digits n

@[simp] theorem number_leadingDigits (n k : Nat) : number (leadingDigits n k) = n := by
  rw [leadingDigits, number_zeros_append, number_digits]

theorem lt_length_leadingDigits (n k : Nat) : k < (leadingDigits n k).length := by
  rw [leadingDigits, length_append, length_replicate]
  omega

/-- The literal of `n * 10 ^ scale` without an exponent: zeros stand for a positive scale, and a
negative one is the number of digits behind the point. -/
def ofScaled (n scale : Int) : Literal where
  sign := if n < 0 then .minus else .none
  whole :=
    let ds := leadingDigits n.natAbs (-scale).toNat ++ List.replicate scale.toNat 0
    ds.take (ds.length - (-scale).toNat)
  fraction :=
    let ds := leadingDigits n.natAbs (-scale).toNat ++ List.replicate scale.toNat 0
    if scale < 0 then some (ds.drop (ds.length - (-scale).toNat)) else none
  exponent := none
  digits_ne_nil := by
    have := lt_length_leadingDigits n.natAbs (-scale).toNat
    intro h
    have hlen := congrArg List.length (append_eq_nil_iff.1 h).1
    simp only [length_take, length_append, length_replicate, length_nil] at hlen
    omega

section OfScaled

variable (n scale : Int)

theorem digits_ofScaled : (ofScaled n scale).whole ++ (ofScaled n scale).fractionDigits =
    leadingDigits n.natAbs (-scale).toNat ++ replicate scale.toNat 0 := by
  unfold fractionDigits ofScaled
  dsimp only
  split_ifs with hneg
  · exact take_append_drop _ _
  · rw [show (-scale).toNat = 0 by omega]
    simp

theorem length_fraction_ofScaled : (ofScaled n scale).fractionDigits.length = (-scale).toNat := by
  have := lt_length_leadingDigits n.natAbs (-scale).toNat
  unfold fractionDigits ofScaled
  dsimp only
  split_ifs with hneg
  · simp only [Option.getD_some, length_drop, length_append]
    omega
  · rw [show (-scale).toNat = 0 by omega]
    rfl

theorem mantissa_ofScaled : (ofScaled n scale).mantissa = n * 10 ^ scale.toNat := by
  rw [mantissa, digits_ofScaled, number_append_zeros, number_leadingDigits]
  have hsign : (ofScaled n scale).sign.factor * n.natAbs = n := by
    unfold ofScaled
    dsimp only
    split_ifs with hneg
    · change -1 * (n.natAbs : Int) = n
      omega
    · change 1 * (n.natAbs : Int) = n
      omega
  push_cast
  rw [← mul_assoc, ← Int.natCast_natAbs, hsign]

theorem scale_ofScaled : (ofScaled n scale).scale = -((-scale).toNat : Int) := by
  rw [Literal.scale, length_fraction_ofScaled]
  simp [exponentValue, ofScaled]

theorem value_ofScaled : (ofScaled n scale).value = n * 10 ^ scale := by
  rw [value_eq, mantissa_ofScaled, scale_ofScaled]
  push_cast
  obtain h | h := le_total scale 0
  · rw [Int.toNat_of_nonpos h, Int.toNat_of_nonneg (by omega)]
    simp
  · rw [Int.toNat_of_nonpos (by omega : -scale ≤ 0), ← zpow_natCast, Int.toNat_of_nonneg h]
    simp

end OfScaled

end Literal

end Firebird.Lib.Decimal
