import Firebird.Jrd.Cvt
import Firebird.Lib.Rounding

/-!
# Exact numbers of another scale

`CVT_get_long` and `CVT_get_int64` for a source that is an exact number. Digits are dropped or zeros
appended one at a time, and before a zero is appended the value is compared with a limit. The
products that are computed on the way are kept beside it, as they are before they are stored.
-/
namespace Firebird.Jrd.Cvt

open Lib Rounding

/-- The types of exact numbers; the functions below make nothing of `dtype_quad`. -/
inductive ExactDtype
  | short
  | long
  | int64
  deriving DecidableEq

def longLimit : Int := 2 ^ 30 / 5

def int64Limit : Int := 2 ^ 62 / 5

def dropDigits : Nat → Int → Int → Int × Int
  | 0, value, fraction => (value, fraction)
  | scale + 1, value, fraction =>
    dropDigits scale (value.tdiv 10) (if scale + 1 = 1 then value.tmod 10 else fraction)

def appendZeros (store : Int → Int) (limit : Int) : Nat → Int → Except Error Int
  | 0, value => .ok value
  | n + 1, value =>
    if value > limit ∨ value < -limit then .error .arithExcept
    else appendZeros store limit n (store (value * 10))

def products (store : Int → Int) (limit : Int) : Nat → Int → List Int
  | 0, _ => []
  | n + 1, value =>
    if value > limit ∨ value < -limit then []
    else value * 10 :: products store limit n (store (value * 10))

def adjust (store : Int → Int) (limit scale value : Int) : Except Error Int :=
  if scale > 0 then
    let (value, fraction) := dropDigits scale.toNat value 0
    if fraction > 4 then .ok (store (value + 1))
    else if fraction < -4 then .ok (store (value - 1))
    else .ok value
  else if scale < 0 then appendZeros store limit (-scale).toNat value
  else .ok value

/-- `CVT_get_long` for an exact number with its scale. -/
def getLong (dtype : ExactDtype) (value dscScale scale : Int) : Except Error Int :=
  let scale := sshort (scale - dscScale)
  match dtype with
  | .int64 => do
    let val64 ← adjust sint64 int64Limit scale value
    if val64 > maxSlong ∨ val64 < minSlong then .error .arithExcept else .ok (slong val64)
  | _ => adjust slong longLimit scale value

/-- `CVT_get_int64` for an exact number with its scale. -/
def getInt64 (value dscScale scale : Int) : Except Error Int :=
  adjust sint64 int64Limit (sshort (scale - dscScale)) value

namespace ExactDtype

def Holds : ExactDtype → Int → Prop
  | short, v => -2 ^ 15 ≤ v ∧ v < 2 ^ 15
  | long, v => minSlong ≤ v ∧ v ≤ maxSlong
  | int64, v => minSint64 ≤ v ∧ v ≤ maxSint64

instance (dtype : ExactDtype) (v : Int) : Decidable (dtype.Holds v) := by
  cases dtype <;> exact inferInstanceAs (Decidable (_ ∧ _))

theorem Holds.int64 {dtype : ExactDtype} {v : Int} (h : dtype.Holds v) :
    ExactDtype.int64.Holds v := by
  cases dtype <;> simp only [Holds, minSlong, maxSlong, minSint64, maxSint64] at h ⊢ <;> omega

end ExactDtype

/-- A type in which values are stored, and the limit up to which they can be multiplied by ten. -/
structure Limits (store : Int → Int) (limit : Int) (dtype : ExactDtype) : Prop where
  store_eq : ∀ v, dtype.Holds v → store v = v
  limit_iff : ∀ v, dtype.Holds (v * 10) ↔ ¬(v > limit ∨ v < -limit)
  between : ∀ u v, dtype.Holds v → (0 ≤ u ∧ u ≤ v ∨ v ≤ u ∧ u ≤ 0) → dtype.Holds u
  zero : dtype.Holds 0

theorem limits_long : Limits slong longLimit .long where
  store_eq v h := by
    simp only [ExactDtype.Holds, minSlong, maxSlong] at h
    simp only [slong]
    omega
  limit_iff v := by
    simp only [ExactDtype.Holds, minSlong, maxSlong, longLimit]
    omega
  between u v h hu := by
    simp only [ExactDtype.Holds, minSlong, maxSlong] at h ⊢
    omega
  zero := by decide

theorem limits_int64 : Limits sint64 int64Limit .int64 where
  store_eq v h := by
    simp only [ExactDtype.Holds, minSint64, maxSint64] at h
    simp only [sint64]
    omega
  limit_iff v := by
    simp only [ExactDtype.Holds, minSint64, maxSint64, int64Limit]
    omega
  between u v h hu := by
    simp only [ExactDtype.Holds, minSint64, maxSint64] at h ⊢
    omega
  zero := by decide

section

variable {store : Int → Int} {limit : Int} {dtype : ExactDtype} {v : Int} {n : Nat}

theorem between_mul_pow (v : Int) (n : Nat) :
    0 ≤ v ∧ v ≤ v * 10 ^ n ∨ v * 10 ^ n ≤ v ∧ v ≤ 0 := by
  have hpow : (1 : Int) ≤ 10 ^ n := one_le_pow₀ (by decide)
  rcases le_total 0 v with hv | hv
  · exact .inl ⟨hv, le_mul_of_one_le_right hv hpow⟩
  · exact .inr ⟨mul_le_of_one_le_right hv hpow, hv⟩

theorem appendZeros_spec (hlimits : Limits store limit dtype) (hv : dtype.Holds v) :
    appendZeros store limit n v =
        (if dtype.Holds (v * 10 ^ n) then .ok (v * 10 ^ n) else .error .arithExcept) ∧
      ∀ p ∈ products store limit n v, store p = p := by
  induction n generalizing v with
  | zero =>
    refine ⟨?_, fun p hp => absurd hp List.not_mem_nil⟩
    rw [appendZeros, pow_zero, mul_one, if_pos hv]
  | succ n ih =>
    have hmul : v * 10 ^ (n + 1) = v * 10 * 10 ^ n := by ring
    rw [appendZeros, products, hmul]
    by_cases hlimit : v > limit ∨ v < -limit
    · have hover : ¬dtype.Holds (v * 10) := fun h => (hlimits.limit_iff v).1 h hlimit
      have hout : ¬dtype.Holds (v * 10 * 10 ^ n) := fun h =>
        hover (hlimits.between _ _ h (between_mul_pow (v * 10) n))
      rw [if_pos hlimit, if_pos hlimit, if_neg hout]
      exact ⟨rfl, fun p hp => absurd hp List.not_mem_nil⟩
    · have hfits := (hlimits.limit_iff v).2 hlimit
      have hstore := hlimits.store_eq _ hfits
      obtain ⟨heq, hproducts⟩ := ih hfits
      rw [if_neg hlimit, if_neg hlimit, hstore]
      refine ⟨heq, fun p hp => ?_⟩
      rcases List.mem_cons.1 hp with rfl | hp
      · exact hstore
      · exact hproducts p hp

theorem dropDigits_succ (n : Nat) (v fraction : Int) :
    dropDigits (n + 1) v fraction =
      ((v.tdiv (10 ^ n)).tdiv 10, (v.tdiv (10 ^ n)).tmod 10) := by
  induction n generalizing v fraction with
  | zero => rw [dropDigits, dropDigits, if_pos rfl, pow_zero, Int.tdiv_one]
  | succ n ih =>
    have hdiv : (v.tdiv 10).tdiv (10 ^ n) = v.tdiv (10 ^ (n + 1)) := by
      rw [tdiv_tdiv (by decide), pow_succ']
    rw [dropDigits, if_neg (by omega), ih, hdiv]

theorem holds_dropLast (hlimits : Limits store limit dtype) (hv : dtype.Holds v) :
    dtype.Holds (dropLast (v.tdiv (10 ^ n))) := by
  refine hlimits.between _ v hv ?_
  have hpow : (0 : Int) < 10 ^ n := by positivity
  have hnonneg : ∀ u : Int, 0 ≤ u → 0 ≤ dropLast (u.tdiv (10 ^ n)) ∧
      dropLast (u.tdiv (10 ^ n)) ≤ u := by
    intro u hu
    have hdiv := Int.ediv_nonneg hu hpow.le
    have hle := Int.ediv_le_self (10 ^ n) hu
    rw [Int.tdiv_eq_ediv_of_nonneg hu, dropLast_of_nonneg hdiv]
    omega
  rcases le_total 0 v with h | h
  · exact .inl (hnonneg v h)
  · have hneg := hnonneg (-v) (by omega)
    rw [Int.neg_tdiv, dropLast_neg] at hneg
    omega

/-- The source is `v` times a power of ten, and so is the target. -/
def rescaled (v dscScale scale : Int) : ℚ := v * 10 ^ (dscScale - scale)

theorem adjust_spec (hlimits : Limits store limit dtype) (hv : dtype.Holds v) (s t : Int) :
    adjust store limit (t - s) v =
      if dtype.Holds (nearest (rescaled v s t)) then .ok (nearest (rescaled v s t))
      else .error .arithExcept := by
  unfold adjust
  rcases lt_trichotomy (t - s) 0 with hlt | heq | hgt
  · obtain ⟨n, hn⟩ := Int.eq_ofNat_of_zero_le (show 0 ≤ -(t - s) by omega)
    have hst : s - t = (n : Int) := by omega
    have hx : rescaled v s t = ((v * 10 ^ n : Int) : ℚ) := by
      rw [rescaled, hst, zpow_natCast]
      push_cast
      rfl
    rw [if_neg (by omega), if_pos hlt, hn, Int.toNat_natCast, (appendZeros_spec hlimits hv).1, hx,
      nearest_intCast]
  · have hx : rescaled v s t = (v : ℚ) := by
      rw [rescaled, show s - t = 0 by omega, zpow_zero, mul_one]
    rw [if_neg (by omega), if_neg (by omega), hx, nearest_intCast, if_pos hv]
  · obtain ⟨n, hn⟩ : ∃ n : Nat, t - s = (n + 1 : Nat) := ⟨(t - s).toNat - 1, by omega⟩
    have hx : rescaled v s t = (v : ℚ) / 10 ^ (n + 1) := by
      rw [rescaled, show s - t = -((n + 1 : Nat) : Int) by omega, zpow_neg, zpow_natCast,
        ← div_eq_mul_inv]
    have hfits := holds_dropLast (n := n) hlimits hv
    rw [if_pos hgt, hn, Int.toNat_natCast, dropDigits_succ, hx, ← dropLast_tdiv, if_pos hfits]
    have hstore := hlimits.store_eq _ hfits
    unfold dropLast at hstore ⊢
    dsimp only
    split_ifs at hstore ⊢ with hup hdown
    · rw [hstore]
    · rw [hstore]
    · rfl

end

def Scale (s : Int) : Prop := -2 ^ 7 ≤ s ∧ s < 2 ^ 7

theorem sshort_sub {s t : Int} (hs : Scale s) (ht : Scale t) : sshort (t - s) = t - s := by
  simp only [Scale] at hs ht
  simp only [sshort]
  omega

/-- What `CVT_get_long` multiplies on the way. -/
def longProducts (dtype : ExactDtype) (value dscScale scale : Int) : List Int :=
  match dtype with
  | .int64 => products sint64 int64Limit (dscScale - scale).toNat value
  | _ => products slong longLimit (dscScale - scale).toNat value

def exactly (dtype : ExactDtype) (x : ℚ) : Except Error Int :=
  if dtype.Holds (nearest x) then .ok (nearest x) else .error .arithExcept

theorem range_check (v : Int) :
    (if v > maxSlong ∨ v < minSlong then Except.error Error.arithExcept else .ok (slong v)) =
      if ExactDtype.long.Holds v then .ok v else .error .arithExcept := by
  by_cases h : ExactDtype.long.Holds v
  · have hstore := limits_long.store_eq v h
    have hrange := h
    simp only [ExactDtype.Holds] at hrange
    rw [if_neg (by omega), if_pos h, hstore]
  · rw [if_neg h]
    simp only [ExactDtype.Holds] at h
    exact if_pos (by omega)

/-- Both functions round half away from zero, raise an exception if and only if the result does not
fit, and multiply nothing that does not fit. -/
theorem rescaling_exact (dtype : ExactDtype) (v s t : Int) (hv : dtype.Holds v) (hs : Scale s)
    (ht : Scale t) :
    getLong dtype v s t = exactly .long (rescaled v s t) ∧
      getInt64 v s t = exactly .int64 (rescaled v s t) ∧
      (∀ p ∈ longProducts dtype v s t,
        (if dtype = .int64 then sint64 p else slong p) = p) ∧
      ∀ p ∈ products sint64 int64Limit (s - t).toNat v, sint64 p = p := by
  have hscale := sshort_sub hs ht
  have hv64 := hv.int64
  have h64 := adjust_spec limits_int64 hv64 s t
  have hproducts : ∀ p ∈ products sint64 int64Limit (s - t).toNat v, sint64 p = p :=
    (appendZeros_spec limits_int64 hv64).2
  have hlong : ∀ hv : ExactDtype.long.Holds v,
      adjust slong longLimit (sshort (t - s)) v = exactly .long (rescaled v s t) ∧
        ∀ p ∈ products slong longLimit (s - t).toNat v, slong p = p := fun hv => by
    rw [hscale]
    exact ⟨adjust_spec limits_long hv s t, (appendZeros_spec limits_long hv).2⟩
  refine ⟨?_, ?_, ?_, hproducts⟩
  · cases dtype with
    | short =>
      refine (hlong ?_).1
      simp only [ExactDtype.Holds, minSlong, maxSlong] at hv ⊢
      omega
    | long => exact (hlong hv).1
    | int64 =>
      simp only [getLong, hscale, h64]
      by_cases hfits : ExactDtype.int64.Holds (nearest (rescaled v s t))
      · rw [if_pos hfits]
        exact range_check _
      · have hnot : ¬ExactDtype.long.Holds (nearest (rescaled v s t)) := fun h => hfits h.int64
        rw [if_neg hfits, exactly, if_neg hnot]
        rfl
  · rw [getInt64, hscale, h64, exactly]
  · cases dtype with
    | short =>
      refine (hlong ?_).2
      simp only [ExactDtype.Holds, minSlong, maxSlong] at hv ⊢
      omega
    | long => exact (hlong hv).2
    | int64 => exact hproducts

/-- 0.5 as a whole number. -/
theorem rescaling_exact_half :
    getLong .short 5 (-1) 0 = exactly .long (rescaled 5 (-1) 0) ∧
      getInt64 5 (-1) 0 = exactly .int64 (rescaled 5 (-1) 0) := by
  obtain ⟨hlong, hint64, -⟩ :=
    rescaling_exact .short 5 (-1) 0 (by decide) ⟨by decide, by decide⟩ ⟨by decide, by decide⟩
  exact ⟨hlong, hint64⟩

end Firebird.Jrd.Cvt
