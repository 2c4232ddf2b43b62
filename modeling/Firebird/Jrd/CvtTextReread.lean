import Firebird.Jrd.CvtTextExact

/-!
# Formatted integers and `decompose`

`decompose` reads a literal without an exponent digit by digit, and it accepts it if its digits
fit. It gives back what has been formatted, but for the least number with zeros behind it.
-/
namespace Firebird.Jrd.Cvt

open Lib Lib.Decimal List
open Literal (leadingDigits number_leadingDigits ofScaled)

section Reading

variable {string tail : List UInt8} {dtype : Dtype} {limit : Int} {s s' : Scan} {ds : List (Fin 10)}

theorem mantissa_map_digitByte (h : Pushes (limitBy10 dtype) s ds s') (tail : List UInt8) :
    mantissa string dtype (ds.map digitByte ++ tail) s = mantissa string dtype tail s' := by
  generalize hlimit : limitBy10 dtype = limit at h
  induction h with
  | nil s => rfl
  | @cons s s' d ds hok _ ih =>
    rw [map_cons, cons_append, mantissa, if_pos (digit_digitByte d), hlimit, if_neg (by simp [hok]),
      ih]

theorem pushes_or_overflows (dtype : Dtype) (s : Scan) (ds : List (Fin 10)) :
    (∃ s', Pushes (limitBy10 dtype) s ds s') ∨
      ∀ string tail, mantissa string dtype (ds.map digitByte ++ tail) s = .error .arithExcept := by
  induction ds generalizing s with
  | nil => exact .inl ⟨s, .nil s⟩
  | cons d ds ih =>
    cases hok : s.overflows (limitBy10 dtype) (digitByte d) with
    | true =>
      refine .inr fun string tail => ?_
      rw [map_cons, cons_append, mantissa, if_pos (digit_digitByte d), if_pos hok]
    | false =>
      obtain ⟨s', hpush⟩ | hover := ih (s.push (digitByte d))
      · exact .inl ⟨s', .cons hok hpush⟩
      · refine .inr fun string tail => ?_
        rw [map_cons, cons_append, mantissa, if_pos (digit_digitByte d), if_neg (by simp [hok]),
          hover]

theorem mantissa_point (hf : s.fraction = false) (cs : List UInt8) :
    mantissa string dtype (point :: cs) s = mantissa string dtype cs
      { s with fraction := true } := by
  rw [mantissa, if_neg (by decide), if_pos rfl, if_neg (by simp [hf])]

theorem mantissa_sign (sign : Sign) (cs : List UInt8) :
    mantissa string dtype (sign.text ++ cs) .start =
      mantissa string dtype cs { Scan.start with sign := signValue sign } := by
  cases sign <;> rfl

theorem mantissa_blanks (b : Nat) : mantissa string dtype (blanks b) s = .ok (s, []) := by
  cases b with
  | zero => rfl
  | succ b =>
    have hskip : skipSpaces string (replicate b blank) = .ok () := by
      unfold skipSpaces
      rw [if_pos (by simp)]
    rw [blanks, replicate_succ, mantissa, if_neg (by decide), if_neg (by decide),
      if_neg fun h => absurd h.1 (by decide), if_neg fun h => absurd h.1 (by decide),
      if_neg (by decide), if_pos rfl, hskip]
    rfl

theorem mantissa_pushesAll {sign : Sign} {whole : List (Fin 10)} {fraction : Option (List (Fin 10))}
    (h : PushesAll (limitBy10 dtype) { Scan.start with sign := signValue sign } whole fraction s)
    (b : Nat) :
    mantissa string dtype
      (sign.text ++ whole.map digitByte ++ Literal.fractionText fraction ++ blanks b) .start =
        .ok (s, []) := by
  obtain ⟨s₁, hwhole, hfraction⟩ := h
  simp only [append_assoc, mantissa_sign]
  rw [mantissa_map_digitByte hwhole]
  cases fraction with
  | none =>
    obtain rfl : s = s₁ := hfraction
    exact mantissa_blanks b
  | some ds =>
    change mantissa _ _ (point :: (ds.map digitByte ++ blanks b)) _ = _
    rw [mantissa_point hwhole.frame.2.1, mantissa_map_digitByte hfraction]
    exact mantissa_blanks b

theorem pushesAll_or_overflows (dtype : Dtype) (sign : Sign) (whole : List (Fin 10))
    (fraction : Option (List (Fin 10))) :
    (∃ s, PushesAll (limitBy10 dtype) { Scan.start with sign := signValue sign } whole fraction s) ∨
      ∀ string b, mantissa string dtype
        (sign.text ++ whole.map digitByte ++ Literal.fractionText fraction ++ blanks b) .start =
          .error .arithExcept := by
  simp only [append_assoc, mantissa_sign]
  obtain ⟨s₁, hwhole⟩ | hover :=
    pushes_or_overflows dtype { Scan.start with sign := signValue sign } whole
  · cases fraction with
    | none => exact .inl ⟨s₁, s₁, hwhole, rfl⟩
    | some ds =>
      obtain ⟨s₂, hfraction⟩ | hover := pushes_or_overflows dtype { s₁ with fraction := true } ds
      · exact .inl ⟨s₂, s₁, hwhole, hfraction⟩
      · refine .inr fun string b => ?_
        rw [mantissa_map_digitByte hwhole]
        change mantissa _ _ (point :: _) _ = _
        rw [mantissa_point hwhole.frame.2.1]
        exact hover _ _
  · exact .inr fun string b => hover _ _

end Reading

section Decompose

variable {lit : Literal} {dtype : Dtype}

theorem dropWhile_text (hexp : lit.exponent = none) (cs : List UInt8) :
    (lit.text ++ cs).dropWhile (· = blank) = lit.text ++ cs := by
  obtain ⟨sign, whole, fraction, exponent, hne⟩ := lit
  have hcons : ∀ c text, c ≠ blank → (c :: text ++ cs).dropWhile (· = blank) = c :: text ++ cs :=
    fun c text hc => dropWhile_cons_of_neg (by simpa using hc)
  cases sign with
  | plus => exact hcons _ _ (by decide)
  | minus => exact hcons _ _ (by decide)
  | none =>
    cases whole with
    | cons d whole => exact hcons _ _ (digitByte_ne_blank d)
    | nil =>
      cases fraction with
      | some ds => exact hcons _ _ (by decide)
      | none => exact absurd rfl hne

theorem text_eq (hexp : lit.exponent = none) :
    lit.text = lit.sign.text ++ lit.whole.map digitByte ++ Literal.fractionText lit.fraction := by
  rw [Literal.text, hexp, Literal.exponentText, append_nil]

theorem decompose_pushesAll {s : Scan} (hexp : lit.exponent = none) (hdtype : dtype ≠ .quad)
    (hpush : PushesAll (limitBy10 dtype) { Scan.start with sign := signValue lit.sign } lit.whole
      lit.fraction s) (b : Nat) :
    decompose (lit.text ++ blanks b) dtype = .ok (signedValue dtype s, sshort lit.scale) := by
  have hmantissa := @mantissa_pushesAll (lit.text ++ blanks b) dtype s _ _ _ hpush b
  obtain ⟨-, hseen, hscale, htracks⟩ := hpush.spec
  obtain ⟨hlo, hhi⟩ := htracks.range
  have hdigits : s.digitSeen = true := by
    rw [hseen]
    simpa using lit.digits_ne_nil
  rw [← text_eq hexp] at hmantissa
  unfold decompose
  rw [if_neg hdtype, dropWhile_text hexp, hmantissa]
  simp only [bind, Except.bind, hdigits, applyExponent, pure, Except.pure, hscale, returnValue_eq
    hlo hhi]
  simp [Literal.scale, Literal.exponentValue, hexp, Literal.fractionDigits]

theorem decompose_eq_ok (hexp : lit.exponent = none) (hdtype : dtype ≠ .quad) {b : Nat} {m s : Int}
    (h : decompose (lit.text ++ blanks b) dtype = .ok (m, s)) :
    ∃ s₁, PushesAll (limitBy10 dtype) { Scan.start with sign := signValue lit.sign } lit.whole
      lit.fraction s₁ ∧ m = signedValue dtype s₁ ∧ s = sshort lit.scale := by
  obtain ⟨s₁, hpush⟩ | hover := pushesAll_or_overflows dtype lit.sign lit.whole lit.fraction
  · rw [decompose_pushesAll hexp hdtype hpush, Except.ok.injEq, Prod.mk.injEq] at h
    exact ⟨s₁, hpush, h.1.symm, h.2.symm⟩
  · have hmantissa := hover (lit.text ++ blanks b) b
    rw [← text_eq hexp] at hmantissa
    unfold decompose at h
    rw [if_neg hdtype, dropWhile_text hexp, hmantissa] at h
    cases h

end Decompose

theorem number_le_append (as bs : List (Fin 10)) : number as ≤ number (as ++ bs) := by
  rw [number_append]
  exact (Nat.le_mul_of_pos_right _ (Nat.pow_pos (by decide))).trans (Nat.le_add_right _ _)

section Accepted

variable {s s' : Scan} {ds : List (Fin 10)} {lit : Literal} {n scale : Int}

theorem pushes_of_le {pre : List (Fin 10)} (h : Tracks .int64 s.sign (number pre) s.value)
    (hle : (number (pre ++ ds) : Int) ≤ if s.sign = -1 then 2 ^ 63 else maxSint64) :
    ∃ s', Pushes (limitBy10 .int64) s ds s' := by
  induction ds generalizing s pre with
  | nil => exact ⟨s, .nil s⟩
  | cons d ds ih =>
    have hassoc : pre ++ d :: ds = pre ++ [d] ++ ds := by simp
    have hnext : (number (pre ++ [d]) : Int) ≤ if s.sign = -1 then 2 ^ 63 else maxSint64 :=
      (Int.ofNat_le.2 (hassoc ▸ number_le_append (pre ++ [d]) ds)).trans hle
    have hok : s.overflows (limitBy10 .int64) (digitByte d) = false := by
      rw [number_concat] at hnext
      rw [overflows_digitByte]
      simp only [Tracks, upperLimit, limitBy10, maxSint64] at h hnext ⊢
      split_ifs at hnext <;> omega
    obtain ⟨s', hpush⟩ := @ih (s.push (digitByte d)) (pre ++ [d])
      (by rw [number_concat]; exact h.push hok) (by rw [← hassoc]; exact hle)
    exact ⟨s', .cons hok hpush⟩

theorem pushesAll_of_fits (hfits : FitsSint64 lit) :
    ∃ s, PushesAll (limitBy10 .int64) { Scan.start with sign := signValue lit.sign } lit.whole
      lit.fraction s := by
  have hle : (number (lit.whole ++ lit.fractionDigits) : Int) ≤
      if signValue lit.sign = -1 then 2 ^ 63 else maxSint64 := by
    unfold FitsSint64 Literal.mantissa minSint64 at hfits
    revert hfits
    cases lit.sign <;> simp [Sign.factor, signValue]
    omega
  have hstart : Tracks .int64 (signValue lit.sign) (number []) 0 := .inl ⟨rfl, by decide⟩
  obtain ⟨s₁, hwhole⟩ := @pushes_of_le { Scan.start with sign := signValue lit.sign } lit.whole []
    hstart
    ((Int.ofNat_le.2 (number_le_append lit.whole lit.fractionDigits)).trans hle)
  have htracks := @Pushes.tracks _ _ _ [] _ hwhole hstart
  have hsign := hwhole.frame.1
  cases hfraction : lit.fraction with
  | none => exact ⟨s₁, s₁, hwhole, rfl⟩
  | some ds =>
    rw [Literal.fractionDigits, hfraction] at hle
    obtain ⟨s₂, hpush⟩ := @pushes_of_le { s₁ with fraction := true } ds lit.whole htracks
      (by rw [hsign]; exact hle)
    exact ⟨s₂, s₁, hwhole, hpush⟩

theorem Pushes.split {limit : Int} {as : List (Fin 10)} (h : Pushes limit s (as ++ ds) s') :
    ∃ s₁, Pushes limit s as s₁ ∧ Pushes limit s₁ ds s' := by
  induction as generalizing s with
  | nil => exact ⟨s, .nil s, h⟩
  | cons a as ih =>
    cases h with
    | cons hok hpush =>
      obtain ⟨s₁, has, hds⟩ := ih hpush
      exact ⟨s₁, .cons hok has, hds⟩

theorem Scan.push_zero (s : Scan) : (s.push (digitByte 0)).value = sint64 (s.value * 10) := by
  simp [Scan.push, digitValue_digitByte]

theorem Pushes.zeros {k : Nat} (h : Pushes (limitBy10 .int64) s (replicate k 0) s')
    (hnonneg : 0 ≤ s.value) (hle : s.value ≤ maxSint64) :
    s'.value = s.value * 10 ^ k ∧ s'.value ≤ maxSint64 := by
  induction k generalizing s with
  | zero =>
    cases h
    exact ⟨by simp, hle⟩
  | succ k ih =>
    cases h with
    | cons hok hpush =>
      have hnext : (s.push (digitByte 0)).value = s.value * 10 ∧ s.value * 10 ≤ maxSint64 := by
        rw [overflows_digitByte] at hok
        rw [Scan.push_zero]
        simp only [limitBy10, upperLimit, maxSint64, sint64] at hok ⊢
        omega
      obtain ⟨hvalue, hmax⟩ := ih hpush (by rw [hnext.1]; omega) (by rw [hnext.1]; exact hnext.2)
      refine ⟨?_, hmax⟩
      rw [hvalue, hnext.1, pow_succ']
      ring

theorem Pushes.zeros_least {k : Nat} (h : Pushes (limitBy10 .int64) s (replicate (k + 1) 0) s')
    (hleast : s.value = minSint64) : s'.value = 0 := by
  cases h with
  | cons hok hpush =>
    have hzero : (s.push (digitByte 0)).value = 0 := by
      rw [Scan.push_zero, hleast]
      decide
    have := hpush.zeros hzero.ge (by rw [hzero]; decide)
    rw [this.1, hzero, Int.zero_mul]

theorem Pushes.append {limit : Int} {s₁ : Scan} {as : List (Fin 10)} (h : Pushes limit s as s₁)
    (h' : Pushes limit s₁ ds s') : Pushes limit s (as ++ ds) s' := by
  induction h with
  | nil => exact h'
  | cons hok _ ih => exact .cons hok (ih h')

theorem exists_pushes_zero (hzero : s.value = 0) (k : Nat) :
    ∃ s', Pushes (limitBy10 .int64) s (replicate k 0) s' := by
  induction k generalizing s with
  | zero => exact ⟨s, .nil s⟩
  | succ k ih =>
    obtain ⟨s', hpush⟩ := @ih (s.push (digitByte 0)) (by rw [Scan.push_zero, hzero]; rfl)
    exact ⟨s', .cons (by rw [overflows_digitByte, hzero]; exact .inl (by decide)) hpush⟩

theorem exists_pushes_zeros (hleast : s.value = minSint64) (k : Nat) :
    ∃ s', Pushes (limitBy10 .int64) s (replicate (k + 1) 0) s' := by
  obtain ⟨s', hpush⟩ := @exists_pushes_zero (s.push (digitByte 0))
    (by rw [Scan.push_zero, hleast]; decide) k
  exact ⟨s', .cons (by rw [overflows_digitByte, hleast]; exact .inl (by decide)) hpush⟩

theorem ofScaled_pos (hscale : 0 < scale) :
    (ofScaled n scale).whole = leadingDigits n.natAbs 0 ++ replicate scale.toNat 0 ∧
      (ofScaled n scale).fraction = none := by
  unfold ofScaled
  dsimp only
  rw [show (-scale).toNat = 0 by omega, if_neg (by omega)]
  simp

theorem tracks_ofScaled {s₁ : Scan}
    (h : Pushes (limitBy10 .int64) { Scan.start with sign := signValue (ofScaled n scale).sign }
      (leadingDigits n.natAbs 0) s₁) :
    Tracks .int64 (if n < 0 then -1 else 0) n.natAbs s₁.value := by
  have htracks := @Pushes.tracks _ _ _ [] _ h (.inl ⟨rfl, by decide⟩)
  rw [nil_append, number_leadingDigits, h.frame.1] at htracks
  have hsign : signValue (ofScaled n scale).sign = if n < 0 then -1 else 0 := by
    unfold ofScaled
    split_ifs <;> rfl
  rwa [hsign] at htracks

theorem fits_of_pushesAll (h : minSint64 ≤ n) (h' : n ≤ maxSint64)
    (hleast : 0 < scale → n ≠ minSint64)
    (hpush : PushesAll (limitBy10 .int64)
      { Scan.start with sign := signValue (ofScaled n scale).sign } (ofScaled n scale).whole
      (ofScaled n scale).fraction s) : FitsSint64 (ofScaled n scale) := by
  unfold FitsSint64
  rw [Literal.mantissa_ofScaled]
  by_cases hpos : 0 < scale
  · obtain ⟨hwhole, hfraction⟩ := @ofScaled_pos n scale hpos
    rw [hwhole, hfraction] at hpush
    obtain ⟨s₂, hpush, -⟩ := hpush
    obtain ⟨s₁, hdigits, hzeros⟩ := hpush.split
    have htracks := tracks_ofScaled hdigits
    have hvalue : s₁.value = n.natAbs ∧ (n.natAbs : Int) ≤ maxSint64 := by
      simp only [Tracks, maxSint64, minSint64] at *
      omega
    obtain ⟨hexact, hmax⟩ := hzeros.zeros (by omega) (by omega)
    rw [hexact, hvalue.1] at hmax
    have hpow : (0 : Int) ≤ 10 ^ scale.toNat := Int.pow_nonneg (by decide)
    unfold minSint64 maxSint64 at *
    obtain hneg | hnonneg := lt_or_ge n 0
    · have := Int.mul_nonneg (Int.neg_nonneg_of_nonpos hneg.le) hpow
      rw [Int.ofNat_natAbs_of_nonpos hneg.le] at hmax
      rw [Int.neg_mul] at this hmax
      omega
    · have := Int.mul_nonneg hnonneg hpow
      rw [Int.natAbs_of_nonneg hnonneg] at hmax
      omega
  · rw [show scale.toNat = 0 by omega, pow_zero, Int.mul_one]
    exact ⟨h, h'⟩

end Accepted

section ReadsBack

variable {n scale : Int} {dst : Dsc}

theorem fitsSshort_ofScaled (hscale : -128 ≤ scale) : FitsSshort (ofScaled n scale) := by
  unfold FitsSshort
  rw [Literal.scale_ofScaled]
  omega

theorem decompose_ofScaled (h : minSint64 ≤ n) (h' : n ≤ maxSint64) (hscale : -127 ≤ scale)
    (hscale' : scale ≤ 127) (hleast : 0 < scale → n ≠ minSint64) {b : Nat} {m s : Int}
    (hdecompose : decompose ((ofScaled n scale).text ++ blanks b) .int64 = .ok (m, s)) :
    (m : ℚ) * 10 ^ s = n * 10 ^ scale := by
  obtain ⟨s₁, hpush, rfl, rfl⟩ := decompose_eq_ok rfl (by decide) hdecompose
  have hlen := length_text_ofScaled_le hscale hscale' h h'
  have hexp : (ofScaled n scale).exponentValue = 0 := rfl
  have hconv := hpush.converts (by rw [hexp]; decide) (by omega)
  rw [← Literal.value_ofScaled n scale, hconv.value_iff]
  exact ⟨fits_of_pushesAll h h' hleast hpush, .inl (fitsSshort_ofScaled (by omega))⟩

theorem decompose_accepts (h : minSint64 ≤ n) (h' : n ≤ maxSint64) (hscale : scale ≤ 0) (b : Nat) :
    ∃ m s, decompose ((ofScaled n scale).text ++ blanks b) .int64 = .ok (m, s) := by
  have hfits : FitsSint64 (ofScaled n scale) := by
    unfold FitsSint64
    rw [Literal.mantissa_ofScaled, show scale.toNat = 0 by omega, pow_zero, Int.mul_one]
    exact ⟨h, h'⟩
  obtain ⟨s₁, hpush⟩ := pushesAll_of_fits hfits
  exact ⟨_, _, decompose_pushesAll rfl (by decide) hpush b⟩

theorem decompose_least (hpos : 0 < scale) (b : Nat) :
    decompose ((ofScaled minSint64 scale).text ++ blanks b) .int64 = .ok (0, 0) := by
  obtain ⟨hwhole, hfraction⟩ := @ofScaled_pos minSint64 scale hpos
  have hstart : Tracks .int64 (-1) (number []) 0 := .inl ⟨rfl, by decide⟩
  obtain ⟨s₁, hdigits⟩ := @pushes_of_le { Scan.start with sign := -1 }
    (leadingDigits minSint64.natAbs 0) [] hstart
      (by rw [nil_append, number_leadingDigits]; decide)
  have htracks := @Pushes.tracks _ _ _ [] _ hdigits hstart
  have hleast : s₁.value = minSint64 := by
    rw [nil_append, number_leadingDigits] at htracks
    simp only [Tracks, upperLimit, maxSint64, minSint64] at htracks ⊢
    omega
  obtain ⟨k, hk⟩ : ∃ k, scale.toNat = k + 1 := ⟨scale.toNat - 1, by omega⟩
  obtain ⟨s₂, hzeros⟩ := exists_pushes_zeros hleast k
  have hpush : PushesAll (limitBy10 .int64)
      { Scan.start with sign := signValue (ofScaled minSint64 scale).sign }
      (ofScaled minSint64 scale).whole (ofScaled minSint64 scale).fraction s₂ := by
    rw [hwhole, hfraction, hk]
    exact ⟨s₂, hdigits.append hzeros, rfl⟩
  rw [decompose_pushesAll rfl (by decide) hpush, Literal.scale_ofScaled, signedValue,
    hzeros.zeros_least hleast, show (-scale).toNat = 0 by omega]
  split_ifs <;> rfl

theorem length_text_least (hpos : 0 < scale) :
    (ofScaled minSint64 scale).text.length = 20 + scale.toNat := by
  have hlo : 18 < (digits minSint64.natAbs).length := by
    by_contra hle
    have hlt := number_lt (digits minSint64.natAbs)
    have hpow := Nat.pow_le_pow_right (by decide : 0 < 10) (Nat.not_lt.1 hle)
    rw [number_digits] at hlt
    exact absurd (hlt.trans_le hpow) (by decide)
  have hhi : (digits minSint64.natAbs).length ≤ 18 + 1 := length_digits_le (by decide)
  rw [length_text_ofScaled rfl, length_map, leadingDigits, length_append,
    length_replicate, if_neg (by decide), if_neg (by omega)]
  omega

/-- The text has the value of the number, it is refused if it does not fit, and `decompose` gives
its value back. -/
structure ReadsBack (n scale : Int) (dst : Dsc) : Prop where
  inside : integerToText n scale dst ≠ .error .outside
  refused : integerToText n scale dst = .error .conversionError ↔
    ¬dst.Fits (ofScaled n scale).text.length
  exact : ∀ bytes, integerToText n scale dst = .ok bytes →
    bytes = dst.stored (ofScaled n scale).text ∧ (ofScaled n scale).value = n * 10 ^ scale
  reread : ∀ bytes, integerToText n scale dst = .ok bytes → ∀ b m s,
    decompose ((ofScaled n scale).text ++ blanks b) .int64 = .ok (m, s) →
      (m : ℚ) * 10 ^ s = n * 10 ^ scale
  accepted : ∀ bytes, integerToText n scale dst = .ok bytes → -18 ≤ scale → scale ≤ 0 → ∀ b,
    ∃ m s, decompose ((ofScaled n scale).text ++ blanks b) .int64 = .ok (m, s)

/-- An integer is formatted and read again but for the least scale, a varying text without a count,
and the least number with zeros behind it. -/
theorem readsBack_iff (dst : Dsc) (h : minSint64 ≤ n) (h' : n ≤ maxSint64) (hscale : -128 ≤ scale)
    (hscale' : scale ≤ 127) :
    ReadsBack n scale dst ↔
      scale ≠ -128 ∧ dst.HasCount ∧ ¬(n = minSint64 ∧ 0 < scale ∧ dst.Fits (20 + scale.toNat)) := by
  constructor
  · intro hreads
    have hne : scale ≠ -128 := by
      rintro rfl
      exact hreads.inside (integerToText_least dst h h')
    have hcount : dst.HasCount := by
      by_contra hcount
      exact hreads.inside (integerToText_outside hcount (by omega) hscale' h h')
    refine ⟨hne, hcount, ?_⟩
    rintro ⟨rfl, hpos, hfits⟩
    rw [← length_text_least hpos] at hfits
    have hstored := integerToText_eq hcount (by omega : -127 ≤ scale) h h'
    rw [if_pos hfits] at hstored
    have := hreads.reread _ hstored 0 0 0 (decompose_least hpos 0)
    rw [Int.cast_zero, zero_mul, eq_comm, mul_eq_zero] at this
    obtain hzero | hzero := this
    · exact absurd hzero (by norm_num [minSint64])
    · exact zpow_ne_zero _ (by norm_num) hzero
  · rintro ⟨hne, hcount, hleast⟩
    have hstored := integerToText_eq hcount (by omega : -127 ≤ scale) h h'
    have hfits : ∀ bytes, integerToText n scale dst = .ok bytes →
        dst.Fits (ofScaled n scale).text.length ∧ bytes = dst.stored (ofScaled n scale).text := by
      intro bytes hok
      rw [hstored] at hok
      split_ifs at hok with hfits
      cases hok
      exact ⟨hfits, rfl⟩
    refine ⟨?_, ?_, ?_, ?_, ?_⟩
    · rw [hstored]
      split_ifs <;> simp
    · rw [hstored]
      split_ifs with hfits <;> simp [hfits]
    · exact fun bytes hok => ⟨(hfits bytes hok).2, Literal.value_ofScaled n scale⟩
    · intro bytes hok b m s
      refine decompose_ofScaled h h' (by omega) hscale' fun hpos hmin => hleast ⟨hmin, hpos, ?_⟩
      rw [← length_text_least hpos, ← hmin]
      exact (hfits bytes hok).1
    · exact fun bytes _ _ hle b => decompose_accepts h h' hle b

/-- `-12.34` in a text of eight characters. -/
theorem readsBack_iff_text :
    ReadsBack (-1234) (-2) ⟨.text, false, replicate 8 0, by decide⟩ ↔
      (-2 : Int) ≠ -128 ∧ Dsc.HasCount ⟨.text, false, replicate 8 0, by decide⟩ ∧
        ¬((-1234 : Int) = minSint64 ∧ (0 : Int) < -2 ∧
          Dsc.Fits ⟨.text, false, replicate 8 0, by decide⟩ (20 + (-2 : Int).toNat)) :=
  readsBack_iff _ (by decide) (by decide) (by decide) (by decide)

/-- The least scale goes over the scratch buffer, and the least number with a zero behind it comes
back as zero. -/
theorem not_readsBack :
    ¬ReadsBack 5 (-128) ⟨.text, false, replicate 200 0, length_replicate.trans_lt (by decide)⟩ ∧
      ¬ReadsBack minSint64 1 ⟨.text, false, replicate 21 0, by decide⟩ := by
  refine ⟨fun hreads => hreads.inside (integerToText_least _ (by decide) (by decide)), ?_⟩
  intro hreads
  have hpos : (0 : Int) < 1 := by decide
  have hstored := @integerToText_eq minSint64 1 ⟨.text, false, replicate 21 0, by decide⟩
    (fun h => by cases h) (by decide) (by decide) (by decide)
  rw [length_text_least hpos, if_pos (by decide)] at hstored
  have := hreads.reread _ hstored 0 0 0 (decompose_least hpos 0)
  norm_num [minSint64] at this

end ReadsBack

end Firebird.Jrd.Cvt
