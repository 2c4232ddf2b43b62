import Firebird.Common.Timestamp

/-!
# The range of dates

`isRangeValid` decodes first and looks at the year afterwards. Below the first of January of the
year 1 every number of days decodes into the year 0 or an earlier one, but `4 * nday - 1` wraps
around, so that a number of days passes if it is one of the range modulo `2 ^ 30`.
-/
namespace Firebird.Common.TimeStamp

open Lib Calendar

/-- The number of days of a date from 0001-01-01 to 9999-12-31. -/
def InRange (n : Int) : Prop := ∃ date : Date, date.year ≤ 9999 ∧ encodeDate (tmOf date) = n

theorem inRange_iff {n : Int} : InRange n ↔ -678575 ≤ n ∧ n ≤ 2973483 := by
  constructor
  · rintro ⟨date, hle, rfl⟩
    have hord := ordinal_le hle
    rw [encodeDate_eq (shows_tmOf date) hle]
    omega
  · rintro ⟨hlo, hhi⟩
    obtain ⟨date, hdate⟩ := exists_date (n + 678575).toNat
    have hle : date.year ≤ 9999 := year_le (by omega)
    refine ⟨date, hle, ?_⟩
    rw [encodeDate_eq (shows_tmOf date) hle]
    omega

theorem tdiv_le {x k q : Int} (hk : 0 < k) (hq : 0 ≤ q) (hx : x < k * (q + 1)) : x.tdiv k ≤ q := by
  rcases lt_or_ge x 0 with hneg | hpos
  · have hle := Int.tdiv_le_tdiv hk hneg.le
    rw [Int.zero_tdiv] at hle
    exact hle.trans hq
  · rw [Int.tdiv_eq_ediv_of_nonneg hpos]
    exact Int.lt_add_one_iff.mp (Int.ediv_lt_of_lt_mul hk (by rwa [mul_comm]))

theorem sub_tdiv_le {x k : Int} (hk : 0 < k) {b : Int} (hx : x ≤ b) (hb : 0 ≤ b) :
    x - k * x.tdiv k ≤ b := by
  have hmod := Int.mul_tdiv_add_tmod x k
  rcases lt_or_ge x 0 with hneg | hpos
  · have := Int.tmod_nonneg k (Int.neg_nonneg_of_nonpos hneg.le)
    rw [Int.neg_tmod] at this
    omega
  · have := Int.mul_nonneg hk.le (Int.tdiv_nonneg hpos hk.le)
    omega

theorem year_dateOf_of_neg {v : Int} (h : v < 0) : (dateOf v).1 ≤ 0 := by
  have hcentury := @tdiv_le v 146097 0 (by decide) le_rfl (by omega)
  have hn := @sub_tdiv_le v 146097 (by decide) 0 (by omega) le_rfl
  generalize hc : v.tdiv 146097 = century at hcentury hn
  have hcday := @tdiv_le (v - 146097 * century) 4 0 (by decide) le_rfl (by omega)
  generalize hd : (v - 146097 * century).tdiv 4 = day at hcday
  have hyear := @tdiv_le (4 * day + 3) 1461 0 (by decide) le_rfl (by omega)
  have hd' := @sub_tdiv_le (4 * day + 3) 1461 (by decide) 3 (by omega) (by decide)
  generalize hy : (4 * day + 3).tdiv 1461 = year at hyear hd'
  have hyday := @tdiv_le (4 * day + 3 - 1461 * year + 4) 4 1 (by decide) (by decide) (by omega)
  generalize hyd : (4 * day + 3 - 1461 * year + 4).tdiv 4 = yday at hyday
  have hmonth := @tdiv_le (5 * yday - 3) 153 0 (by decide) le_rfl (by omega)
  simp only [dateOf, hc, hd, hy, hyd]
  rw [if_pos (by omega)]
  omega

theorem year_dateOf_iff {k : Int} :
    (1 ≤ (dateOf (4 * k - 1)).1 ∧ (dateOf (4 * k - 1)).1 ≤ 9999) ↔ InRange (k - 678882) := by
  rw [inRange_iff]
  rcases lt_or_ge k 1 with hneg | hpos
  · have hyear := @year_dateOf_of_neg (4 * k - 1) (by omega)
    omega
  rcases lt_or_ge k 307 with hearly | hlate
  · obtain ⟨c, ya, m, d, hmarch, hdays⟩ := exists_march hpos
    have hyear : 100 * c + ya = 0 ∧ m < 10 := by
      obtain ⟨hc, hya, hm, hd, -⟩ := hmarch
      rw [marchDays] at hdays
      omega
    rw [hdays, dateOf_march hmarch, if_pos hyear.2]
    omega
  · obtain ⟨date, hdate⟩ := exists_date (k - 307).toNat
    have hk : k = date.ordinal + 307 := by omega
    have hyear := date.year_pos
    rw [hk, dateOf_eq]
    constructor
    · intro h
      have hord := @ordinal_le date (by omega)
      omega
    · intro h
      have hle := @year_le date (by omega)
      omega

theorem exists_slong (n : Int) :
    ∃ j : Int, slong n = n + j * 2 ^ 32 ∧ -2 ^ 31 ≤ slong n ∧ slong n < 2 ^ 31 := by
  refine ⟨-((n + 2 ^ 31) / 2 ^ 32), ?_⟩
  unfold slong Int.bmod
  dsimp only
  omega

theorem exists_wrapped (d : Int) :
    ∃ k m : Int, slong (slong (4 * slong (d + (2400001 - 1721119))) - 1) = 4 * m - 1 ∧
      m = d + 678882 + k * 2 ^ 30 ∧ -2 ^ 29 < m ∧ m ≤ 2 ^ 29 := by
  obtain ⟨i, hi, -⟩ := exists_slong (d + (2400001 - 1721119))
  generalize slong (d + (2400001 - 1721119)) = n at hi ⊢
  obtain ⟨j, hj, -⟩ := exists_slong (4 * n)
  generalize slong (4 * n) = p at hj ⊢
  obtain ⟨k, hk, hlo, hhi⟩ := exists_slong (p - 1)
  generalize slong (p - 1) = q at hk hlo hhi ⊢
  refine ⟨4 * i + j + k, _, ?_, rfl, ?_, ?_⟩ <;> omega

theorem isRangeValid_iff {d : Int} :
    isRangeValid d = true ↔ ∃ k : Int, InRange (d + k * 2 ^ 30) := by
  have hzero : InRange 0 := inRange_iff.mpr (by omega)
  by_cases hd : d = 0
  · subst hd
    exact ⟨fun _ => ⟨0, hzero⟩, fun _ => rfl⟩
  obtain ⟨k, m, hv, hm, hlo, hhi⟩ := exists_wrapped d
  have hyear : (decodeDate d).year = (dateOf (4 * m - 1)).1 - 1900 := by
    rcases hdate : dateOf (4 * m - 1) with ⟨year, month, day⟩
    rw [decodeDate_of rfl rfl hv hdate]
  have hvalid : isRangeValid d = true ↔ InRange (m - 678882) := by
    rw [← year_dateOf_iff, isRangeValid, if_neg hd]
    simp only [hyear, minYear, maxYear, decide_eq_true_eq]
    omega
  rw [hvalid]
  constructor
  · intro h
    exact ⟨k, by rwa [hm, show d + 678882 + k * 2 ^ 30 - 678882 = d + k * 2 ^ 30 by omega] at h⟩
  · rintro ⟨j, hj⟩
    rw [inRange_iff] at hj ⊢
    omega

/-- The check is right about a number of days unless adding a multiple of `2 ^ 30` to it brings it
into the range. -/
theorem isRangeValid_right (d : Int) :
    (isRangeValid d = true ↔ InRange d) ↔
      ∀ k : Int, k ≠ 0 → ¬(-678575 ≤ d + k * 2 ^ 30 ∧ d + k * 2 ^ 30 ≤ 2973483) := by
  rw [isRangeValid_iff]
  constructor
  · intro h k hk hin
    have hd := h.mp ⟨k, inRange_iff.mpr hin⟩
    rw [inRange_iff] at hd
    omega
  · intro h
    constructor
    · rintro ⟨k, hk⟩
      by_cases hz : k = 0
      · simpa [hz] using hk
      · exact absurd (inRange_iff.mp hk) (h k hz)
    · exact fun hd => ⟨0, by simpa using hd⟩

/-- The first of January of the year 1, moved by `2 ^ 30` days. -/
theorem isRangeValid_wraps : isRangeValid 1073063249 = true ∧ ¬InRange 1073063249 :=
  ⟨by decide +kernel, fun h => absurd (inRange_iff.mp h) (by decide)⟩

end Firebird.Common.TimeStamp
