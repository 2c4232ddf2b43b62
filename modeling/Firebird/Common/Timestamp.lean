import Firebird.Lib.Calendar
import Firebird.Machine
import Mathlib.Tactic.Common

/-!
# Dates

`encode_date` and `decode_date`, which go between dates and numbers of days, and the check of the
range. Both count years from the first of March on, in centuries of 36524 or 36525 days, so that the
day that comes or not is the last one of a year and of a century.
-/
namespace Firebird.Common.TimeStamp

open Lib Calendar

/-- `tm`, as far as it is about the date. -/
structure Tm where
  mday : Int
  mon : Int
  year : Int
  wday : Int
  yday : Int

def minYear : Int := 1

def maxYear : Int := 9999

def yday (times : Tm) : Int :=
  let month := times.mon
  let year := times.year + 1900
  let day := times.mday - 1 + (214 * month + 3).tdiv 7
  if month < 2 then day
  else if year.tmod 4 = 0 ∧ year.tmod 100 ≠ 0 ∨ year.tmod 400 = 0 then day - 1
  else day - 2

/-- The year, the month and the day that `decode_date` finds from `4 * nday - 1`. -/
def dateOf (v : Int) : Int × Int × Int :=
  let century := v.tdiv 146097
  let nday := v - 146097 * century
  let day := nday.tdiv 4
  let nday := (4 * day + 3).tdiv 1461
  let day := 4 * day + 3 - 1461 * nday
  let day := (day + 4).tdiv 4
  let month := (5 * day - 3).tdiv 153
  let day := 5 * day - 3 - 153 * month
  let day := (day + 5).tdiv 5
  let year := 100 * century + nday
  if month < 10 then (year, month + 3, day) else (year + 1, month - 9, day)

/-- `decode_date`. What comes after `4 * nday - 1` is smaller. -/
def decodeDate (nday : Int) : Tm :=
  let wday := (slong (nday + 3)).tmod 7
  let nday := slong (nday + (2400001 - 1721119))
  let (year, month, day) := dateOf (slong (slong (4 * nday) - 1))
  let times : Tm := ⟨day, month - 1, year - 1900, if wday < 0 then wday + 7 else wday, 0⟩
  { times with yday := yday times }

theorem decodeDate_of {nday w k v y m d : Int} (hw : slong (nday + 3) = w)
    (hk : slong (nday + (2400001 - 1721119)) = k) (hv : slong (slong (4 * k) - 1) = v)
    (hd : dateOf v = (y, m, d)) :
    decodeDate nday =
      ⟨d, m - 1, y - 1900, if w.tmod 7 < 0 then w.tmod 7 + 7 else w.tmod 7,
        yday ⟨d, m - 1, y - 1900, if w.tmod 7 < 0 then w.tmod 7 + 7 else w.tmod 7, 0⟩⟩ := by
  subst hw hk hv
  unfold decodeDate
  dsimp only
  rw [hd]

def encodeDate (times : Tm) : Int :=
  let day := times.mday
  let month := times.mon + 1
  let year := times.year + 1900
  let (month, year) := if month > 2 then (month - 3, year) else (month + 9, year - 1)
  let c := year.tdiv 100
  let ya := year - 100 * c
  slong ((146097 * c).tdiv 4 + (1461 * ya).tdiv 4 + (153 * month + 2).tdiv 5 + day + 1721119 -
    2400001)

/-- `isRangeValid` for `timestamp_date` -/
def isRangeValid (date : Int) : Bool :=
  if date = 0 then true
  else
    let times := decodeDate date
    minYear ≤ times.year + 1900 ∧ times.year + 1900 ≤ maxYear

/-- A day by its century, year, month and day, in years that begin in March. -/
structure March (c ya m d : Int) : Prop where
  century : 0 ≤ c
  year : 0 ≤ ya ∧ ya ≤ 99
  month : 0 ≤ m ∧ m ≤ 11
  day : 1 ≤ d ∧ d ≤ 31
  short : m = 1 ∨ m = 3 ∨ m = 6 ∨ m = 8 → d ≤ 30
  february : m = 11 → d ≤ 28 ∨ d = 29 ∧ ya % 4 = 3 ∧ (ya ≠ 99 ∨ c % 4 = 3)

def marchDays (c ya m d : Int) : Int :=
  146097 * c / 4 + 1461 * ya / 4 + (153 * m + 2) / 5 + d

variable {c ya m d n : Int}

theorem March.yearDay (h : March c ya m d) :
    1 ≤ (153 * m + 2) / 5 + d ∧ (153 * m + 2) / 5 + d ≤ 366 ∧
      ((153 * m + 2) / 5 + d = 366 → ya % 4 = 3 ∧ (ya ≠ 99 ∨ c % 4 = 3)) ∧
      (5 * ((153 * m + 2) / 5 + d) - 3) / 153 = m ∧
      (5 * ((153 * m + 2) / 5 + d) - 3 - 153 * m + 5) / 5 = d := by
  obtain ⟨-, -, ⟨hlo, hhi⟩, hday, hshort, hfeb⟩ := h
  interval_cases m <;> simp at hshort hfeb <;> omega

theorem dateOf_march (h : March c ya m d) :
    dateOf (4 * marchDays c ya m d - 1) =
      if m < 10 then (100 * c + ya, m + 3, d) else (100 * c + ya + 1, m - 9, d) := by
  obtain ⟨hlo, hhi, hlast, hmonth, hday⟩ := h.yearDay
  obtain ⟨hc, hya, -⟩ := h
  generalize hy : (153 * m + 2) / 5 + d = y at *
  have hdays : marchDays c ya m d = 146097 * c / 4 + 1461 * ya / 4 + y := by
    rw [marchDays]
    omega
  generalize hv : 4 * marchDays c ya m d - 1 = v
  have hv0 : 0 ≤ v := by omega
  -- the day of the century
  have hcentury : v / 146097 = c := by omega
  have hcday : (v - 146097 * c) / 4 = 1461 * ya / 4 + y - 1 := by omega
  have hyear : (4 * (1461 * ya / 4 + y - 1) + 3) / 1461 = ya := by omega
  have hyday : (4 * (1461 * ya / 4 + y - 1) + 3 - 1461 * ya + 4) / 4 = y := by omega
  simp only [dateOf]
  rw [Int.tdiv_eq_ediv_of_nonneg hv0, hcentury,
    Int.tdiv_eq_ediv_of_nonneg (by omega : 0 ≤ v - 146097 * c), hcday,
    Int.tdiv_eq_ediv_of_nonneg (by omega : 0 ≤ 4 * (1461 * ya / 4 + y - 1) + 3), hyear,
    Int.tdiv_eq_ediv_of_nonneg (by omega : 0 ≤ 4 * (1461 * ya / 4 + y - 1) + 3 - 1461 * ya + 4),
    hyday, Int.tdiv_eq_ediv_of_nonneg (by omega : 0 ≤ 5 * y - 3), hmonth,
    Int.tdiv_eq_ediv_of_nonneg (by omega : 0 ≤ 5 * y - 3 - 153 * m + 5), hday]

theorem exists_century (hn : 1 ≤ n) : ∃ c D, 0 ≤ c ∧ n = 146097 * c / 4 + D ∧ 1 ≤ D ∧ D ≤ 36525 ∧
    (D = 36525 → c % 4 = 3) := by
  refine ⟨(4 * n - 1) / 146097, (4 * n - 1) % 146097 / 4 + 1, ?_⟩
  grind

theorem exists_year {D : Int} (hpos : 1 ≤ D) (hle : D ≤ 36525) : ∃ ya y, 0 ≤ ya ∧ ya ≤ 99 ∧
    D = 1461 * ya / 4 + y ∧ 1 ≤ y ∧ y ≤ 366 ∧
    (y = 366 → ya % 4 = 3 ∧ (ya ≠ 99 ∨ D = 36525)) := by
  refine ⟨(4 * D - 1) / 1461, (4 * D - 1) % 1461 / 4 + 1, ?_⟩
  grind

theorem exists_month {y : Int} (hpos : 1 ≤ y) (hle : y ≤ 366) : ∃ m d, 0 ≤ m ∧ m ≤ 11 ∧
    y = (153 * m + 2) / 5 + d ∧ 1 ≤ d ∧ d ≤ 31 ∧ (m = 1 ∨ m = 3 ∨ m = 6 ∨ m = 8 → d ≤ 30) ∧
    (m = 11 → d ≤ 28 ∨ d = 29 ∧ y = 366) := by
  refine ⟨(5 * y - 3) / 153, (5 * y - 3) % 153 / 5 + 1, ?_⟩
  omega

theorem exists_march (hn : 1 ≤ n) : ∃ c ya m d, March c ya m d ∧ n = marchDays c ya m d := by
  obtain ⟨c, D, hc, hD, hDpos, hDle, hDlast⟩ := exists_century hn
  obtain ⟨ya, y, hya, hya', hy, hypos, hyle, hylast⟩ := exists_year hDpos hDle
  obtain ⟨m, d, hm, hm', hd, hdpos, hdle, hshort, hfeb⟩ := exists_month hypos hyle
  refine ⟨c, ya, m, d, ⟨hc, ⟨hya, hya'⟩, ⟨hm, hm'⟩, ⟨hdpos, hdle⟩, hshort, fun h => ?_⟩, ?_⟩
  · rcases hfeb h with hshorter | ⟨hday, hyear⟩
    · exact .inl hshorter
    · obtain ⟨hleap, hcentury⟩ := hylast hyear
      exact .inr ⟨hday, hleap, hcentury.imp_right hDlast⟩
  · rw [marchDays, hD, hy, hd]
    omega

variable {times : Tm}

theorem encodeDate_march (h : March c ya m d) (hday : times.mday = d)
    (hmon : times.mon = if m < 10 then m + 2 else m - 10)
    (hyear : times.year = if m < 10 then 100 * c + ya - 1900 else 100 * c + ya + 1 - 1900) :
    encodeDate times = slong (marchDays c ya m d - 678882) := by
  obtain ⟨hc, hya, hm, hd, -⟩ := h
  have hparts : (if times.mon + 1 > 2 then (times.mon + 1 - 3, times.year + 1900)
      else (times.mon + 1 + 9, times.year + 1900 - 1)) = (m, 100 * c + ya) := by
    rw [hmon, hyear]
    split_ifs <;> simp only [Prod.mk.injEq] <;> omega
  have hcentury : (100 * c + ya) / 100 = c := by omega
  have hrest : 100 * c + ya - 100 * c = ya := by omega
  simp only [encodeDate, hparts]
  rw [Int.tdiv_eq_ediv_of_nonneg (by omega : 0 ≤ 100 * c + ya), hcentury, hrest,
    Int.tdiv_eq_ediv_of_nonneg (by omega : 0 ≤ 146097 * c),
    Int.tdiv_eq_ediv_of_nonneg (by omega : 0 ≤ 1461 * ya),
    Int.tdiv_eq_ediv_of_nonneg (by omega : 0 ≤ 153 * m + 2), marchDays]
  congr 1
  omega

structure Shows (times : Tm) (date : Date) : Prop where
  mday : times.mday = date.day
  mon : times.mon = date.month - 1
  year : times.year = date.year - 1900

/-- The place of a date in the years that begin in March. -/
structure Placed (date : Date) (c ya m : Int) : Prop where
  march : March c ya m date.day
  days : marchDays c ya m date.day = date.ordinal + 307
  month : (date.month : Int) = if m < 10 then m + 3 else m - 9
  year : (date.year : Int) = if m < 10 then 100 * c + ya else 100 * c + ya + 1

theorem monthLength_le (year month : Nat) : monthLength year month ≤ 31 ∧
    (month = 4 ∨ month = 6 ∨ month = 9 ∨ month = 11 → monthLength year month = 30) ∧
    (month = 2 → monthLength year month = 28 ∨ monthLength year month = 29 ∧ IsLeap year) := by
  unfold monthLength
  split_ifs with hfeb hleap hshort
  · exact ⟨by decide, by omega, fun _ => .inr ⟨rfl, hleap⟩⟩
  · exact ⟨by decide, by omega, fun _ => .inl rfl⟩
  · exact ⟨by decide, fun _ => rfl, by omega⟩
  · exact ⟨le_rfl, by omega, by omega⟩

theorem daysBeforeYear_add {Y C R : Nat} (hY : Y = 100 * C + R) (hR : R < 100) :
    ((daysBeforeYear (Y + 1) : Nat) : Int) = 146097 * (C : Int) / 4 + 1461 * (R : Int) / 4 := by
  have hfour : Y / 4 = 25 * C + R / 4 := by omega
  have hcentury : Y / 100 = C := by omega
  have hlong : Y / 400 = C / 4 := by omega
  have hc : 146097 * (C : Int) / 4 = 36524 * C + (C : Int) / 4 := by omega
  have hr : 1461 * (R : Int) / 4 = 365 * R + (R : Int) / 4 := by omega
  rw [daysBeforeYear_eq, hfour, hcentury, hlong, hc, hr]
  omega

theorem february_length (Y : Nat) (hpos : 1 ≤ Y) :
    daysBeforeYear (Y + 1) = daysBeforeYear Y + 337 + monthLength Y 2 := by
  obtain ⟨Y, rfl⟩ := Nat.exists_eq_add_of_le' hpos
  rw [daysBeforeYear]
  by_cases h : IsLeap (Y + 1)
  · simp [monthLength, h]
  · simp [monthLength, h]

theorem placed_of_date (date : Date) : ∃ c ya m, Placed date c ya m := by
  obtain ⟨year, month, day, hyear, hpos, hle, hday, hlen⟩ := date
  obtain ⟨hmax, hshort, hfeb⟩ := monthLength_le year month
  have hbefore := @daysBeforeMonth_eq year month hpos hle
  by_cases hmonth : month ≤ 2
  · -- the year began in the March before
    obtain ⟨Y, rfl⟩ := Nat.exists_eq_add_of_le' hyear
    rw [if_pos hmonth] at hbefore
    obtain ⟨C, R, hY, hR⟩ : ∃ C R, Y = 100 * C + R ∧ R < 100 := ⟨Y / 100, Y % 100, by omega⟩
    have hdays := daysBeforeYear_add hY hR
    generalize hc : 146097 * (C : Int) / 4 = centuries at hdays
    generalize hr : 1461 * (R : Int) / 4 = years at hdays
    refine ⟨C, R, month + 9, ⟨?_, ?_, ?_, ?_⟩⟩
    · refine ⟨by omega, by omega, by omega, by dsimp only; omega, by omega, fun hm => ?_⟩
      rcases hfeb (by omega) with hlen' | ⟨hlen', hleap⟩
      · left
        simp only
        omega
      · simp only [IsLeap] at hleap ⊢
        omega
    · simp only [marchDays, Date.ordinal, Date.dayOfYear]
      omega
    · simp only
      omega
    · simp only
      omega
  · rw [if_neg hmonth] at hbefore
    obtain ⟨C, R, hY, hR⟩ : ∃ C R, year = 100 * C + R ∧ R < 100 :=
      ⟨year / 100, year % 100, by omega⟩
    have hdays := daysBeforeYear_add hY hR
    have hfebruary := february_length year hyear
    generalize hc : 146097 * (C : Int) / 4 = centuries at hdays
    generalize hr : 1461 * (R : Int) / 4 = years at hdays
    refine ⟨C, R, month - 3, ⟨?_, ?_, ?_, ?_⟩⟩
    · refine ⟨by omega, by omega, by omega, by dsimp only; omega, fun hm => ?_, by omega⟩
      simp only
      omega
    · simp only [marchDays, Date.ordinal, Date.dayOfYear]
      omega
    · simp only
      omega
    · simp only
      omega

variable {date : Date}

theorem yday_eq (h : Shows times date) : yday times = date.dayOfYear := by
  obtain ⟨year, month, day, hyear, hpos, hle, hday, hlen⟩ := date
  obtain ⟨hmday, hmon, hyr⟩ := h
  simp only at hmday hmon hyr
  have hy : times.year + 1900 = (year : Int) := by omega
  have hleap : ((year : Int).tmod 4 = 0 ∧ (year : Int).tmod 100 ≠ 0 ∨ (year : Int).tmod 400 = 0) ↔
      IsLeap year := by
    rw [Int.tmod_eq_emod_of_nonneg (by omega), Int.tmod_eq_emod_of_nonneg (by omega),
      Int.tmod_eq_emod_of_nonneg (by omega), IsLeap]
    omega
  have hbefore := @daysBeforeMonth_eq year month hpos hle
  simp only [yday, hy, hleap, Date.dayOfYear, hbefore]
  rw [Int.tdiv_eq_ediv_of_nonneg (by omega)]
  by_cases hl : IsLeap year
  · simp only [monthLength]
    split_ifs <;> omega
  · simp only [monthLength]
    split_ifs <;> omega

def tmOf (date : Date) : Tm := ⟨date.day, date.month - 1, date.year - 1900, 0, 0⟩

theorem shows_tmOf (date : Date) : Shows (tmOf date) date := ⟨rfl, rfl, rfl⟩

def firstDate : Date := ⟨1, 1, 1, first_pos, first_pos, january_le, first_pos, by decide⟩

def lastDate : Date := ⟨9999, 12, 31, by decide, by decide, le_rfl, by decide, by decide⟩

theorem ordinal_lt (date : Date) : date.ordinal < daysBeforeYear (date.year + 1) := by
  obtain ⟨year, month, day, hyear, hpos, hle, hday, hlen⟩ := date
  have hbefore := @daysBeforeMonth_eq year month hpos hle
  have hfebruary := february_length year hyear
  have hmax := monthLength_le year month
  simp only [Date.ordinal, Date.dayOfYear, hbefore]
  split_ifs <;> omega

theorem ordinal_le (h : date.year ≤ 9999) : date.ordinal ≤ 3652058 := by
  have hlt := ordinal_lt date
  rw [daysBeforeYear_eq] at hlt
  omega

theorem year_le (h : date.ordinal ≤ 3652058) : date.year ≤ 9999 := by
  obtain ⟨Y, hY⟩ := Nat.exists_eq_add_of_le' date.year_pos
  have hbefore : daysBeforeYear date.year ≤ date.ordinal := Nat.le_add_right _ _
  rw [hY, daysBeforeYear_eq] at hbefore
  omega

theorem exists_date (k : Nat) : ∃ date : Date, date.ordinal = k := by
  induction k with
  | zero => exact ⟨firstDate, rfl⟩
  | succ k ih =>
    obtain ⟨date, rfl⟩ := ih
    exact ⟨date.next, ordinal_next date⟩

theorem encodeDate_eq (h : Shows times date) (hle : date.year ≤ 9999) :
    encodeDate times = date.ordinal - 678575 := by
  obtain ⟨c, ya, m, hmarch, hdays, hmonth, hyear⟩ := placed_of_date date
  have hord := ordinal_le hle
  rw [encodeDate_march hmarch h.mday, hdays, slong_of_lt]
  · omega
  · omega
  · omega
  · rw [h.mon, hmonth]
    split_ifs <;> omega
  · rw [h.year, hyear]
    split_ifs <;> omega

theorem dateOf_eq (date : Date) :
    dateOf (4 * (date.ordinal + 307) - 1) = (↑date.year, ↑date.month, ↑date.day) := by
  obtain ⟨c, ya, m, hmarch, hdays, hmonth, hyear⟩ := placed_of_date date
  rw [← hdays, dateOf_march hmarch, hmonth, hyear]
  split_ifs <;> rfl

theorem decodeDate_eq (hle : date.year ≤ 9999) : decodeDate (date.ordinal - 678575) =
      ⟨date.day, date.month - 1, date.year - 1900, date.weekday, date.dayOfYear⟩ := by
  have hord := ordinal_le hle
  have hwday : slong (date.ordinal - 678575 + 3) = date.ordinal - 678572 := by
    rw [slong_of_lt] <;> omega
  have hnday : slong (date.ordinal - 678575 + (2400001 - 1721119)) = date.ordinal + 307 := by
    rw [slong_of_lt] <;> omega
  have hv : slong (slong (4 * (date.ordinal + 307)) - 1) = 4 * (date.ordinal + 307) - 1 := by
    rw [@slong_of_lt (4 * (date.ordinal + 307)) (by omega) (by omega), slong_of_lt] <;> omega
  have hweek : (if ((date.ordinal : Int) - 678572).tmod 7 < 0 then
      ((date.ordinal : Int) - 678572).tmod 7 + 7 else ((date.ordinal : Int) - 678572).tmod 7) =
      date.weekday := by
    rw [Date.weekday, Int.tmod_eq_emod]
    split_ifs <;> omega
  have hyday := @yday_eq ⟨date.day, date.month - 1, date.year - 1900, date.weekday, 0⟩ date
    ⟨rfl, rfl, rfl⟩
  rw [decodeDate_of hwday hnday hv (dateOf_eq date), hweek, hyday]

/-- Dates and numbers of days go into each other, and the day of the week and that of the year are
right. The numbers of days that follow each other do so too. -/
theorem calendar_conversion :
    (∀ date : Date, date.year ≤ 9999 → ∀ times, Shows times date →
      decodeDate (encodeDate times) =
        ⟨date.day, date.month - 1, date.year - 1900, date.weekday, date.dayOfYear⟩) ∧
    (∀ date : Date, date.next.year ≤ 9999 → ∀ times times', Shows times date →
      Shows times' date.next → encodeDate times' = encodeDate times + 1) ∧
    ∀ n, encodeDate (tmOf firstDate) ≤ n → n ≤ encodeDate (tmOf lastDate) →
      encodeDate (decodeDate n) = n := by
  refine ⟨?_, ?_, ?_⟩
  · intro date hle times htimes
    rw [encodeDate_eq htimes hle, decodeDate_eq hle]
  · intro date hle times times' htimes htimes'
    have hnext := ordinal_next date
    have hle' : date.year ≤ 9999 := by
      have hord := ordinal_le hle
      exact year_le (by omega)
    rw [encodeDate_eq htimes' hle, encodeDate_eq htimes hle', hnext]
    omega
  · intro n hlo hhi
    have hfirst : firstDate.ordinal = 0 := rfl
    have hlast := @ordinal_le lastDate le_rfl
    rw [encodeDate_eq (shows_tmOf _) (by decide), hfirst] at hlo
    rw [encodeDate_eq (shows_tmOf _) le_rfl] at hhi
    obtain ⟨date, hdate⟩ := exists_date (n + 678575).toNat
    have hn : n = date.ordinal - 678575 := by omega
    have hle : date.year ≤ 9999 := year_le (by omega)
    rw [hn, decodeDate_eq hle]
    exact encodeDate_eq ⟨rfl, rfl, rfl⟩ hle

def leapDay : Date := ⟨2000, 2, 29, by decide, by decide, by decide, by decide, by decide⟩

theorem leapDay_le : leapDay.year ≤ 9999 := Nat.le_of_ble_eq_true rfl

/-- The last of February in 2000, which was a Tuesday. -/
theorem calendar_conversion_leap_day :
    ∃ date : Date, date.year = 2000 ∧ date.dayOfYear = 59 ∧ date.weekday = 2 ∧
      decodeDate (encodeDate ⟨29, 1, 100, 0, 0⟩) =
        ⟨date.day, date.month - 1, date.year - 1900, date.weekday, date.dayOfYear⟩ := by
  refine ⟨leapDay, rfl, rfl, ?_, calendar_conversion.1 leapDay leapDay_le _ ⟨rfl, rfl, rfl⟩⟩
  rw [Date.weekday, Date.ordinal, leapDay, daysBeforeYear_eq]
  rfl

end Firebird.Common.TimeStamp
