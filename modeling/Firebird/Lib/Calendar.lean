import Mathlib.Data.Nat.Basic
import Mathlib.Tactic.IntervalCases
import Mathlib.Tactic.SplitIfs

/-!
# The Gregorian calendar

Dates of the proleptic Gregorian calendar from the year 1 on, and the number of days since the first
of them.
-/
namespace Firebird.Lib.Calendar

def IsLeap (year : Nat) : Prop := year % 4 = 0 ∧ year % 100 ≠ 0 ∨ year % 400 = 0

instance (year : Nat) : Decidable (IsLeap year) := inferInstanceAs (Decidable (_ ∨ _))

def monthLength (year month : Nat) : Nat :=
  if month = 2 then if IsLeap year then 29 else 28
  else if month = 4 ∨ month = 6 ∨ month = 9 ∨ month = 11 then 30
  else 31

structure Date where
  year : Nat
  month : Nat
  day : Nat
  year_pos : 1 ≤ year
  month_pos : 1 ≤ month
  month_le : month ≤ 12
  day_pos : 1 ≤ day
  day_le : day ≤ monthLength year month

theorem monthLength_pos (year month : Nat) : 1 ≤ monthLength year month := by
  unfold monthLength
  split_ifs <;> decide

theorem first_pos : 1 ≤ 1 := le_rfl

theorem january_le : 1 ≤ 12 := by decide

def Date.next (d : Date) : Date :=
  if h : d.day + 1 ≤ monthLength d.year d.month then
    ⟨d.year, d.month, d.day + 1, d.year_pos, d.month_pos, d.month_le, Nat.succ_pos _, h⟩
  else if h : d.month + 1 ≤ 12 then
    ⟨d.year, d.month + 1, 1, d.year_pos, Nat.succ_pos _, h, first_pos, monthLength_pos _ _⟩
  else ⟨d.year + 1, 1, 1, Nat.succ_pos _, first_pos, january_le, first_pos, monthLength_pos _ _⟩

def daysBeforeMonth (year : Nat) : Nat → Nat
  | 0 => 0
  | 1 => 0
  | month + 2 => daysBeforeMonth year (month + 1) + monthLength year (month + 1)

def daysBeforeYear : Nat → Nat
  | 0 => 0
  | 1 => 0
  | year + 2 => daysBeforeYear (year + 1) + if IsLeap (year + 1) then 366 else 365

namespace Date

def dayOfYear (d : Date) : Nat := daysBeforeMonth d.year d.month + (d.day - 1)

def ordinal (d : Date) : Nat := daysBeforeYear d.year + d.dayOfYear

/-- The day of the week, counted from Sunday. The first day was a Monday. -/
def weekday (d : Date) : Nat := (d.ordinal + 1) % 7

end Date

theorem daysBeforeYear_eq (year : Nat) :
    daysBeforeYear (year + 1) = 365 * year + year / 4 - year / 100 + year / 400 := by
  induction year with
  | zero => rfl
  | succ year ih =>
    rw [daysBeforeYear, ih]
    by_cases h : IsLeap (year + 1)
    · rw [if_pos h]
      rw [IsLeap] at h
      omega
    · rw [if_neg h]
      rw [IsLeap] at h
      omega

theorem daysBeforeMonth_eq {year month : Nat} (hpos : 1 ≤ month) (hle : month ≤ 12) :
    daysBeforeMonth year month =
      if month ≤ 2 then 31 * (month - 1)
      else (153 * (month - 3) + 2) / 5 + 31 + monthLength year 2 := by
  have hrec : ∀ m, daysBeforeMonth year (m + 2) =
      daysBeforeMonth year (m + 1) + monthLength year (m + 1) := fun m => rfl
  have hone : daysBeforeMonth year 1 = 0 := rfl
  interval_cases month <;> simp [hrec, monthLength] <;> omega

theorem daysBeforeYear_succ {year : Nat} (h : 1 ≤ year) :
    daysBeforeYear (year + 1) =
      daysBeforeYear year + (daysBeforeMonth year 12 + monthLength year 12) := by
  obtain ⟨year, rfl⟩ := Nat.exists_eq_add_of_le' h
  rw [daysBeforeYear, daysBeforeMonth_eq (by decide) (by decide)]
  by_cases h : IsLeap (year + 1) <;> simp [monthLength, h]

theorem ordinal_next (d : Date) : d.next.ordinal = d.ordinal + 1 := by
  obtain ⟨year, month, day, hyear, hpos, hle, hday, hlen⟩ := d
  unfold Date.next
  split_ifs with hnext hmonth
  · simp only [Date.ordinal, Date.dayOfYear]
    omega
  · obtain ⟨month, rfl⟩ := Nat.exists_eq_add_of_le' hpos
    simp only [Date.ordinal, Date.dayOfYear, daysBeforeMonth] at hnext ⊢
    omega
  · obtain rfl : month = 12 := by simp only at hmonth; omega
    simp only [Date.ordinal, Date.dayOfYear, daysBeforeYear_succ hyear] at hnext ⊢
    have hone : daysBeforeMonth (year + 1) 1 = 0 := rfl
    omega

end Firebird.Lib.Calendar
