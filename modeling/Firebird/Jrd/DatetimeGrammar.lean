import Firebird.Jrd.DatetimeParse

/-!
# The language of dates and times

What a text of a date or a time means, in terms of its components, and where `string_to_datetime`
accepts something else.
-/
namespace Firebird.Jrd.Datetime

open Lib Lib.Decimal Common Cvt List

inductive Order
  | yearMonthDay
  | monthDayYear
  | dayMonthYear
  deriving DecidableEq

namespace Order

def year : Order → Nat
  | yearMonthDay => 0
  | _ => 2

def month : Order → Nat
  | monthDayYear => 0
  | _ => 1

def day : Order → Nat
  | yearMonthDay => 2
  | monthDayYear => 1
  | dayMonthYear => 0

end Order

namespace Component

def isLong : Component → Bool
  | number ds _ => 3 ≤ ds.length
  | month _ _ _ => false

def Short (n : Nat) : Component → Prop
  | number ds _ => ds.length ≤ 2 ∧ Lib.Decimal.number ds = n
  | month _ _ _ => False

/-- The month with the number `n`. -/
def IsMonth (n : Nat) : Component → Prop
  | number ds _ => ds.length ≤ 2 ∧ Lib.Decimal.number ds = n
  | month k _ _ => k + 1 = n

/-- The year `y`. One of at most two digits is resolved by a rule. -/
def IsYear (rule : Nat → Int → Prop) (y : Int) : Component → Prop
  | number ds _ => ds.length ≤ 4 ∧
    if ds.length ≤ 2 then rule (Lib.Decimal.number ds) y else y = Lib.Decimal.number ds
  | month _ _ _ => False

/-- A fraction of a second of at most four digits, in ten-thousandths. -/
def IsFraction (n : Nat) : Component → Prop
  | number ds _ => ds.length ≤ 4 ∧ Lib.Decimal.number ds * 10 ^ (4 - ds.length) = n
  | month _ _ _ => False

end Component

def orderOf (items : List Item) : Order :=
  if (items[0]?).any (·.component.isLong) then .yearMonthDay
  else if (items[0]?).any (·.component.english) then .monthDayYear
  else if (items[1]?).any (·.component.english) then .dayMonthYear
  else if (items.take 2).any (·.gap.mark = some point) then .dayMonthYear
  else .monthDayYear

def Optionally (item : Option Item) (missing : Prop) (p : Component → Prop) : Prop :=
  match item with
  | some item => p item.component
  | none => missing

/-- The items are those of a date, when a year of two digits is resolved by a rule. -/
structure DateMeans (rule : Nat → Int → Prop) (current : Int) (items : List Item)
    (date : Calendar.Date) : Prop where
  year : Optionally (items[(orderOf items).year]?) ((date.year : Int) = current)
    (·.IsYear rule date.year)
  month : ∃ item ∈ items[(orderOf items).month]?, item.component.IsMonth date.month
  day : ∃ item ∈ items[(orderOf items).day]?, item.component.Short date.day

structure ClockMeans (items : List Item) (hour min sec frac : Nat) : Prop where
  hours : ∃ item ∈ items[0]?, item.component.Short hour
  minutes : ∃ item ∈ items[1]?, item.component.Short min
  seconds : Optionally (items[2]?) (sec = 0) (·.Short sec)
  fraction : Optionally (items[3]?) (frac = 0) (·.IsFraction frac)
  hour_lt : hour < 24
  min_lt : min < 60
  sec_lt : sec < 60

def TimeMeans (items : List Item) (time : Nat) : Prop :=
  ∃ hour min sec frac, ClockMeans items hour min sec frac ∧
    time = ((hour * 60 + min) * 60 + sec) * secondsPrecision + frac

def Means (rule : Nat → Int → Prop) (expect : Expect) (current : Int) (items : List Item)
    (v : Timestamp) : Prop :=
  match expect with
  | .sqlTime => v.date = timeDate.ordinal - 678575 ∧ TimeMeans items v.time
  | .sqlDate => items.length ≤ 3 ∧ v.time = 0 ∧ ∃ date : Calendar.Date, date.year ≤ 9999 ∧
      DateMeans rule current items date ∧ v.date = date.ordinal - 678575
  | .timestamp => (if items.length ≤ 3 then v.time = 0 else TimeMeans (items.drop 3) v.time) ∧
      ∃ date : Calendar.Date, date.year ≤ 9999 ∧ DateMeans rule current items date ∧
        v.date = date.ordinal - 678575

def currentYear (now : Timestamp) : Int := (decode now).date.year + 1900

/-- The year from 50 years before the current one to 49 years after it. -/
def InWindow (current : Int) (yy : Nat) (y : Int) : Prop :=
  current - 50 ≤ y ∧ y ≤ current + 49 ∧ y % 100 = yy % 100

def InCentury (current : Int) (yy : Nat) (y : Int) : Prop :=
  y = if (yy : Int) < (current - 1950).tmod 100 then 2000 + yy else 1900 + yy

def GoodCentury (current : Int) (yy : Nat) : Prop :=
  1950 ≤ current ∧ current ≤ 2049 ∨ current < 1950 ∧ yy + 1851 ≤ current

theorem inWindow_of_inCentury {current y : Int} {yy : Nat} (hyy : yy < 100)
    (h : InCentury current yy y) : InWindow current yy y ↔ GoodCentury current yy := by
  unfold InCentury at h
  unfold InWindow GoodCentury
  rw [Int.tmod_eq_emod] at h
  split_ifs at h <;> omega

/-! ## Components and what the loop notes of them -/

namespace Component

section Notes

variable {c : Component} {n : Nat}

def Counted (c : Component) : Prop := c.text.length < 2 ^ 16

variable {ds : List (Fin 10)} {h : ds ≠ []}

theorem Counted.length_lt (hc : (number ds h).Counted) : ds.length < 2 ^ 16 := by
  rwa [Counted, text, length_map] at hc

theorem description_number (hc : (number ds h).Counted) :
    (number ds h).description = ds.length ∧ 1 ≤ ds.length := by
  have := length_pos_of_ne_nil h
  rw [description, Nat.mod_eq_of_lt hc.length_lt]
  exact ⟨rfl, this⟩

theorem value_number (hle : ds.length ≤ 4) :
    (number ds h).value = Lib.Decimal.number ds := by
  have hlt := number_lt ds
  have : 10 ^ ds.length ≤ 10 ^ 4 := Nat.pow_le_pow_right (by decide) hle
  rw [value, Nat.mod_eq_of_lt (by omega)]

theorem description_month (k : Nat) (word : List UInt8) (h : Names k word) :
    (month k word h).description = -1 := rfl

theorem short_iff (hc : c.Counted) :
    c.Short n ↔ c.description ≤ 2 ∧ 0 < c.description ∧ c.value = n := by
  cases c with
  | number ds h =>
    obtain ⟨hd, hpos⟩ := description_number hc
    constructor
    · rintro ⟨hle, rfl⟩
      exact ⟨by omega, by omega, value_number (by omega)⟩
    · rintro ⟨hle, -, rfl⟩
      exact ⟨by omega, (value_number (by omega)).symm⟩
  | month k word h =>
    rw [description_month]
    exact iff_of_false id fun h => absurd h.2.1 (by decide)

theorem isMonth_iff (hc : c.Counted) :
    c.IsMonth n ↔ c.description ≤ 2 ∧ c.description ≠ 0 ∧ c.value = n := by
  cases c with
  | number ds h =>
    obtain ⟨hd, hpos⟩ := description_number hc
    have hshort := short_iff (n := n) hc
    change (number ds h).Short n ↔ _
    rw [hshort]
    constructor <;> rintro ⟨h1, h2, h3⟩ <;> exact ⟨h1, by omega, h3⟩
  | month k word h =>
    rw [description_month]
    exact ⟨fun h => ⟨by decide, by decide, h⟩, fun h => h.2.2⟩

theorem description_ne_zero (hc : c.Counted) : c.description ≠ 0 := by
  cases c with
  | number ds h =>
    obtain ⟨hd, hpos⟩ := description_number hc
    omega
  | month k word h =>
    rw [description_month]
    decide

theorem isLong_iff (hc : c.Counted) : c.isLong = true ↔ c.description ≥ 3 := by
  cases c with
  | number ds h =>
    obtain ⟨hd, -⟩ := description_number hc
    rw [hd, isLong, decide_eq_true_eq]
    omega
  | month k word h =>
    rw [description_month]
    exact iff_of_false Bool.false_ne_true (by decide)

theorem english_iff (hc : c.Counted) : c.english = true ↔ c.description = englishMonth := by
  cases c with
  | number ds h =>
    obtain ⟨hd, -⟩ := description_number hc
    rw [hd]
    refine iff_of_false (by simp) ?_
    rw [englishMonth]
    omega
  | month k word h => exact iff_of_true rfl rfl

theorem isYear_iff {rule : Nat → Int → Prop} {y : Int} (hc : c.Counted)
    (henglish : c.english = false) :
    c.IsYear rule y ↔ c.description ≤ 4 ∧
      if c.description ≤ 2 then rule c.value y else y = c.value := by
  cases c with
  | number ds h =>
    obtain ⟨hd, hpos⟩ := description_number hc
    rw [hd, IsYear]
    constructor
    · rintro ⟨hle, hyear⟩
      rw [value_number hle]
      exact ⟨by omega, by simpa using hyear⟩
    · rintro ⟨hle, hyear⟩
      rw [value_number (by omega)] at hyear
      exact ⟨by omega, by simpa using hyear⟩
  | month k word h => cases henglish

theorem isFraction_iff (hc : c.Counted) (henglish : c.english = false) :
    c.IsFraction n ↔ c.description ≤ 4 ∧ fraction c.value c.description = n := by
  cases c with
  | number ds h =>
    obtain ⟨hd, hpos⟩ := description_number hc
    have hstep : ∀ k m, m * 10 ^ k < 2 ^ 16 →
        (fun n => n * 10 % 2 ^ 16)^[k] m = m * 10 ^ k := by
      intro k
      induction k with
      | zero => simp
      | succ k ih =>
        intro m hm
        have hten : m * 10 * 10 ^ k = m * 10 ^ (k + 1) := by ring
        have hlt : m * 10 < 2 ^ 16 := by
          have := Nat.le_mul_of_pos_right (m * 10) (Nat.pow_pos (n := k) (by decide : 0 < 10))
          omega
        rw [Function.iterate_succ_apply, Nat.mod_eq_of_lt hlt, ih _ (by omega), hten]
    have hvalue : ds.length ≤ 4 → fraction (number ds h).value ds.length =
        Lib.Decimal.number ds * 10 ^ (4 - ds.length) := by
      intro hle
      have hlt := Nat.mul_lt_mul_of_pos_right (number_lt ds)
        (Nat.pow_pos (n := 4 - ds.length) (by decide : 0 < 10))
      rw [← Nat.pow_add, Nat.add_sub_cancel' hle] at hlt
      rw [fraction, value_number hle, show ((4 : Int) - ds.length).toNat = 4 - ds.length by omega,
        hstep _ _ (by omega)]
    rw [hd, IsFraction]
    constructor
    · rintro ⟨hle, hn⟩
      exact ⟨by omega, (hvalue hle).trans hn⟩
    · rintro ⟨hle, hn⟩
      exact ⟨by omega, (hvalue (by omega)).symm.trans hn⟩
  | month k word h => cases henglish

end Notes

end Component

section Dates

variable {expect : Expect} {now v : Timestamp} {items : List Item} {date : Calendar.Date}
  {s : Scan}

/-- The components are short enough for their digits to be counted. -/
def Counted (items : List Item) : Prop := ∀ item ∈ items, item.component.Counted

variable {j : Nat} {item : Item}

theorem Counted.get (h : Counted items) (hj : items[j]? = some item) :
    item.component.Counted := h item (mem_of_getElem? hj)

def Order.positions (order : Order) : Positions := ⟨order.year, order.month, order.day⟩

theorem Holds.none {place : Nat} (h : Holds s place items) (hj : items[j]? = none) :
    s.components (place + j) = 0 ∧ s.description (place + j) = 0 := by
  rw [h.components, h.description, hj]
  exact ⟨rfl, rfl⟩

theorem positions_eq (hcounted : Counted items) (h : Holds s 0 items)
    (hdot : s.dotSeparatorSeen = (items.take 2).any fun item => item.gap.mark = some point) :
    positions s.description s.dotSeparatorSeen = (orderOf items).positions := by
  have hlong : ∀ j, (items[j]?).any (·.component.isLong) = true ↔ s.description j ≥ 3 := by
    intro j
    rw [← Nat.zero_add j]
    cases hj : items[0 + j]? with
    | none =>
      rw [Nat.zero_add] at hj
      rw [(h.none hj).2]
      simp
    | some item =>
      rw [Nat.zero_add] at hj
      rw [(h.component hj).2, ← Component.isLong_iff (hcounted.get hj)]
      simp
  have henglish : ∀ j, (items[j]?).any (·.component.english) = true ↔
      s.description j = englishMonth := by
    intro j
    rw [← Nat.zero_add j]
    cases hj : items[0 + j]? with
    | none =>
      rw [Nat.zero_add] at hj
      rw [(h.none hj).2]
      simp [englishMonth]
    | some item =>
      rw [Nat.zero_add] at hj
      rw [(h.component hj).2, ← Component.english_iff (hcounted.get hj)]
      simp
  unfold positions orderOf
  rw [hdot]
  simp only [hlong, henglish]
  split_ifs <;> rfl

theorem Fits.lt_two {i : Nat} {haveEnglishMonth : Bool}
    (h : Fits i haveEnglishMonth items) (hj : items[j]? = some item)
    (henglish : item.component.english = true) : i + j < 2 := by
  induction items generalizing i j haveEnglishMonth with
  | nil => cases hj
  | cons first items ih =>
    cases j with
    | zero =>
      obtain rfl : first = item := by simpa using hj
      have hallowed := h.1
      cases hc : first.component with
      | number ds hne =>
        rw [hc] at henglish
        cases henglish
      | month k word names =>
        rw [hc] at hallowed
        exact hallowed.1
    | succ j =>
      have := ih h.2.2 (by simpa using hj)
      omega

theorem english_year (hfits : Fits 0 false items)
    (h : items[(orderOf items).year]? = some item) : item.component.english = false := by
  cases henglish : item.component.english with
  | false => rfl
  | true =>
    have hlt := hfits.lt_two h henglish
    -- the year is in front, so that it has three digits
    by_cases hlong : (items[0]?).any (·.component.isLong) = true
    · have horder : orderOf items = .yearMonthDay := by rw [orderOf, if_pos hlong]
      rw [horder, Order.year] at h
      rw [h] at hlong
      cases hc : item.component with
      | number ds hne =>
        rw [hc] at henglish
        cases henglish
      | month k word names => simp [hc, Component.isLong] at hlong
    · have hyear : (orderOf items).year = 2 := by
        rw [orderOf, if_neg hlong]
        split_ifs <;> rfl
      omega

theorem dateRead_iff (hcounted : Counted items) (hfits : Fits 0 false items)
    (h : Holds s 0 items) :
    DateRead now s (orderOf items).positions date ↔
      DateMeans (InCentury (currentYear now)) (currentYear now) items date := by
  have hyear : ∀ j, (∀ item, items[j]? = some item → item.component.english = false) →
      (s.description j ≤ 4 ∧ (date.year : Int) - 1900 =
        resolveYear (decode now).date.year (s.components j) (s.description j) ↔
      Optionally (items[j]?) ((date.year : Int) = currentYear now)
        (·.IsYear (InCentury (currentYear now)) date.year)) := by
    intro j hnumber
    cases hj : items[j]? with
    | none =>
      obtain ⟨hc, hd⟩ := h.none hj
      rw [Nat.zero_add] at hc hd
      rw [hc, hd, Optionally, resolveYear, currentYear, if_pos rfl]
      omega
    | some item =>
      obtain ⟨hc, hd⟩ := h.component hj
      rw [Nat.zero_add] at hc hd
      have hne := Component.description_ne_zero (hcounted.get hj)
      rw [hc, hd, Optionally, Component.isYear_iff (hcounted.get hj) (hnumber item hj),
        resolveYear, if_neg hne, InCentury, currentYear]
      refine and_congr_right fun _ => ?_
      have hcentury : (decode now).date.year + 1900 - 1950 = (decode now).date.year - 50 := by
        omega
      rw [hcentury]
      split_ifs <;> omega
  have hmonth : ∀ j n, (s.description j ≤ 2 ∧ s.description j ≠ 0 ∧ s.components j = n) ↔
      ∃ item ∈ items[j]?, item.component.IsMonth n := by
    intro j n
    cases hj : items[j]? with
    | none =>
      obtain ⟨hc, hd⟩ := h.none hj
      rw [Nat.zero_add] at hd
      simp [hd]
    | some item =>
      obtain ⟨hc, hd⟩ := h.component hj
      rw [Nat.zero_add] at hc hd
      rw [hc, hd, ← Component.isMonth_iff (hcounted.get hj)]
      simp
  have hday : ∀ j n, (s.description j ≤ 2 ∧ 0 < s.description j ∧ s.components j = n) ↔
      ∃ item ∈ items[j]?, item.component.Short n := by
    intro j n
    cases hj : items[j]? with
    | none =>
      obtain ⟨hc, hd⟩ := h.none hj
      rw [Nat.zero_add] at hd
      simp [hd]
    | some item =>
      obtain ⟨hc, hd⟩ := h.component hj
      rw [Nat.zero_add] at hc hd
      rw [hc, hd, ← Component.short_iff (hcounted.get hj)]
      simp
  constructor
  · rintro ⟨hy, hm, hm', hd, hd', hyears, hmonths, hdays⟩
    exact ⟨(hyear _ fun item => english_year hfits).mp ⟨hy, hyears⟩,
      (hmonth _ _).mp ⟨hm, hm', hmonths⟩, (hday _ _).mp ⟨hd, hd', hdays⟩⟩
  · rintro ⟨hy, hm, hd⟩
    obtain ⟨hy, hyears⟩ := (hyear _ fun item => english_year hfits).mpr hy
    obtain ⟨hm, hm', hmonths⟩ := (hmonth _ _).mpr hm
    obtain ⟨hd, hd', hdays⟩ := (hday _ _).mpr hd
    exact ⟨hy, hm, hm', hd, hd', hyears, hmonths, hdays⟩

theorem clock_iff {items : List Item} {time : Nat} (hcounted : Counted items)
    (hnumber : ∀ item ∈ items, item.component.english = false) (h : Holds s 3 items)
    (hi : s.i > 2) :
    (timeRefused s.components s.description = false ∧
      s.clock + fraction (s.components 6) (s.description 6) = time) ↔ TimeMeans items time := by
  have hshort : ∀ j n, (s.description (3 + j) ≤ 2 ∧ s.description (3 + j) ≠ 0 ∧
      s.components (3 + j) = n) ↔ ∃ item ∈ items[j]?, item.component.Short n := by
    intro j n
    cases hj : items[j]? with
    | none =>
      obtain ⟨hc, hd⟩ := h.none hj
      simp [hd]
    | some item =>
      obtain ⟨hc, hd⟩ := h.component hj
      have henglish := hnumber item (mem_of_getElem? hj)
      rw [hc, hd, ← Component.isMonth_iff (hcounted.get hj)]
      cases hcomp : item.component with
      | number ds hne => simp [hcomp, Component.IsMonth, Component.Short]
      | month k word names =>
        rw [hcomp] at henglish
        cases henglish
  have hseconds : ∀ n, (s.description 5 ≤ 2 ∧ s.components 5 = n) ↔
      Optionally (items[2]?) (n = 0) (·.Short n) := by
    intro n
    cases hj : items[2]? with
    | none =>
      obtain ⟨hc, hd⟩ := h.none hj
      simp [hc, hd, Optionally, eq_comm]
    | some item =>
      have hcomp := hshort 2 n
      rw [hj] at hcomp
      have hne := Component.description_ne_zero (hcounted.get hj)
      rw [← (h.component hj).2] at hne
      simp only [Option.mem_some_iff, exists_eq_left'] at hcomp
      rw [Optionally, ← hcomp]
      exact ⟨fun h => ⟨h.1, hne, h.2⟩, fun h => ⟨h.1, h.2.2⟩⟩
  have hfraction : ∀ n, (s.description 6 ≤ 4 ∧ fraction (s.components 6) (s.description 6) = n) ↔
      Optionally (items[3]?) (n = 0) (·.IsFraction n) := by
    intro n
    cases hj : items[3]? with
    | none =>
      obtain ⟨hc, hd⟩ := h.none hj
      have hzero : fraction 0 0 = 0 := rfl
      rw [hc, hd, hzero, Optionally]
      simp [eq_comm]
    | some item =>
      obtain ⟨hc, hd⟩ := h.component hj
      rw [hc, hd, Optionally, Component.isFraction_iff (hcounted.get hj)
        (hnumber item (mem_of_getElem? hj))]
  have hclock : s.clock = ((s.components 3 * 60 + s.components 4) * 60 + s.components 5) *
      secondsPrecision := by rw [Scan.clock, if_pos hi]
  simp only [timeRefused, decide_eq_false_iff_not, not_or, not_lt]
  constructor
  · rintro ⟨⟨hhour, hmin, hsec, hd3, hd3', hd4, hd4', hd5, hd6⟩, rfl⟩
    refine ⟨s.components 3, s.components 4, s.components 5, _,
      ⟨(hshort 0 _).mp ⟨hd3, hd3', rfl⟩, (hshort 1 _).mp ⟨hd4, hd4', rfl⟩,
      (hseconds _).mp ⟨hd5, rfl⟩, (hfraction _).mp ⟨hd6, rfl⟩, by omega, by omega, by omega⟩, ?_⟩
    rw [hclock]
  · rintro ⟨hour, min, sec, frac, hmeans, rfl⟩
    obtain ⟨hd3, hd3', hc3⟩ := (hshort 0 _).mpr hmeans.hours
    obtain ⟨hd4, hd4', hc4⟩ := (hshort 1 _).mpr hmeans.minutes
    obtain ⟨hd5, hc5⟩ := (hseconds _).mpr hmeans.seconds
    obtain ⟨hd6, hc6⟩ := (hfraction _).mpr hmeans.fraction
    have hhour := hmeans.hour_lt
    have hmin := hmeans.min_lt
    have hsec := hmeans.sec_lt
    rw [Nat.add_zero] at hc3 hd3 hd3'
    change s.components 4 = min at hc4
    refine ⟨⟨by omega, by omega, by omega, hd3, hd3', hd4, hd4', hd5, hd6⟩, ?_⟩
    rw [hclock, hc3, hc4, hc5, hc6]

/-- A date of three components has no separator behind it. -/
def Taken (expect : Expect) (items : List Item) : Prop :=
  Closed items ∨ expect = .sqlTime ∨ items.length ≠ 3

theorem scanned_i (expect : Expect) (items : List Item) :
    (Closed items → (scanned expect items).i + 1 = expect.startComponent + items.length) ∧
      (¬Closed items → (scanned expect items).i = expect.startComponent + items.length) :=
  readAll_i (.start expect.startComponent []) items

theorem denoted_sqlTime_iff (hfits : Fits 3 false items) (hcounted : Counted items) :
    Denoted .sqlTime now (scanned .sqlTime items) v ↔
      v.date = timeDate.ordinal - 678575 ∧ TimeMeans items v.time := by
  have hholds : Holds (scanned .sqlTime items) 3 items := holds_scanned .sqlTime items
  have hnumber : ∀ item ∈ items, item.component.english = false := by
    intro item hitem
    obtain ⟨j, hj⟩ := mem_iff_getElem?.mp hitem
    cases henglish : item.component.english with
    | false => rfl
    | true =>
      have := hfits.lt_two hj henglish
      omega
  obtain ⟨hclosed, hopen⟩ := scanned_i .sqlTime items
  have hstart : Expect.sqlTime.startComponent = 3 := rfl
  constructor
  · rintro ⟨hsome, -, -, hclock, date, -, hdate, rfl⟩
    have hi : (scanned .sqlTime items).i > 2 := by omega
    exact ⟨by rw [hdate], (clock_iff hcounted hnumber hholds hi).mp ⟨hclock hi, rfl⟩⟩
  · rintro ⟨hdate, htime⟩
    have hlength : 2 ≤ items.length := by
      obtain ⟨hour, min, sec, frac, hmeans, -⟩ := htime
      obtain ⟨item, hitem, -⟩ := hmeans.minutes
      exact (List.getElem?_eq_some_iff.mp hitem).1
    have hi : 3 < (scanned .sqlTime items).i := by
      by_cases h : Closed items
      · have := hclosed h
        omega
      · have := hopen h
        omega
    have hp : (scanned .sqlTime items).p = [] := readAll_p _ _
    obtain ⟨hclock, hvalue⟩ := (clock_iff hcounted hnumber hholds (by omega)).mpr htime
    refine ⟨hi, (fun h => nomatch h), by simp [hp], fun _ => hclock, timeDate, by decide,
      by rw [if_pos rfl], ?_⟩
    rw [hvalue, ← hdate]

theorem DateMeans.two_le {rule : Nat → Int → Prop} {current : Int}
    (h : DateMeans rule current items date) : 2 ≤ items.length := by
  obtain ⟨item, hmonth, -⟩ := h.month
  obtain ⟨item', hday, -⟩ := h.day
  have hm := (List.getElem?_eq_some_iff.mp hmonth).1
  have hd := (List.getElem?_eq_some_iff.mp hday).1
  have hdiffer : ∀ order : Order, 1 ≤ order.month ∨ 1 ≤ order.day := by
    intro order
    cases order <;> decide
  have := hdiffer (orderOf items)
  omega

theorem Holds.drop_three (h : Holds s 0 items) : Holds s 3 (items.drop 3) := by
  constructor
  · intro j
    rw [← Nat.zero_add (3 + j), h.components, getElem?_drop]
  · intro j
    rw [← Nat.zero_add (3 + j), h.description, getElem?_drop]

theorem denoted_date_iff (hexpect : expect ≠ .sqlTime) (hfits : Fits 0 false items)
    (hcounted : Counted items) :
    Denoted expect now (scanned expect items) v ↔
      Means (InCentury (currentYear now)) expect (currentYear now) items v ∧
        Taken expect items := by
  have hstart := startComponent_of_ne hexpect
  have hholds := holds_scanned expect items
  rw [hstart] at hholds
  have hdot := readAll_dot (.start expect.startComponent []) items
  have hpositions := positions_eq hcounted hholds (by
    rw [hstart] at hdot
    rw [scanned, hstart, hdot]
    rfl)
  have hread : ∀ date, DateRead now (scanned expect items)
      (positions (scanned expect items).description (scanned expect items).dotSeparatorSeen) date ↔
        DateMeans (InCentury (currentYear now)) (currentYear now) items date := by
    intro date
    rw [hpositions]
    exact dateRead_iff hcounted hfits hholds
  have hp : (scanned expect items).p = [] := readAll_p _ _
  obtain ⟨hclosed, hopen⟩ := scanned_i expect items
  generalize scanned expect items = s at *
  have hnumber : ∀ item ∈ items.drop 3, item.component.english = false := by
    intro item hitem
    obtain ⟨j, hj⟩ := mem_iff_getElem?.mp hitem
    rw [getElem?_drop] at hj
    cases henglish : item.component.english with
    | false => rfl
    | true =>
      have := hfits.lt_two hj henglish
      omega
  have hcountedRest : Counted (items.drop 3) := fun item hitem =>
    hcounted item (mem_of_mem_drop hitem)
  have hlate : items.length ≤ 3 → Taken expect items → s.i ≤ 2 := by
    rintro hlength (h | h | h)
    · have := hclosed h
      omega
    · exact absurd h hexpect
    · by_cases h' : Closed items
      · have := hclosed h'
        omega
      · have := hopen h'
        omega
  by_cases hi : s.i > 2
  · have hclock := @clock_iff s (items.drop 3) v.time hcountedRest hnumber hholds.drop_three hi
    constructor
    · rintro ⟨-, hnoTime, -, hrefused, date, hle, hdate, hv⟩
      rw [if_neg hexpect, hread] at hdate
      cases expect with
      | sqlTime => exact absurd rfl hexpect
      | sqlDate =>
        have := hnoTime rfl
        omega
      | timestamp =>
        have htime := hclock.mp ⟨hrefused hi, by rw [hv]⟩
        have hfour : ¬items.length ≤ 3 := by
          intro hlength
          rw [drop_eq_nil_of_le hlength] at htime
          obtain ⟨hour, min, sec, frac, hmeans, -⟩ := htime
          obtain ⟨item, hitem, -⟩ := hmeans.hours
          cases hitem
        exact ⟨⟨by rwa [if_neg hfour], date, hle, hdate, by rw [hv]⟩, .inr (.inr (by omega))⟩
    · rintro ⟨hmeans, htaken⟩
      cases expect with
      | sqlTime => exact absurd rfl hexpect
      | sqlDate =>
        have := hlate hmeans.1 htaken
        omega
      | timestamp =>
        obtain ⟨htime, date, hle, hdate, hv⟩ := hmeans
        have hfour : ¬items.length ≤ 3 := fun hlength => by
          have := hlate hlength htaken
          omega
        rw [if_neg hfour] at htime
        obtain ⟨hrefused, hvalue⟩ := hclock.mpr htime
        refine ⟨by rw [hstart]; omega, (fun h => nomatch h), by simp [hp], fun _ => hrefused, date,
          hle, by rwa [if_neg hexpect, hread], ?_⟩
        rw [hvalue, ← hv]
  · have hthree : items.length ≤ 3 := by
      by_cases h : Closed items
      · have := hclosed h
        omega
      · have := hopen h
        omega
    have hzero : s.clock + fraction (s.components 6) (s.description 6) = 0 := by
      obtain ⟨hc, hd⟩ := hholds.none (j := 6) (getElem?_eq_none (by omega))
      rw [hc, hd, Scan.clock, if_neg hi]
      rfl
    have hmeansIff : Means (InCentury (currentYear now)) expect (currentYear now) items v ↔
        v.time = 0 ∧ ∃ date : Calendar.Date, date.year ≤ 9999 ∧
          DateMeans (InCentury (currentYear now)) (currentYear now) items date ∧
          v.date = date.ordinal - 678575 := by
      cases expect with
      | sqlTime => exact absurd rfl hexpect
      | sqlDate => exact and_iff_right hthree
      | timestamp => simp only [Means, if_pos hthree]
    rw [hmeansIff]
    constructor
    · rintro ⟨hsome, -, -, -, date, hle, hdate, hv⟩
      rw [if_neg hexpect, hread] at hdate
      rw [hzero] at hv
      refine ⟨⟨by rw [hv], date, hle, hdate, by rw [hv]⟩, ?_⟩
      by_cases h : Closed items
      · exact .inl h
      · have := hopen h
        exact .inr (.inr (by omega))
    · rintro ⟨⟨htime, date, hle, hdate, hv⟩, htaken⟩
      have htwo := hdate.two_le
      have hpos : 0 < s.i := by
        by_cases h : Closed items
        · have := hclosed h
          omega
        · have := hopen h
          omega
      refine ⟨by rw [hstart]; exact hpos, fun _ => by omega, by simp [hp], fun h => absurd h hi,
        date, hle, by rwa [if_neg hexpect, hread], ?_⟩
      rw [hzero, ← hv, ← htime]

end Dates

/-- What a magic word stands for. A time may only be `NOW`. -/
def wordValue (expect : Expect) (now : Timestamp) (temp : List UInt8) : Option Timestamp :=
  if temp = nowWord then some now
  else if expect = .sqlTime then none
  else if temp = todayWord then some ⟨now.date, 0⟩
  else if temp = tomorrowWord then some ⟨now.date + 1, 0⟩
  else if temp = yesterdayWord then some ⟨now.date - 1, 0⟩
  else none

/-- A magic word alone between blanks, or a literal with nothing but blanks behind its last
component, where a year of two digits is the one in the window. -/
def Documented (expect : Expect) (now : Timestamp) (string : List UInt8) (v : Timestamp) : Prop :=
  (∃ lead word tail, (∀ c ∈ lead, isBlank c = true) ∧ (∀ c ∈ tail, isBlank c = true) ∧
    string = lead ++ (word ++ tail) ∧ wordValue expect now (word.map upper7) = some v) ∨
  ∃ lead items, (∀ c ∈ lead, isBlank c = true) ∧ Fits expect.startComponent false items ∧
    items.length ≤ 7 - expect.startComponent ∧ string = lead ++ textOfItems items ∧ Closed items ∧
    Means (InWindow (currentYear now)) expect (currentYear now) items v

def AcceptsDocumented (expect : Expect) (now : Timestamp) (string : List UInt8) : Prop :=
  ∀ v, stringToDatetime expect now string = .ok v → Documented expect now string v

def Component.shortYear : Component → Option Nat
  | number ds _ => if ds.length ≤ 2 then some (Lib.Decimal.number ds) else none
  | month _ _ _ => none

/-- The string has a magic word that is not alone, but the check behind it does not see that: it
leaves out one character and everything in front of the word, and it lets null characters pass. -/
def HidesWord (expect : Expect) (now : Timestamp) (string : List UInt8) : Prop :=
  ∃ items word tail,
    WordAfter expect.startComponent false (7 - expect.startComponent) string items word tail ∧
    (wordValue expect now (word.map upper7)).isSome ∧
    (∀ c ∈ tail.drop 1, isBlank c = true ∨ c = 0) ∧ ¬(items = [] ∧ ∀ c ∈ tail, isBlank c = true)

/-- The string is a literal in the sense of the code, with the century that the code takes, and it
has a separator behind its last component or a year that is not the one in the window. -/
def Strays (expect : Expect) (now : Timestamp) (string : List UInt8) : Prop :=
  ∃ lead items, (∀ c ∈ lead, isBlank c = true) ∧ Fits expect.startComponent false items ∧
    items.length ≤ 7 - expect.startComponent ∧ string = lead ++ textOfItems items ∧
    Taken expect items ∧
    (∃ v, Means (InCentury (currentYear now)) expect (currentYear now) items v) ∧
    (¬Closed items ∨ expect ≠ .sqlTime ∧ ∃ item ∈ items[(orderOf items).year]?,
      ∃ yy ∈ item.component.shortYear, ¬GoodCentury (currentYear now) yy)

section Language

variable {expect : Expect} {now v : Timestamp} {items : List Item} {string : List UInt8}

theorem special_eq_ok_iff {temp p : List UInt8} :
    special string expect now temp p = .ok v ↔
      (∀ c ∈ p.drop 1, isBlank c = true ∨ c = 0) ∧ wordValue expect now temp = some v := by
  have htrash : ((p.drop 1).any fun c => !isBlank c && c ≠ 0) = true ↔
      ¬∀ c ∈ p.drop 1, isBlank c = true ∨ c = 0 := by
    simp
  unfold special wordValue
  by_cases h : ∀ c ∈ p.drop 1, isBlank c = true ∨ c = 0
  · rw [if_neg fun ht => htrash.mp ht h, and_iff_right h]
    split_ifs <;> simp
  · rw [if_pos (htrash.mpr h)]
    exact iff_of_false (fun h => nomatch h) fun hall => h hall.1

theorem magic_word {temp : List UInt8} (h : wordValue expect now temp = some v) :
    findMonth temp = none ∧ 3 ≤ temp.length ∧ temp.length ≤ 9 ∧ ∀ c ∈ temp, letter7 c = true := by
  unfold wordValue at h
  split_ifs at h with h1 h2 h3 h4 h5
  · exact h1 ▸ by decide +kernel
  · exact h3 ▸ by decide +kernel
  · exact h4 ▸ by decide +kernel
  · exact h5 ▸ by decide +kernel

theorem wordAfter_alone {lead word tail : List UInt8} (hlead : ∀ c ∈ lead, isBlank c = true)
    (htail : ∀ c ∈ tail, isBlank c = true)
    (h : wordValue expect now (word.map upper7) = some v) :
    WordAfter expect.startComponent false (7 - expect.startComponent) (lead ++ (word ++ tail)) []
      word tail := by
  obtain ⟨-, hthree, hnine, hletters⟩ := magic_word h
  rw [length_map] at hthree hnine
  refine ⟨trivial, ?_, ⟨rfl, by simp⟩, fun c hc => hletters _ (mem_map_of_mem hc), hthree,
    .inr fun c hc => ?_, by omega, lead, hlead, rfl⟩
  · cases expect <;> decide
  · exact IsGap.not_letter (.inl (htail c (mem_of_mem_head? hc)))

theorem counted_of_length {lead : List UInt8} (hlength : string.length < 2 ^ 16)
    (h : string = lead ++ textOfItems items) : Counted items := by
  intro item hitem
  obtain ⟨front, rest, rfl⟩ := append_of_mem hitem
  rw [h, textOfItems, flatMap_append, flatMap_cons, Item.text] at hlength
  simp only [length_append] at hlength
  rw [Component.Counted]
  omega

theorem denoted_iff (hfits : Fits expect.startComponent false items) (hcounted : Counted items) :
    Denoted expect now (scanned expect items) v ↔
      Means (InCentury (currentYear now)) expect (currentYear now) items v ∧
        Taken expect items := by
  by_cases hexpect : expect = .sqlTime
  · subst hexpect
    rw [denoted_sqlTime_iff hfits hcounted]
    exact (and_iff_left (.inr (.inl rfl))).symm
  · rw [startComponent_of_ne hexpect] at hfits
    exact denoted_date_iff hexpect hfits hcounted

theorem alone_unique {word tail lead' word' tail' : List UInt8}
    (h : WordAfter expect.startComponent false (7 - expect.startComponent) string items word tail)
    (hlead : ∀ c ∈ lead', isBlank c = true) (htail : ∀ c ∈ tail', isBlank c = true)
    (hvalue : wordValue expect now (word'.map upper7) = some v)
    (htext : string = lead' ++ (word' ++ tail')) : items = [] ∧ tail = tail' := by
  obtain ⟨-, hthree, hnine, hletters⟩ := magic_word hvalue
  rw [length_map] at hthree hnine
  have hword' : ∀ c ∈ word', letter7 (upper7 c) = true := fun c hc =>
    hletters _ (mem_map_of_mem hc)
  have hends' : ∀ c ∈ tail'.head?, letter7 (upper7 c) = false := fun c hc =>
    IsGap.not_letter (.inl (htail c (mem_of_mem_head? hc)))
  obtain ⟨c, w, rfl⟩ := exists_cons_of_ne_nil
    (ne_nil_of_length_pos (Nat.lt_of_lt_of_le (by decide) hthree))
  have hc := hword' c (by simp)
  have hstarts' : Starts (c :: w ++ tail') := by
    intro c' hc'
    obtain rfl : c = c' := by simpa using hc'
    exact not_isBlank_of_letter hc
  obtain ⟨lead, hlead₀, htext₀⟩ := h.text
  rw [htext] at htext₀
  cases items with
  | cons item items =>
    obtain ⟨d, p, hitem, hblank, hclass⟩ := item.component.text_cons
    rw [h.noMonth.2 item (by simp), if_neg (by decide)] at hclass
    have hfirst : textOfItems (item :: items) ++ (word ++ tail) =
        d :: (p ++ (item.gap.text ++ textOfItems items) ++ (word ++ tail)) := by
      rw [textOfItems_cons, hitem]
      simp
    have hstarts : Starts (textOfItems (item :: items) ++ (word ++ tail)) := by
      rw [hfirst]
      intro c' hc'
      obtain rfl : d = c' := by simpa using hc'
      exact hblank
    have hsame := (blanks_unique hlead hlead₀ hstarts' hstarts htext₀).2
    rw [hfirst, cons_append, List.cons.injEq] at hsame
    rw [hsame.1, not_letter_of_digit hclass] at hc
    cases hc
  | nil =>
    obtain ⟨e, u, rfl⟩ := exists_cons_of_ne_nil
      (ne_nil_of_length_pos (Nat.lt_of_lt_of_le (by decide) h.three))
    have hstarts : Starts (textOfItems [] ++ (e :: u ++ tail)) := by
      intro c' hc'
      obtain rfl : e = c' := by simpa [textOfItems] using hc'
      exact not_isBlank_of_letter (h.letters e (by simp))
    have hsame := (blanks_unique hlead hlead₀ hstarts' hstarts htext₀).2
    have hread := readLetters_word h.letters h.length_le h.ends
    have hread' : readLetters 10 (c :: w ++ tail') = ((c :: w).map upper7, tail') :=
      readLetters_word hword' (by omega) (.inr hends')
    change c :: w ++ tail' = e :: u ++ tail at hsame
    rw [hsame, hread, Prod.mk.injEq] at hread'
    exact ⟨rfl, hread'.2⟩

variable {current : Int}

theorem DateMeans.window {date : Calendar.Date}
    (hgood : ∀ item ∈ items[(orderOf items).year]?, ∀ yy ∈ item.component.shortYear,
      GoodCentury current yy)
    (h : DateMeans (InCentury current) current items date) :
    DateMeans (InWindow current) current items date := by
  obtain ⟨hyear, hmonth, hday⟩ := h
  refine ⟨?_, hmonth, hday⟩
  cases hitem : items[(orderOf items).year]? with
  | none =>
    rw [hitem] at hyear
    exact hyear
  | some item =>
    rw [hitem] at hyear
    have hgood := hgood item hitem
    simp only [Optionally] at hyear ⊢
    cases hc : item.component with
    | month k word names =>
      rw [hc] at hyear
      exact hyear
    | number ds hne =>
      rw [hc] at hyear hgood
      obtain ⟨hle, hyear⟩ := hyear
      refine ⟨hle, ?_⟩
      split_ifs at hyear ⊢ with hshort
      · have hlt : number ds < 10 ^ 2 :=
          (number_lt ds).trans_le (Nat.pow_le_pow_right (by decide) hshort)
        exact (inWindow_of_inCentury hlt hyear).mpr
          (hgood _ (by rw [Component.shortYear, if_pos hshort]; rfl))
      · exact hyear

theorem Means.window (hgood : expect ≠ .sqlTime → ∀ item ∈ items[(orderOf items).year]?,
      ∀ yy ∈ item.component.shortYear, GoodCentury current yy)
    (h : Means (InCentury current) expect current items v) :
    Means (InWindow current) expect current items v := by
  cases expect with
  | sqlTime => exact h
  | sqlDate =>
    obtain ⟨hlength, htime, date, hle, hdate, hv⟩ := h
    exact ⟨hlength, htime, date, hle, hdate.window (hgood (by decide)), hv⟩
  | timestamp =>
    obtain ⟨htime, date, hle, hdate, hv⟩ := h
    exact ⟨htime, date, hle, hdate.window (hgood (by decide)), hv⟩

theorem Means.exists_date {rule : Nat → Int → Prop}
    (h : Means rule expect current items v) (hexpect : expect ≠ .sqlTime) :
    ∃ date : Calendar.Date, date.year ≤ 9999 ∧ DateMeans rule current items date ∧
      v.date = date.ordinal - 678575 := by
  cases expect with
  | sqlTime => exact absurd rfl hexpect
  | sqlDate => exact h.2.2
  | timestamp => exact h.2

theorem Means.good (hcentury : Means (InCentury current) expect current items v)
    (hwindow : Means (InWindow current) expect current items v) (hexpect : expect ≠ .sqlTime) :
    ∀ item ∈ items[(orderOf items).year]?, ∀ yy ∈ item.component.shortYear,
      GoodCentury current yy := by
  intro item hitem yy hyy
  obtain ⟨date, hle, hdate, hv⟩ := hcentury.exists_date hexpect
  obtain ⟨date', hle', hdate', hv'⟩ := hwindow.exists_date hexpect
  have hsame := year_eq_of_ordinal hle hle' (hv.symm.trans hv')
  have hyear := hdate.year
  have hyear' := hdate'.year
  rw [hitem, Optionally] at hyear hyear'
  cases hc : item.component with
  | month k word names => rw [hc] at hyear; cases hyear
  | number ds hne =>
    rw [hc] at hyear hyear' hyy
    simp only [Component.shortYear] at hyy
    split_ifs at hyy with hshort
    · obtain rfl : number ds = yy := by simpa using hyy
      have hlt : number ds < 10 ^ 2 :=
        (number_lt ds).trans_le (Nat.pow_le_pow_right (by decide) hshort)
      have hin := hyear.2
      have hin' := hyear'.2
      rw [if_pos hshort] at hin hin'
      rw [← hsame] at hin'
      exact (inWindow_of_inCentury hlt hin).mp hin'
    · cases hyy

/-- Only documented strings are accepted, but for magic words that are not alone, separators behind
the last component and centuries that are not those of the window. -/
theorem acceptsDocumented_iff (expect : Expect) (now : Timestamp) (string : List UInt8)
    (hlength : string.length < 2 ^ 16) :
    AcceptsDocumented expect now string ↔
      ¬HidesWord expect now string ∧ ¬Strays expect now string := by
  have hmonth : ∀ {word : List UInt8} {v} (n : Nat),
      wordValue expect now (word.map upper7) = some v →
      expect.startComponent + n < 2 → findMonth (word.map upper7) = none := fun n h _ =>
    (magic_word h).1
  constructor
  · intro h
    constructor
    · rintro ⟨items, word, tail, hword, hvalue, htail, halone⟩
      obtain ⟨v, hv⟩ := Option.isSome_iff_exists.mp hvalue
      have haccepted : stringToDatetime expect now string = .ok v := by
        rw [stringToDatetime_wordAfter hword (hmonth _ hv)]
        exact special_eq_ok_iff.mpr ⟨htail, hv⟩
      rcases h v haccepted with ⟨lead', word', tail', hlead', htail', htext, hvalue'⟩ |
        ⟨lead', items', hlead', hfits', hlength', htext, -⟩
      · obtain ⟨hitems, rfl⟩ := alone_unique hword hlead' htail' hvalue' htext
        exact halone ⟨hitems, htail'⟩
      · exact not_literal_of_wordAfter hword (hmonth _ hv)
          ⟨lead', items', hlead', hfits', hlength', htext⟩
    · rintro ⟨lead, items, hlead, hfits, hitems, rfl, htaken, ⟨v, hmeans⟩, hstray⟩
      have hcounted := counted_of_length hlength rfl
      have haccepted : stringToDatetime expect now (lead ++ textOfItems items) = .ok v :=
        (stringToDatetime_literal hfits hitems hlead).mpr
          ((denoted_iff hfits hcounted).mpr ⟨hmeans, htaken⟩)
      rcases h v haccepted with ⟨lead', word', tail', hlead', htail', htext, hvalue'⟩ |
        ⟨lead', items', hlead', hfits', hlength', htext, hclosed, hmeans'⟩
      · have hword := wordAfter_alone hlead' htail' hvalue'
        rw [← htext] at hword
        exact not_literal_of_wordAfter hword (hmonth _ hvalue')
          ⟨lead, items, hlead, hfits, hitems, rfl⟩
      · obtain rfl := literal_unique hfits hfits' hlead hlead' htext
        rcases hstray with hopen | ⟨hexpect, item, hitem, yy, hyy, hbad⟩
        · exact hopen hclosed
        · exact hbad (hmeans.good hmeans' hexpect item hitem yy hyy)
  · rintro ⟨hhides, hstrays⟩ v haccepted
    rcases accepted_cases haccepted with ⟨lead, items, hlead, hfits, hitems, rfl, hdenoted⟩ |
      ⟨items, word, tail, hword, hspecial, -⟩
    · right
      have hcounted := counted_of_length hlength rfl
      obtain ⟨hmeans, htaken⟩ := (denoted_iff hfits hcounted).mp hdenoted
      have hno := fun hstray =>
        hstrays ⟨lead, items, hlead, hfits, hitems, rfl, htaken, ⟨v, hmeans⟩, hstray⟩
      refine ⟨lead, items, hlead, hfits, hitems, rfl, ?_, hmeans.window ?_⟩
      · by_contra hopen
        exact hno (.inl hopen)
      · intro hexpect item hitem yy hyy
        by_contra hbad
        exact hno (.inr ⟨hexpect, item, hitem, yy, hyy, hbad⟩)
    · left
      obtain ⟨htail, hvalue⟩ := special_eq_ok_iff.mp hspecial
      have halone : items = [] ∧ ∀ c ∈ tail, isBlank c = true := by
        by_contra halone
        exact hhides ⟨items, word, tail, hword, Option.isSome_iff_exists.mpr ⟨v, hvalue⟩, htail,
          halone⟩
      obtain ⟨lead, hlead, htext⟩ := hword.text
      rw [halone.1] at htext
      exact ⟨lead, word, tail, hlead, halone.2, htext, hvalue⟩

end Language

theorem acceptsDocumented_iff_date :
    AcceptsDocumented .sqlDate ⟨60000, 0⟩ (bytes ['2', '/', '3', '/', '2', '0', '0', '1']) ↔
      ¬HidesWord .sqlDate ⟨60000, 0⟩ (bytes ['2', '/', '3', '/', '2', '0', '0', '1']) ∧
        ¬Strays .sqlDate ⟨60000, 0⟩ (bytes ['2', '/', '3', '/', '2', '0', '0', '1']) :=
  acceptsDocumented_iff _ _ _ (by decide)

/-- `NOW!` is the current date. -/
theorem now_with_trash_accepted :
    ¬AcceptsDocumented .timestamp ⟨60000, 5⟩ (bytes ['N', 'O', 'W', '!']) := by
  intro h
  have haccepted : stringToDatetime .timestamp ⟨60000, 5⟩ (bytes ['N', 'O', 'W', '!']) =
    .ok ⟨60000, 5⟩ := by decide +kernel
  rcases h _ haccepted with ⟨lead, word, tail, hlead, htail, htext, hvalue⟩ |
    ⟨lead, items, hlead, hfits, hlength, htext, -⟩
  · have hmem : (33 : UInt8) ∈ lead ++ (word ++ tail) := htext ▸ (by decide)
    rw [mem_append, mem_append] at hmem
    rcases hmem with hmem | hmem | hmem
    · exact absurd (hlead _ hmem) (by decide)
    · exact absurd ((magic_word hvalue).2.2.2 _ (mem_map_of_mem hmem)) (by decide)
    · exact absurd (htail _ hmem) (by decide)
  · have hword : WordAfter 0 false 7 (bytes ['N', 'O', 'W', '!']) [] nowWord [33] :=
      ⟨trivial, by decide, ⟨rfl, by simp⟩, by decide +kernel, by decide, .inr (by decide +kernel),
        by decide, [], by simp, rfl⟩
    exact @not_literal_of_wordAfter _ .timestamp _ _ _ hword (fun _ => by decide +kernel)
      ⟨lead, items, hlead, hfits, hlength, htext⟩

end Firebird.Jrd.Datetime
