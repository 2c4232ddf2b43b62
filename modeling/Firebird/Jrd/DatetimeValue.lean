import Firebird.Jrd.DatetimeLiteral

/-!
# The values of literals

What `string_to_datetime` makes of the components. A date that passes the comparison with what is
decoded from it is one of the calendar.
-/
namespace Firebird.Jrd.Datetime

open Lib Common Cvt List

def Scan.clock (s : Scan) : Nat :=
  (if s.i > 2 then (s.components 3 * 60 + s.components 4) * 60 + s.components 5 else 0) *
    secondsPrecision

theorem shows_of_isRangeValid {d : Int} (h : TimeStamp.isRangeValid d = true) :
    ∃ date : Calendar.Date, date.year ≤ 9999 ∧ TimeStamp.Shows (TimeStamp.decodeDate d) date := by
  by_cases hd : d = 0
  · subst hd
    obtain ⟨date, hle, hdate⟩ := TimeStamp.inRange_iff.mpr (show -678575 ≤ (0 : Int) ∧ _ by omega)
    rw [TimeStamp.encodeDate_eq (TimeStamp.shows_tmOf date) hle] at hdate
    rw [← hdate, TimeStamp.decodeDate_eq hle]
    exact ⟨date, hle, rfl, rfl, rfl⟩
  · obtain ⟨k, m, hv, hm, -⟩ := TimeStamp.exists_wrapped d
    rcases hdate : TimeStamp.dateOf (4 * m - 1) with ⟨year, month, day⟩
    have hdecode := TimeStamp.decodeDate_of rfl rfl hv hdate
    have hrange : TimeStamp.InRange (m - 678882) := by
      rw [← TimeStamp.year_dateOf_iff, hdate]
      rw [TimeStamp.isRangeValid, if_neg hd, hdecode] at h
      obtain ⟨hlo, hhi⟩ := of_decide_eq_true h
      simp only [TimeStamp.minYear, TimeStamp.maxYear] at hlo hhi
      omega
    obtain ⟨date, hle, hday⟩ := hrange
    rw [TimeStamp.encodeDate_eq (TimeStamp.shows_tmOf date) hle] at hday
    have hm' : m = date.ordinal + 307 := by omega
    rw [hm', TimeStamp.dateOf_eq, Prod.mk.injEq, Prod.mk.injEq] at hdate
    rw [hdecode, ← hdate.1, ← hdate.2.1, ← hdate.2.2]
    exact ⟨date, hle, rfl, rfl, rfl⟩

theorem isRangeValid_date {date : Calendar.Date} (h : date.year ≤ 9999) :
    TimeStamp.isRangeValid (date.ordinal - 678575) = true := by
  refine TimeStamp.isRangeValid_iff.mpr ⟨0, ?_⟩
  rw [Int.zero_mul, Int.add_zero]
  exact ⟨date, h, TimeStamp.encodeDate_eq (TimeStamp.shows_tmOf date) h⟩

theorem year_eq_of_ordinal {date read : Calendar.Date} (hle : read.year ≤ 9999)
    (hle' : date.year ≤ 9999) (h : (read.ordinal : Int) - 678575 = date.ordinal - 678575) :
    read.year = date.year := by
  have hread := TimeStamp.decodeDate_eq hle
  rw [h, TimeStamp.decodeDate_eq hle', TimeStamp.Tm.mk.injEq] at hread
  omega

section Value

variable {string : List UInt8} {expect : Expect} {now v : Timestamp} {s : Scan}

variable {date : Calendar.Date}

theorem encode_times (h : date.year ≤ 9999) :
    encode (s.times (TimeStamp.tmOf date)) = ⟨date.ordinal - 678575, s.clock⟩ := by
  have hdate := TimeStamp.encodeDate_eq (TimeStamp.shows_tmOf date) h
  unfold encode Scan.times Scan.clock
  split_ifs <;> simp [hdate]

theorem sameTimes_of_clock (h : date.year ≤ 9999)
    (htime : s.i > 2 → timeRefused s.components s.description = false) :
    sameTimes (s.times (TimeStamp.tmOf date)) (decode ⟨date.ordinal - 678575, s.clock⟩) = true := by
  have hdecode := TimeStamp.decodeDate_eq h
  unfold Scan.times Scan.clock
  split_ifs with hi
  · have htime := htime hi
    simp only [timeRefused, decide_eq_false_iff_not] at htime
    simp only [sameTimes, decode, hdecode, TimeStamp.tmOf, secondsPrecision, true_and,
      decide_eq_true_eq]
    omega
  · simp [sameTimes, decode, hdecode, TimeStamp.tmOf]

structure DateRead (now : Timestamp) (s : Scan) (position : Positions) (date : Calendar.Date) :
    Prop where
  yearDigits : s.description position.year ≤ 4
  monthDigits : s.description position.month ≤ 2
  month_ne : s.description position.month ≠ 0
  dayDigits : s.description position.day ≤ 2
  day_pos : 0 < s.description position.day
  year : (date.year : Int) - 1900 = resolveYear (decode now).date.year
    (s.components position.year) (s.description position.year)
  month : s.components position.month = date.month
  day : s.components position.day = date.day

theorem readDate_eq_ok_iff : readDate string now s = .ok (TimeStamp.tmOf date) ↔
      DateRead now s (positions s.description s.dotSeparatorSeen) date := by
  unfold readDate
  dsimp only
  split_ifs with h
  · refine ⟨(fun h => nomatch h), fun hread => ?_⟩
    obtain ⟨hy, hm, hm', hd, hd', -⟩ := hread
    omega
  · simp only [not_or, not_lt, not_le] at h
    obtain ⟨hy, hm, hm', hd, hd'⟩ := h
    simp only [Except.ok.injEq, TimeStamp.tmOf, TimeStamp.Tm.mk.injEq, and_true]
    constructor
    · rintro ⟨hday, hmonth, hyear⟩
      exact ⟨hy, hm, hm', hd, hd', hyear.symm, by omega, by omega⟩
    · intro hread
      have hmonth := hread.month
      have hday := hread.day
      exact ⟨by omega, by omega, hread.year.symm⟩

def timeDate : Calendar.Date := ⟨1900, 1, 1, by decide, Calendar.first_pos, Calendar.january_le,
  Calendar.first_pos, by decide⟩

structure Denoted (expect : Expect) (now : Timestamp) (s : Scan) (v : Timestamp) : Prop where
  some : expect.startComponent < s.i
  noTime : expect = .sqlDate → s.i ≤ 2
  blank : ∀ c ∈ s.p, isBlank c = true
  clock : s.i > 2 → timeRefused s.components s.description = false
  date : ∃ date : Calendar.Date, date.year ≤ 9999 ∧
    (if expect = .sqlTime then date = timeDate
      else DateRead now s (positions s.description s.dotSeparatorSeen) date) ∧
    v = ⟨date.ordinal - 678575, s.clock + fraction (s.components 6) (s.description 6)⟩

theorem convert_of_date (h : date.year ≤ 9999)
    (htime : s.i > 2 → timeRefused s.components s.description = false) :
    convert string expect s (TimeStamp.tmOf date) =
      .ok ⟨date.ordinal - 678575, s.clock + fraction (s.components 6) (s.description 6)⟩ := by
  have hrefused : ¬(s.i > 2 ∧ timeRefused s.components s.description = true) := fun ht => by
    rw [htime ht.1] at ht
    exact absurd ht.2 (by decide)
  have hsame := sameTimes_of_clock h htime
  unfold convert
  rw [if_neg hrefused]
  simp [encode_times h, isRangeValid_date h, hsame]

variable {times : TimeStamp.Tm}

theorem clock_of_convert (h : convert string expect s times = .ok v)
    (hi : s.i > 2) : timeRefused s.components s.description = false := by
  unfold convert at h
  cases hrefused : timeRefused s.components s.description with
  | false => rfl
  | true =>
    rw [if_pos ⟨hi, hrefused⟩] at h
    cases h

theorem readDate_zero (h : readDate string now s = .ok times) :
    times.wday = 0 ∧ times.yday = 0 := by
  unfold readDate at h
  dsimp only at h
  split_ifs at h
  rw [Except.ok.injEq] at h
  rw [← h]
  exact ⟨rfl, rfl⟩

theorem exists_date_of_convert (hzero : times.wday = 0 ∧ times.yday = 0)
    (hexpect : expect ≠ .sqlTime) (h : convert string expect s times = .ok v) :
    ∃ date : Calendar.Date, date.year ≤ 9999 ∧ times = TimeStamp.tmOf date := by
  unfold convert at h
  dsimp only at h
  split_ifs at h with hrefused hvalid hsame
  rw [Bool.not_eq_true', Bool.not_eq_false] at hvalid
  obtain ⟨date, hle, hmday, hmon, hyear⟩ := shows_of_isRangeValid hvalid
  have htimes : (s.times times).date = times := by
    unfold Scan.times
    split_ifs <;> rfl
  have hsame' : sameTimes (s.times times) (decode (encode (s.times times))) = true := by
    simpa [hexpect] using hsame
  obtain ⟨hyear', hmon', hmday', -⟩ := of_decide_eq_true hsame'
  simp only [htimes] at hyear' hmon' hmday'
  refine ⟨date, hle, ?_⟩
  obtain ⟨mday, mon, year, wday, yday⟩ := times
  obtain ⟨rfl, rfl⟩ := hzero
  rw [TimeStamp.tmOf, TimeStamp.Tm.mk.injEq]
  exact ⟨hmday'.trans hmday, hmon'.trans hmon, hyear'.trans hyear, rfl, rfl⟩

theorem finish_eq_ok_iff : finish string expect now s = .ok v ↔ Denoted expect now s v := by
  have htime : (⟨1, 0, 0, 0, 0⟩ : TimeStamp.Tm) = TimeStamp.tmOf timeDate := rfl
  constructor
  · intro h
    unfold finish at h
    by_cases hsome : s.i - expect.startComponent < 1
    · rw [if_pos hsome] at h
      cases h
    by_cases hdate : expect = .sqlDate ∧ s.i > 2
    · rw [if_neg hsome, if_pos hdate] at h
      cases h
    cases hblank : s.p.any fun c => !isBlank c with
    | true =>
      rw [if_neg hsome, if_neg hdate, hblank, if_pos rfl] at h
      cases h
    | false =>
      rw [if_neg hsome, if_neg hdate, hblank, if_neg (by decide)] at h
      have hblank' : ∀ c ∈ s.p, isBlank c = true := by simpa using hblank
      have hnoTime : expect = .sqlDate → s.i ≤ 2 := fun he => Nat.not_lt.mp fun hi => hdate ⟨he, hi⟩
      by_cases hexpect : expect = .sqlTime
      · rw [if_pos hexpect, htime] at h
        change convert string expect s (TimeStamp.tmOf timeDate) = .ok v at h
        have hclock := clock_of_convert h
        rw [convert_of_date (by decide) hclock, Except.ok.injEq] at h
        exact ⟨by omega, hnoTime, hblank', hclock, timeDate, by decide, by rw [if_pos hexpect],
          h.symm⟩
      · rw [if_neg hexpect] at h
        cases hread : readDate string now s with
        | error e => rw [hread] at h; cases h
        | ok times =>
          rw [hread] at h
          change convert string expect s times = .ok v at h
          obtain ⟨date, hle, rfl⟩ := exists_date_of_convert (readDate_zero hread) hexpect h
          have hclock := clock_of_convert h
          rw [convert_of_date hle hclock, Except.ok.injEq] at h
          exact ⟨by omega, hnoTime, hblank', hclock, date, hle, by
            rw [if_neg hexpect]; exact readDate_eq_ok_iff.mp hread, h.symm⟩
  · rintro ⟨hsome, hdate, hblank, hclock, date, hle, hread, rfl⟩
    have hblank' : (s.p.any fun c => !isBlank c) = false := by
      simpa using hblank
    have hread' : (if expect = .sqlTime then .ok ⟨1, 0, 0, 0, 0⟩ else readDate string now s) =
        .ok (TimeStamp.tmOf date) := by
      by_cases hexpect : expect = .sqlTime
      · rw [if_pos hexpect] at hread ⊢
        rw [hread, htime]
      · rw [if_neg hexpect] at hread ⊢
        exact readDate_eq_ok_iff.mpr hread
    unfold finish
    rw [if_neg (by omega), if_neg fun h => by have := hdate h.1; omega, hblank', hread',
      if_neg (by decide)]
    exact convert_of_date hle hclock

end Value

def Closed (items : List Item) : Prop := ∃ item ∈ items.getLast?, item.gap.mark = none

section Literal

variable {string : List UInt8} {expect : Expect} {now v : Timestamp} {s : Scan}

variable {item : Item}

theorem closed_singleton : Closed [item] ↔ item.gap.mark = none := by
  simp [Closed]

variable {items : List Item}

theorem closed_cons (h : items ≠ []) : Closed (item :: items) ↔ Closed items := by
  obtain ⟨next, items, rfl⟩ := exists_cons_of_ne_nil h
  rw [Closed, Closed, getLast?_cons_cons]

theorem readAll_i (s : Scan) (items : List Item) :
    (Closed items → (s.readAll items).i + 1 = s.i + items.length) ∧
      (¬Closed items → (s.readAll items).i = s.i + items.length) := by
  induction items generalizing s with
  | nil =>
    refine ⟨fun h => ?_, fun _ => rfl⟩
    obtain ⟨_, hlast, _⟩ := h
    cases hlast
  | cons item items ih =>
    cases items with
    | nil =>
      rw [closed_singleton, readAll_singleton]
      constructor <;> intro h <;> simp [h, Scan.take, Scan.pass]
    | cons next items =>
      have hlast : ¬(next :: items = [] ∧ item.gap.mark = none) := fun h => by cases h.1
      obtain ⟨hclosed, hopen⟩ := ih ((s.take item).pass item.gap.mark)
      rw [closed_cons (by simp), readAll_cons hlast]
      refine ⟨fun h => ?_, fun h => ?_⟩
      · rw [hclosed h]
        simp only [Scan.pass, Scan.take, length_cons]
        omega
      · rw [hopen h]
        simp only [Scan.pass, Scan.take, length_cons]
        omega

theorem readAll_field {α : Type} (field : Scan → Nat → α) (value : Component → α)
    (htake : ∀ s item, field (s.take item) = Function.update (field s) s.i (value item.component))
    (hpass : ∀ s mark, field (s.pass mark) = field s) (s : Scan) (items : List Item) (j : Nat) :
    field (s.readAll items) j =
      if s.i ≤ j then ((items[j - s.i]?).map fun item => value item.component).getD (field s j)
      else field s j := by
  induction items generalizing s with
  | nil => simp [Scan.readAll]
  | cons item items ih =>
    have hone : field (s.take item) j = if j = s.i then value item.component else field s j := by
      rw [htake, Function.update_apply]
    by_cases hlast : items = [] ∧ item.gap.mark = none
    · obtain ⟨rfl, hmark⟩ := hlast
      rw [readAll_singleton, if_pos hmark, hone]
      by_cases hj : j = s.i
      · simp [hj]
      · rw [if_neg hj]
        split_ifs with hle
        · rw [getElem?_eq_none (by simp; omega)]
          rfl
        · rfl
    · rw [readAll_cons hlast, ih, hpass, hone]
      have hi : ((s.take item).pass item.gap.mark).i = s.i + 1 := rfl
      rw [hi]
      rcases Nat.lt_trichotomy j s.i with hj | rfl | hj
      · rw [if_neg (by omega), if_neg (by omega), if_neg (by omega)]
      · rw [if_neg (by omega), if_pos rfl, if_pos le_rfl, Nat.sub_self]
        rfl
      · have hsub : j - s.i = (j - (s.i + 1)) + 1 := by omega
        rw [if_pos (by omega), if_neg (by omega), if_pos (by omega), hsub, getElem?_cons_succ]

theorem readAll_dot (s : Scan) (items : List Item) :
    (s.readAll items).dotSeparatorSeen =
      (s.dotSeparatorSeen ||
        (items.take (2 - s.i)).any fun item => item.gap.mark = some point) := by
  induction items generalizing s with
  | nil => simp [Scan.readAll]
  | cons item items ih =>
    by_cases hlast : items = [] ∧ item.gap.mark = none
    · obtain ⟨rfl, hmark⟩ := hlast
      rw [readAll_singleton, if_pos hmark]
      rcases h : 2 - s.i with _ | n <;> simp [Scan.take, hmark]
    · rw [readAll_cons hlast, ih]
      have hi : 2 - ((s.take item).pass item.gap.mark).i = 2 - s.i - 1 := by
        simp only [Scan.pass, Scan.take]
        omega
      rw [hi]
      rcases h : 2 - s.i with _ | n
      · have hle : ¬s.i ≤ 1 := by omega
        simp [Scan.pass, Scan.take, hle]
      · have hle : s.i ≤ 1 := by omega
        simp [Scan.pass, Scan.take, hle, Bool.or_assoc]

def scanned (expect : Expect) (items : List Item) : Scan :=
  (Scan.start expect.startComponent []).readAll items

theorem scanned_components (expect : Expect) (items : List Item) (j : Nat) :
    (scanned expect items).components (expect.startComponent + j) =
      ((items[j]?).map fun item => item.component.value).getD 0 := by
  have h := readAll_field Scan.components Component.value (fun _ _ => rfl) (fun _ _ => rfl)
    (Scan.start expect.startComponent []) items (expect.startComponent + j)
  have hi : (Scan.start expect.startComponent []).i = expect.startComponent := rfl
  rw [hi, if_pos (Nat.le_add_right _ _), Nat.add_sub_cancel_left] at h
  exact h

theorem scanned_description (expect : Expect) (items : List Item) (j : Nat) :
    (scanned expect items).description (expect.startComponent + j) =
      ((items[j]?).map fun item => item.component.description).getD 0 := by
  have h := readAll_field Scan.description Component.description (fun _ _ => rfl) (fun _ _ => rfl)
    (Scan.start expect.startComponent []) items (expect.startComponent + j)
  have hi : (Scan.start expect.startComponent []).i = expect.startComponent := rfl
  rw [hi, if_pos (Nat.le_add_right _ _), Nat.add_sub_cancel_left] at h
  exact h

/-- The fields of the state from a component on are those of some items. -/
structure Holds (s : Scan) (place : Nat) (items : List Item) : Prop where
  components : ∀ j, s.components (place + j) =
    ((items[j]?).map fun item => item.component.value).getD 0
  description : ∀ j, s.description (place + j) =
    ((items[j]?).map fun item => item.component.description).getD 0

theorem holds_scanned (expect : Expect) (items : List Item) :
    Holds (scanned expect items) expect.startComponent items :=
  ⟨scanned_components expect items, scanned_description expect items⟩

theorem Holds.append {place : Nat} {others : List Item}
    (h : Holds s place (items ++ others)) : Holds s (place + items.length) others := by
  constructor
  · intro j
    rw [Nat.add_assoc, h.components, getElem?_append_right (Nat.le_add_right _ _),
      Nat.add_sub_cancel_left]
  · intro j
    rw [Nat.add_assoc, h.description, getElem?_append_right (Nat.le_add_right _ _),
      Nat.add_sub_cancel_left]

theorem Holds.component {place : Nat} (h : Holds s place items) {j : Nat}
    (hj : items[j]? = some item) : s.components (place + j) = item.component.value ∧
      s.description (place + j) = item.component.description := by
  rw [h.components, h.description, hj]
  exact ⟨rfl, rfl⟩

theorem startComponent_of_ne (h : expect ≠ .sqlTime) : expect.startComponent = 0 := by
  cases expect with
  | sqlTime => exact absurd rfl h
  | _ => rfl

theorem Denoted.congr_p {p q : List UInt8} (hp : ∀ c ∈ p, isBlank c = true)
    (h : Denoted expect now { s with p := q } v) : Denoted expect now { s with p := p } v := by
  obtain ⟨hsome, hnoTime, -, hclock, date, hle, hread, hv⟩ := h
  refine ⟨hsome, hnoTime, hp, hclock, date, hle, ?_, hv⟩
  split_ifs at hread ⊢ with hexpect
  · exact hread
  · obtain ⟨h1, h2, h3, h4, h5, h6, h7, h8⟩ := hread
    exact ⟨h1, h2, h3, h4, h5, h6, h7, h8⟩

theorem readAll_p (s : Scan) (items : List Item) : (s.readAll items).p = s.p := by
  induction items generalizing s with
  | nil => rfl
  | cons item items ih =>
    by_cases hlast : items = [] ∧ item.gap.mark = none
    · obtain ⟨rfl, hmark⟩ := hlast
      rw [readAll_singleton, if_pos hmark]
      rfl
    · rw [readAll_cons hlast, ih]
      rfl

theorem stringToDatetime_literal {lead : List UInt8}
    (hfits : Fits expect.startComponent false items)
    (hlength : items.length ≤ 7 - expect.startComponent) (hlead : ∀ c ∈ lead, isBlank c = true) :
    stringToDatetime expect now (lead ++ textOfItems items) = .ok v ↔
      Denoted expect now (scanned expect items) v := by
  obtain ⟨p, hp, hloop⟩ := scanLoop_items (lead ++ textOfItems items) expect now
    (s := .start expect.startComponent (lead ++ textOfItems items)) hfits hlength hlead
    rfl
  have hscan := readAll_with_p (.start expect.startComponent []) (lead ++ textOfItems items) p items
  change { (Scan.start expect.startComponent (lead ++ textOfItems items)).readAll items with
    p := p } = { scanned expect items with p := p } at hscan
  have hself : ({ scanned expect items with p := [] } : Scan) = scanned expect items := by
    have := readAll_p (.start expect.startComponent []) items
    change (scanned expect items).p = [] at this
    rw [← this]
  unfold stringToDatetime
  rw [hloop, hscan]
  rw [finish_eq_ok_iff]
  constructor
  · intro h
    rw [← hself]
    exact h.congr_p (by simp)
  · intro h
    exact h.congr_p hp

theorem stringToDatetime_trash {c : UInt8} {rest : List UInt8}
    (hfits : Fits expect.startComponent false items)
    (hlength : items.length ≤ 7 - expect.startComponent)
    (hc : ¬IsGap c ∧ digit c = false ∧ letter7 (upper7 c) = false) (v : Timestamp) :
    stringToDatetime expect now (textOfItems items ++ c :: rest) ≠ .ok v := by
  have hfollows : Follows items (c :: rest) := by
    intro c' hc'
    obtain rfl : c = c' := by simpa using hc'
    exact ⟨hc.1, hc.2.1, fun hl => absurd hl (by simp [hc.2.2])⟩
  have hblank : isBlank c = false := by
    cases h : isBlank c with
    | false => rfl
    | true => exact absurd (.inl h) hc.1
  obtain ⟨left, hleft⟩ := Nat.exists_eq_add_of_le' hlength
  obtain ⟨bs, hbs, hloop⟩ := scanLoop_append (textOfItems items ++ c :: rest) expect now left
    (s := .start expect.startComponent (textOfItems items ++ c :: rest)) hfits hfollows (by simp)
    (forall_mem_nil _) (nil_append _).symm
  unfold stringToDatetime
  rw [hleft, hloop]
  cases left with
  | zero =>
    change finish _ _ _ _ ≠ _
    rw [Ne, finish_eq_ok_iff]
    intro h
    have := h.blank c (by simp)
    rw [hblank] at this
    cases this
  | succ left =>
    have hskip : skipBlanks (bs ++ c :: rest) = c :: rest :=
      skipBlanks_append hbs fun c' hc' => by
        obtain rfl : c = c' := by simpa using hc'
        exact hblank
    rw [scanLoop, hskip]
    simp [readToken, digit_upper7, hc.2.1, hc.2.2]

end Literal

end Firebird.Jrd.Datetime
