import Firebird.Jrd.DatetimeValue

/-!
# Reading back formatted dates and times

`string_to_datetime` gives back what `datetime_to_text` has formatted, but for the years before 100
in the old form: they have one or two digits there, and two digits are taken for a year near the
current one. A fixed destination of `ttype_binary` is filled up with null characters, which are
refused.
-/
namespace Firebird.Jrd.Datetime

open Lib Lib.Decimal Common Cvt List

def padDigits (precision n : Nat) : List (Fin 10) :=
  List.replicate (precision - (digits n).length) 0 ++ digits n

section Numbers

variable {k n precision : Nat}

theorem padDigits_ne_nil (precision n : Nat) : padDigits precision n ≠ [] := by
  simp [padDigits, digits_ne_nil]

theorem number_padDigits (precision n : Nat) : number (padDigits precision n) = n := by
  rw [padDigits, number_zeros_append, number_digits]

theorem length_padDigits (h : n < 10 ^ (k + 1)) : (padDigits (k + 1) n).length = k + 1 := by
  have := length_digits_le h
  rw [padDigits, length_append, length_replicate]
  omega

theorem length_padDigits_one (n : Nat) : (padDigits 1 n).length = (digits n).length := by
  have := length_digits_pos n
  rw [padDigits, length_append, length_replicate]
  omega

theorem decimal_natCast (precision n : Nat) :
    decimal precision n = (padDigits precision n).map digitByte := by
  simp [decimal, padDigits]

def figure (precision n : Nat) : Component :=
  .number (padDigits precision n) (padDigits_ne_nil precision n)

theorem figure_text (precision n : Nat) : (figure precision n).text = decimal precision n :=
  (decimal_natCast precision n).symm

@[simp] theorem figure_english (precision n : Nat) : (figure precision n).english = false := rfl

theorem figure_value (h : n < 2 ^ 16) : (figure precision n).value = n := by
  rw [figure, Component.value, number_padDigits, Nat.mod_eq_of_lt h]

theorem figure_description (hk : k < 10) (h : n < 10 ^ (k + 1)) :
    (figure (k + 1) n).description = k + 1 := by
  rw [figure, Component.description, length_padDigits h]
  omega

theorem figure_one_description (h : n < 10 ^ (k + 1)) (hk : k < 10) :
    1 ≤ (figure 1 n).description ∧ (figure 1 n).description ≤ k + 1 ∧
      ∀ j : Nat, 10 ^ j ≤ n → (j : Int) < (figure 1 n).description := by
  have hpos := length_digits_pos n
  have hle := length_digits_le h
  have hlt := number_lt (digits n)
  rw [number_digits] at hlt
  rw [figure, Component.description, length_padDigits_one]
  refine ⟨by omega, by omega, fun j hj => ?_⟩
  have : j < (digits n).length := (Nat.pow_lt_pow_iff_right (by decide)).mp (hj.trans_lt hlt)
  omega

end Numbers

/-! ## What has been formatted -/

theorem mark_dash : isSeparator dash = true ∨ dash = point := by decide

theorem mark_colon : isSeparator colon = true ∨ colon = point := by decide

theorem mark_point : isSeparator point = true ∨ point = point := by decide

/-- `"%.3s"` -/
def shortName (k : Nat) : List UInt8 := (longMonthsUpper.getD k []).take 3

theorem names_shortName {k : Nat} (h : k < 12) : Names k (shortName k) := by
  have hthree : ∀ k < 12, 3 ≤ (shortName k).length := by decide
  have hbegins : ∀ k < 12, (shortName k).map upper7 <+: longMonthsUpper.getD k [] := by decide
  exact ⟨hthree k h, hbegins k h⟩

theorem month_lt (date : Calendar.Date) : date.month - 1 < 12 := by
  have := date.month_pos
  have := date.month_le
  omega

def isoItems (date : Calendar.Date) (gap : Gap) : List Item :=
  [⟨figure 4 date.year, .sign dash mark_dash⟩, ⟨figure 2 date.month, .sign dash mark_dash⟩,
   ⟨figure 2 date.day, gap⟩]

def oldItems (date : Calendar.Date) (gap : Gap) : List Item :=
  [⟨figure 1 date.day, .sign dash mark_dash⟩,
   ⟨.month (date.month - 1) _ (names_shortName (month_lt date)), .sign dash mark_dash⟩,
   ⟨figure 1 date.year, gap⟩]

def clockItems (precision : Nat) (times : Times) (time : Nat) (gap : Gap) : List Item :=
  [⟨figure precision times.hour, .sign colon mark_colon⟩,
   ⟨figure 2 times.min, .sign colon mark_colon⟩, ⟨figure 2 times.sec, .sign point mark_point⟩,
   ⟨figure 4 (time % secondsPrecision), gap⟩]

section Texts

variable {times : Times} {date : Calendar.Date} {gap : Gap}

theorem sign_text {c : UInt8} (h : isSeparator c = true ∨ c = point) : (Gap.sign c h).text = [c] :=
  rfl

theorem textOfItems_iso (h : TimeStamp.Shows times.date date) :
    textOfItems (isoItems date gap) = isoDate times ++ gap.text := by
  have hyear : times.date.year + 1900 = date.year := by rw [h.year]; omega
  have hmonth : times.date.mon + 1 = date.month := by rw [h.mon]; omega
  simp only [textOfItems, isoItems, isoDate, flatMap_cons, Item.text, figure_text, sign_text, hyear,
    hmonth, h.mday]
  simp

theorem textOfItems_old (h : TimeStamp.Shows times.date date) :
    textOfItems (oldItems date gap) = oldDate times ++ gap.text := by
  have hyear : times.date.year + 1900 = date.year := by rw [h.year]; omega
  have hmonth : times.date.mon.toNat = date.month - 1 := by rw [h.mon]; omega
  have hword : (Component.month (date.month - 1) _ (names_shortName (month_lt date))).text =
      (longMonthsUpper.getD (date.month - 1) []).take 3 := rfl
  simp only [textOfItems, oldItems, oldDate, flatMap_cons, Item.text, figure_text, sign_text, hyear,
    hmonth, h.mday, hword]
  simp

theorem textOfItems_clock (precision : Nat) (times : Times) (time : Nat) (gap : Gap) :
    textOfItems (clockItems precision times time gap) =
      clockText precision times time ++ gap.text := by
  simp only [textOfItems, clockItems, clockText, flatMap_cons, Item.text, figure_text, sign_text]
  simp

theorem textOfItems_append (items others : List Item) :
    textOfItems (items ++ others) = textOfItems items ++ textOfItems others :=
  flatMap_append

end Texts

section Reading

variable {s : Scan} {date : Calendar.Date} {now : Timestamp} {times : Times} {time : Nat}

theorem clock_of_holds {precision : Nat} {gap : Gap} (hprecision : precision = 1 ∨ precision = 2)
    (h : Holds s 3 (clockItems precision times time gap)) (hi : s.i > 2)
    (hdecode : times.hour = time / (secondsPrecision * 60) / 60 ∧
      times.min = time / (secondsPrecision * 60) % 60 ∧ times.sec = time / secondsPrecision % 60)
    (htime : time < 864000000) :
    timeRefused s.components s.description = false ∧
      s.clock + fraction (s.components 6) (s.description 6) = time := by
  obtain ⟨hhour, hmin, hsec⟩ := hdecode
  simp only [secondsPrecision] at hhour hmin hsec
  have hfrac : time % secondsPrecision < 10 ^ (3 + 1) := Nat.mod_lt _ (by decide)
  have hprecisionDigits : 1 ≤ (figure precision times.hour).description ∧
      (figure precision times.hour).description ≤ 2 := by
    rcases hprecision with rfl | rfl
    · have := @figure_one_description 1 times.hour (by omega) (by decide)
      omega
    · rw [@figure_description 1 times.hour (by decide) (by omega)]
      omega
  obtain ⟨hc3, hd3⟩ := h.component (j := 0) rfl
  obtain ⟨hc4, hd4⟩ := h.component (j := 1) rfl
  obtain ⟨hc5, hd5⟩ := h.component (j := 2) rfl
  obtain ⟨hc6, hd6⟩ := h.component (j := 3) rfl
  rw [figure_value (by omega)] at hc3 hc4 hc5
  rw [figure_value (hfrac.trans (by decide))] at hc6
  rw [@figure_description 1 _ (by decide) (by omega)] at hd4 hd5
  rw [@figure_description 3 _ (by decide) hfrac] at hd6
  have hfraction : fraction (s.components 6) (s.description 6) = time % secondsPrecision := by
    rw [hc6, hd6]
    rfl
  constructor
  · simp only [timeRefused, decide_eq_false_iff_not, hc3, hc4, hc5, hd3, hd4, hd5, hd6]
    omega
  · rw [hfraction, Scan.clock, if_pos hi, hc3, hc4, hc5]
    simp only [secondsPrecision]
    omega

theorem day_le (date : Calendar.Date) : date.day ≤ 31 :=
  date.day_le.trans (TimeStamp.monthLength_le _ _).1

theorem dateRead_iso {gap : Gap} (hle : date.year ≤ 9999) {rest : List Item}
    (h : Holds s 0 (isoItems date gap ++ rest)) :
    DateRead now s (positions s.description s.dotSeparatorSeen) date := by
  have hday := day_le date
  have hmonth := date.month_le
  obtain ⟨hc0, hd0⟩ := h.component (j := 0) rfl
  obtain ⟨hc1, hd1⟩ := h.component (j := 1) rfl
  obtain ⟨hc2, hd2⟩ := h.component (j := 2) rfl
  rw [figure_value (by omega)] at hc0 hc1 hc2
  rw [@figure_description 3 _ (by decide) (by omega)] at hd0
  rw [@figure_description 1 _ (by decide) (by omega)] at hd1 hd2
  have hpos : positions s.description s.dotSeparatorSeen = ⟨0, 1, 2⟩ := by
    rw [positions, if_pos (by rw [hd0]; decide)]
  rw [hpos]
  refine ⟨by simp [hd0], by simp [hd1], by simp [hd1], by simp [hd2], by simp [hd2], ?_, hc1, hc2⟩
  simp [resolveYear, hd0, hc0]

theorem resolveYear_eq_iff {current : Int} {year : Nat} (hpos : 1 ≤ year) (hle : year ≤ 9999) :
    resolveYear current year (figure 1 year).description = year - 1900 ↔ 100 ≤ year := by
  obtain ⟨hdigits, hdigits', hmany⟩ := @figure_one_description 3 year (by omega) (by decide)
  constructor
  · intro h
    by_contra hyear
    obtain ⟨-, hfew, -⟩ := @figure_one_description 1 year (by omega) (by decide)
    rw [resolveYear, if_neg (by omega), if_pos (by omega)] at h
    split_ifs at h <;> omega
  · intro h
    have := hmany 2 h
    rw [resolveYear, if_neg (by omega), if_neg (by omega)]

theorem dateRead_old {gap : Gap} (hle : date.year ≤ 9999) {rest : List Item}
    (h : Holds s 0 (oldItems date gap ++ rest)) {read : Calendar.Date} :
    DateRead now s (positions s.description s.dotSeparatorSeen) read ↔
      (read.year : Int) - 1900 =
          resolveYear (decode now).date.year date.year (figure 1 date.year).description ∧
        read.month = date.month ∧ read.day = date.day := by
  have hday := day_le date
  have hpos := date.month_pos
  obtain ⟨hc0, hd0⟩ := h.component (j := 0) rfl
  obtain ⟨hc1, hd1⟩ := h.component (j := 1) rfl
  obtain ⟨hc2, hd2⟩ := h.component (j := 2) rfl
  simp only [Nat.zero_add] at hc0 hc1 hc2 hd0 hd1 hd2
  rw [figure_value (by omega)] at hc0 hc2
  obtain ⟨hdigits, hdigits', -⟩ := @figure_one_description 1 date.day (by omega) (by decide)
  obtain ⟨-, hyear, -⟩ := @figure_one_description 3 date.year (by omega) (by decide)
  have hmonth : s.components 1 = date.month := by
    rw [hc1, Component.value]
    omega
  have henglish : s.description 1 = englishMonth := hd1
  have hposition : positions s.description s.dotSeparatorSeen = ⟨2, 1, 0⟩ := by
    rw [positions, if_neg (by omega), if_neg, if_pos henglish]
    rw [hd0, englishMonth]
    omega
  rw [hposition]
  constructor
  · intro hread
    have hy := hread.year
    have hm := hread.month
    have hd := hread.day
    simp only [hc2, hd2] at hy
    simp only [hmonth] at hm
    simp only [hc0] at hd
    exact ⟨hy, hm.symm, hd.symm⟩
  · rintro ⟨hy, hm, hd⟩
    refine ⟨by simp only [hd2]; omega, by simp [henglish, englishMonth],
      by simp [henglish, englishMonth], by simp only [hd0]; omega, by simp only [hd0]; omega, ?_,
      by simp only [hmonth, hm], by simp only [hc0, hd]⟩
    simp [hc2, hd2, hy]

end Reading

section Values

variable {expect : Expect} {now v : Timestamp} {items : List Item} {time k : Nat}
  {times : Times} {date : Calendar.Date}

theorem denoted_iff_dateRead (hexpect : expect ≠ .sqlTime) (hi : 0 < (scanned expect items).i)
    (hnoTime : expect = .sqlDate → (scanned expect items).i ≤ 2)
    (hclock : (scanned expect items).i > 2 → timeRefused (scanned expect items).components
      (scanned expect items).description = false)
    (htime : (scanned expect items).clock + fraction ((scanned expect items).components 6)
      ((scanned expect items).description 6) = time) :
    Denoted expect now (scanned expect items) v ↔ ∃ read : Calendar.Date, read.year ≤ 9999 ∧
      DateRead now (scanned expect items) (positions (scanned expect items).description
        (scanned expect items).dotSeparatorSeen) read ∧ v = ⟨read.ordinal - 678575, time⟩ := by
  have hstart : expect.startComponent = 0 := by
    cases expect with
    | sqlTime => exact absurd rfl hexpect
    | _ => rfl
  have hp : (scanned expect items).p = [] := readAll_p _ _
  constructor
  · rintro ⟨-, -, -, -, read, hle, hread, rfl⟩
    rw [if_neg hexpect] at hread
    exact ⟨read, hle, hread, by rw [htime]⟩
  · rintro ⟨read, hle, hread, rfl⟩
    exact ⟨by rw [hstart]; exact hi, hnoTime, by simp [hp], hclock, read, hle, by
      rwa [if_neg hexpect], by rw [htime]⟩

theorem closed_append {others : List Item} (h : others ≠ []) :
    Closed (items ++ others) ↔ Closed others := by
  rw [Closed, Closed, getLast?_append_of_ne_nil _ h]

theorem closed_clockItems (precision : Nat) (times : Times) (time k : Nat) :
    Closed (clockItems precision times time (.blanks k)) := ⟨_, rfl, rfl⟩

theorem denoted_timestamp {precision : Nat} (hprecision : precision = 1 ∨ precision = 2)
    (hlength : items.length = 3)
    (hdecode : times.hour = time / (secondsPrecision * 60) / 60 ∧
      times.min = time / (secondsPrecision * 60) % 60 ∧ times.sec = time / secondsPrecision % 60)
    (htime : time < 864000000) :
    Denoted .timestamp now (scanned .timestamp
        (items ++ clockItems precision times time (.blanks k))) v ↔
      ∃ read : Calendar.Date, read.year ≤ 9999 ∧
        DateRead now (scanned .timestamp (items ++ clockItems precision times time (.blanks k)))
          (positions (scanned .timestamp
            (items ++ clockItems precision times time (.blanks k))).description
          (scanned .timestamp
            (items ++ clockItems precision times time (.blanks k))).dotSeparatorSeen) read ∧
        v = ⟨read.ordinal - 678575, time⟩ := by
  have hholds := (holds_scanned .timestamp
    (items ++ clockItems precision times time (.blanks k))).append
  rw [hlength] at hholds
  have hclosed : Closed (items ++ clockItems precision times time (.blanks k)) :=
    (closed_append (by simp [clockItems])).mpr (closed_clockItems precision times time k)
  have hi := (readAll_i (.start Expect.timestamp.startComponent []) _).1 hclosed
  rw [length_append, hlength] at hi
  change (scanned .timestamp _).i + 1 = 0 + (3 + 4) at hi
  obtain ⟨hrefused, hclock⟩ := clock_of_holds hprecision hholds (by omega) hdecode htime
  exact denoted_iff_dateRead (by decide) (by omega) (fun h => nomatch h) (fun _ => hrefused) hclock

theorem denoted_date (hexpect : expect ≠ .sqlTime) (hlength : items.length = 3)
    (hclosed : Closed items) :
    Denoted expect now (scanned expect items) v ↔
      ∃ read : Calendar.Date, read.year ≤ 9999 ∧
        DateRead now (scanned expect items) (positions (scanned expect items).description
          (scanned expect items).dotSeparatorSeen) read ∧ v = ⟨read.ordinal - 678575, 0⟩ := by
  have hstart : expect.startComponent = 0 := by
    cases expect with
    | sqlTime => exact absurd rfl hexpect
    | _ => rfl
  have hi := (readAll_i (.start expect.startComponent []) _).1 hclosed
  rw [hlength] at hi
  change (scanned expect items).i + 1 = expect.startComponent + 3 at hi
  have hholds := holds_scanned expect items
  rw [hstart] at hholds
  have hc6 := hholds.components 6
  have hd6 := hholds.description 6
  rw [getElem?_eq_none (by omega)] at hc6 hd6
  refine denoted_iff_dateRead hexpect (by omega) (fun _ => by omega) (fun h => by omega) ?_
  rw [hc6, hd6, Scan.clock, if_neg (by omega)]
  rfl

theorem fits_clockItems {i : Nat} {haveEnglishMonth : Bool} {precision : Nat} {gap : Gap} :
    Fits i haveEnglishMonth (clockItems precision times time gap) := by
  simp [clockItems, Fits, Component.Allowed, figure, Item.Apart, sign_text]

theorem fits_isoItems {gap : Gap} {rest : List Item} (hgap : gap.text ≠ [] ∨ rest = [])
    (hrest : Fits 3 false rest) : Fits 0 false (isoItems date gap ++ rest) := by
  simp only [isoItems, Fits, cons_append, Item.Apart, sign_text]
  refine ⟨trivial, by simp, trivial, by simp, trivial, ?_, hrest⟩
  rcases hgap with hgap | rfl
  · exact fun h => absurd h hgap
  · simp

theorem fits_oldItems {gap : Gap} {rest : List Item} (hgap : gap.text ≠ [] ∨ rest = [])
    (hrest : Fits 3 true rest) : Fits 0 false (oldItems date gap ++ rest) := by
  simp only [oldItems, Fits, cons_append, Item.Apart]
  refine ⟨trivial, by simp, ⟨by decide, rfl⟩, by simp, trivial, ?_, hrest⟩
  rcases hgap with hgap | rfl
  · exact fun h => absurd h hgap
  · simp

theorem blanks_text (k : Nat) : (Gap.blanks k).text = replicate k blank := by
  simp [Gap.text, Gap.blanks]

theorem stringToDatetime_items (expect : Expect) (hfits : Fits expect.startComponent false items)
    (hlength : items.length ≤ 7 - expect.startComponent) :
    stringToDatetime expect now (textOfItems items) = .ok v ↔
      Denoted expect now (scanned expect items) v :=
  @stringToDatetime_literal expect now v items [] hfits hlength (by simp)

theorem reread_time (h : times.hour = time / (secondsPrecision * 60) / 60 ∧
      times.min = time / (secondsPrecision * 60) % 60 ∧ times.sec = time / secondsPrecision % 60)
    (htime : time < 864000000) (k : Nat) :
    stringToDatetime .sqlTime now (clockText 2 times time ++ replicate k blank) =
      .ok ⟨timeDate.ordinal - 678575, time⟩ := by
  have hholds := holds_scanned .sqlTime (clockItems 2 times time (.blanks k))
  have hi := (readAll_i (.start Expect.sqlTime.startComponent []) _).1
    (closed_clockItems 2 times time k)
  change (scanned .sqlTime _).i + 1 = 3 + 4 at hi
  obtain ⟨hrefused, hclock⟩ := clock_of_holds (.inr rfl) hholds (by omega) h htime
  rw [← blanks_text, ← textOfItems_clock, stringToDatetime_items .sqlTime fits_clockItems le_rfl]
  have hp : (scanned .sqlTime (clockItems 2 times time (.blanks k))).p = [] := readAll_p _ _
  have hstart : Expect.sqlTime.startComponent = 3 := rfl
  exact ⟨by omega, (fun h => nomatch h), by simp [hp], fun _ => hrefused, timeDate, by decide,
    by rw [if_pos rfl], by rw [hclock]⟩

theorem reread_isoDate (hexpect : expect ≠ .sqlTime) (h : TimeStamp.Shows times.date date)
    (hle : date.year ≤ 9999) (k : Nat) :
    stringToDatetime expect now (isoDate times ++ replicate k blank) =
      .ok ⟨date.ordinal - 678575, 0⟩ := by
  have hstart := startComponent_of_ne hexpect
  have hfits := @fits_isoItems date (.blanks k) [] (.inr rfl) trivial
  have hholds := holds_scanned expect (isoItems date (.blanks k) ++ [])
  rw [hstart] at hholds
  rw [← blanks_text, ← textOfItems_iso h, ← append_nil (isoItems _ _),
    stringToDatetime_items expect (by rwa [hstart]) (by rw [hstart]; exact (by decide : 3 ≤ 7)),
    denoted_date hexpect rfl ⟨_, rfl, rfl⟩]
  exact ⟨date, hle, dateRead_iso hle hholds, rfl⟩

theorem one_blank_ne_nil : (Gap.blanks 1).text ≠ [] := by
  rw [blanks_text]
  decide

theorem reread_isoTimestamp (hdate : TimeStamp.Shows times.date date) (hle : date.year ≤ 9999)
    (h : times.hour = time / (secondsPrecision * 60) / 60 ∧
      times.min = time / (secondsPrecision * 60) % 60 ∧ times.sec = time / secondsPrecision % 60)
    (htime : time < 864000000) (k : Nat) :
    stringToDatetime .timestamp now
        (isoDate times ++ blank :: clockText 2 times time ++ replicate k blank) =
      .ok ⟨date.ordinal - 678575, time⟩ := by
  have htext : isoDate times ++ blank :: clockText 2 times time ++ replicate k blank =
      textOfItems (isoItems date (.blanks 1) ++ clockItems 2 times time (.blanks k)) := by
    rw [textOfItems_append, textOfItems_iso hdate, textOfItems_clock, blanks_text, blanks_text]
    simp
  rw [htext, stringToDatetime_items .timestamp
    (fits_isoItems (.inl one_blank_ne_nil) fits_clockItems) le_rfl,
    denoted_timestamp (.inr rfl) rfl h htime]
  exact ⟨date, hle, dateRead_iso hle (holds_scanned .timestamp _), rfl⟩

def OldRead (now : Timestamp) (date read : Calendar.Date) : Prop :=
  (read.year : Int) - 1900 =
      resolveYear (decode now).date.year date.year (figure 1 date.year).description ∧
    read.month = date.month ∧ read.day = date.day

theorem reread_oldDate (hdate : TimeStamp.Shows times.date date) (hle : date.year ≤ 9999)
    (k : Nat) :
    stringToDatetime .timestamp now (oldDate times ++ replicate k blank) = .ok v ↔
      ∃ read : Calendar.Date, read.year ≤ 9999 ∧ OldRead now date read ∧
        v = ⟨read.ordinal - 678575, 0⟩ := by
  have hfits := @fits_oldItems date (.blanks k) [] (.inr rfl) trivial
  rw [← blanks_text, ← textOfItems_old hdate, ← append_nil (oldItems _ _),
    stringToDatetime_items .timestamp hfits (by decide : 3 ≤ 7),
    denoted_date (by decide) rfl ⟨_, rfl, rfl⟩]
  simp only [dateRead_old hle (holds_scanned .timestamp (oldItems date (.blanks k) ++ [])), OldRead]

theorem reread_oldTimestamp (hdate : TimeStamp.Shows times.date date) (hle : date.year ≤ 9999)
    (h : times.hour = time / (secondsPrecision * 60) / 60 ∧
      times.min = time / (secondsPrecision * 60) % 60 ∧ times.sec = time / secondsPrecision % 60)
    (htime : time < 864000000) (k : Nat) :
    stringToDatetime .timestamp now
        (oldDate times ++ blank :: clockText 1 times time ++ replicate k blank) = .ok v ↔
      ∃ read : Calendar.Date, read.year ≤ 9999 ∧ OldRead now date read ∧
        v = ⟨read.ordinal - 678575, time⟩ := by
  have htext : oldDate times ++ blank :: clockText 1 times time ++ replicate k blank =
      textOfItems (oldItems date (.blanks 1) ++ clockItems 1 times time (.blanks k)) := by
    rw [textOfItems_append, textOfItems_old hdate, textOfItems_clock, blanks_text, blanks_text]
    simp
  rw [htext, stringToDatetime_items .timestamp
    (fits_oldItems (.inl one_blank_ne_nil) fits_clockItems) le_rfl,
    denoted_timestamp (.inl rfl) rfl h htime]
  simp [dateRead_old hle (holds_scanned .timestamp _), OldRead]

theorem oldRead_self_iff (hle : date.year ≤ 9999) :
    (∃ read : Calendar.Date, read.year ≤ 9999 ∧ OldRead now date read ∧
      (⟨date.ordinal - 678575, time⟩ : Timestamp) = ⟨read.ordinal - 678575, time⟩) ↔
      100 ≤ date.year := by
  constructor
  · rintro ⟨read, hread, ⟨hyear, -⟩, heq⟩
    rw [Timestamp.mk.injEq] at heq
    have hsame := year_eq_of_ordinal hread hle heq.1.symm
    rw [hsame] at hyear
    exact (resolveYear_eq_iff date.year_pos hle).mp hyear.symm
  · intro hyear
    exact ⟨date, hle, ⟨((resolveYear_eq_iff date.year_pos hle).mpr hyear).symm, rfl, rfl⟩, rfl⟩

end Values

def Value.Valid : Value → Prop
  | sqlTime time => time < 864000000
  | sqlDate date => TimeStamp.InRange date
  | timestamp ts => TimeStamp.InRange ts.date ∧ ts.time < 864000000

def Value.expect : Value → Expect
  | sqlTime _ => .sqlTime
  | sqlDate _ => .sqlDate
  | timestamp _ => .timestamp

/-- The value is read back from what the destination holds. -/
def RoundTrips (version4 : Bool) (now : Timestamp) (value : Value) (dst : Dsc) : Prop :=
  ∃ string ts, datetimeToText version4 value dst = .ok string ∧
    stringToDatetime value.expect now string = .ok ts ∧ value.expect.value ts = value

def ShortYear (version4 : Bool) : Value → Prop
  | .timestamp ts => version4 = true ∧ ∃ date : Calendar.Date, date.year < 100 ∧
      TimeStamp.encodeDate (TimeStamp.tmOf date) = ts.date
  | _ => False

def NullFilled (version4 : Bool) (value : Value) (dst : Dsc) : Prop :=
  dst.dtype = .text ∧ dst.binary = true ∧ (textOf version4 value).length < dst.length

section RoundTrip

variable {version4 : Bool} {now : Timestamp} {value : Value} {dst : Dsc} {k : Nat}

theorem datetimeToText_eq (h : (textOf version4 value).length ≤ capacity dst) :
    datetimeToText version4 value dst = .ok (textOf version4 value ++ replicate
      (if dst.dtype = .text then dst.length - (textOf version4 value).length else 0) dst.pad) := by
  have htake := take_of_length_le h
  have hmove : moveText (textOf version4 value) dst = .ok (textOf version4 value ++ replicate
      (if dst.dtype = .text then dst.length - (textOf version4 value).length else 0) dst.pad) := by
    simp [moveText, Nat.min_eq_left h]
  unfold datetimeToText
  cases value with
  | timestamp ts => simp only [htake, ite_self, hmove]
  | sqlTime time => exact hmove
  | sqlDate date => exact hmove

theorem decode_clock (ts : Timestamp) :
    (decode ts).hour = ts.time / (secondsPrecision * 60) / 60 ∧
      (decode ts).min = ts.time / (secondsPrecision * 60) % 60 ∧
      (decode ts).sec = ts.time / secondsPrecision % 60 := ⟨rfl, rfl, rfl⟩

theorem exists_date_of_inRange {n : Int} (h : TimeStamp.InRange n) :
    ∃ date : Calendar.Date, date.year ≤ 9999 ∧ n = date.ordinal - 678575 ∧
      TimeStamp.Shows (TimeStamp.decodeDate n) date := by
  obtain ⟨date, hle, rfl⟩ := h
  have hn := TimeStamp.encodeDate_eq (TimeStamp.shows_tmOf date) hle
  rw [hn, TimeStamp.decodeDate_eq hle]
  exact ⟨date, hle, rfl, rfl, rfl, rfl⟩

theorem textOf_old (ts : Timestamp) : textOf true (.timestamp ts) =
    if ts.time = 0 then oldDate (decode ts)
    else oldDate (decode ts) ++ blank :: clockText 1 (decode ts) ts.time := by
  have hzero : ts.time = 0 → (decode ts).hour = 0 ∧ (decode ts).min = 0 ∧ (decode ts).sec = 0 := by
    intro h
    simp [decode, h]
  have htext : textOf true (.timestamp ts) = oldDate (decode ts) ++
      if (decode ts).hour ≠ 0 ∨ (decode ts).min ≠ 0 ∨ (decode ts).sec ≠ 0 ∨ ts.time ≠ 0 then
        blank :: clockText 1 (decode ts) ts.time
      else [] := rfl
  rw [htext]
  by_cases h : ts.time = 0
  · simp [h, hzero h]
  · rw [if_neg h, if_pos (Or.inr (Or.inr (Or.inr h)))]

theorem shortYear_iff {ts : Timestamp} {date : Calendar.Date} (hle : date.year ≤ 9999)
    (hdate : ts.date = date.ordinal - 678575) :
    ShortYear version4 (.timestamp ts) ↔ version4 = true ∧ date.year < 100 := by
  refine and_congr_right fun _ => ⟨fun ⟨other, hyear, hother⟩ => ?_, fun h => ⟨date, h, ?_⟩⟩
  · have hle' : other.year ≤ 9999 := by omega
    rw [TimeStamp.encodeDate_eq (TimeStamp.shows_tmOf other) hle', hdate] at hother
    rwa [← year_eq_of_ordinal hle' hle hother]
  · rw [TimeStamp.encodeDate_eq (TimeStamp.shows_tmOf date) hle, hdate]

theorem reread_iff (hvalid : value.Valid) (k : Nat) :
    (∃ ts, stringToDatetime value.expect now
        (textOf version4 value ++ replicate k blank) = .ok ts ∧
      value.expect.value ts = value) ↔ ¬ShortYear version4 value := by
  cases value with
  | sqlTime time => exact iff_of_true ⟨_, reread_time (decode_clock ⟨0, time⟩) hvalid k, rfl⟩ id
  | sqlDate n =>
    obtain ⟨date, hle, hn, hshows⟩ := exists_date_of_inRange hvalid
    have hread := @reread_isoDate .sqlDate now (decode ⟨n, 0⟩) date (by decide) hshows hle k
    refine iff_of_true ⟨_, hread, ?_⟩ id
    rw [hn]
    rfl
  | timestamp ts =>
    obtain ⟨hdate, htime⟩ := hvalid
    obtain ⟨date, hle, hn, hshows⟩ := exists_date_of_inRange hdate
    have hself : ts = ⟨date.ordinal - 678575, ts.time⟩ := by rw [← hn]
    rw [shortYear_iff hle hn]
    cases version4 with
    | false =>
      refine iff_of_true ⟨_, reread_isoTimestamp hshows hle (decode_clock ts) htime k, ?_⟩ (by simp)
      rw [← hself]
      rfl
    | true =>
      have hvalue : ∀ v : Timestamp, Expect.timestamp.value v = .timestamp ts ↔ v = ts := fun v =>
        ⟨fun h => Value.timestamp.inj h, fun h => congrArg _ h⟩
      change (∃ v, stringToDatetime .timestamp now _ = .ok v ∧ Expect.timestamp.value v = _) ↔ _
      simp only [hvalue, exists_eq_right, true_and, not_lt]
      rw [← @oldRead_self_iff now ts.time date hle, ← hself, textOf_old]
      split_ifs with hzero
      · rw [reread_oldDate hshows hle, hzero]
      · rw [reread_oldTimestamp hshows hle (decode_clock ts) htime]

theorem exists_items (hvalid : value.Valid) : ∃ items, textOf version4 value = textOfItems items ∧
    Fits value.expect.startComponent false items ∧
    items.length ≤ 7 - value.expect.startComponent := by
  cases value with
  | sqlTime time =>
    refine ⟨clockItems 2 (decode ⟨0, time⟩) time .none, ?_, fits_clockItems, le_rfl⟩
    rw [textOfItems_clock]
    exact (append_nil _).symm
  | sqlDate n =>
    obtain ⟨date, -, -, hshows⟩ := exists_date_of_inRange hvalid
    refine ⟨isoItems date .none ++ [], ?_, fits_isoItems (.inr rfl) trivial, (by decide : 3 ≤ 7)⟩
    rw [append_nil, @textOfItems_iso (decode ⟨n, 0⟩) date .none hshows]
    exact (append_nil _).symm
  | timestamp ts =>
    obtain ⟨date, -, -, hshows⟩ := exists_date_of_inRange hvalid.1
    cases version4 with
    | false =>
      refine ⟨isoItems date (.blanks 1) ++ clockItems 2 (decode ts) ts.time .none, ?_,
        fits_isoItems (.inl one_blank_ne_nil) fits_clockItems, le_rfl⟩
      rw [textOfItems_append, @textOfItems_iso (decode ts) date _ hshows, textOfItems_clock,
        blanks_text]
      simp [textOf, Value.ts, Gap.text, Gap.none]
    | true =>
      rw [textOf_old]
      split_ifs with hzero
      · refine ⟨oldItems date .none ++ [], ?_, fits_oldItems (.inr rfl) trivial,
          (by decide : 3 ≤ 7)⟩
        rw [append_nil, @textOfItems_old (decode ts) date _ hshows]
        exact (append_nil _).symm
      · refine ⟨oldItems date (.blanks 1) ++ clockItems 1 (decode ts) ts.time .none, ?_,
          fits_oldItems (.inl one_blank_ne_nil) fits_clockItems, le_rfl⟩
        rw [textOfItems_append, @textOfItems_old (decode ts) date _ hshows, textOfItems_clock,
          blanks_text]
        simp [Gap.text, Gap.none]

theorem null_is_trash : ¬IsGap 0 ∧ digit 0 = false ∧ letter7 (upper7 0) = false :=
  ⟨by rintro (h | h | h) <;> exact absurd h (by decide), by decide, by decide⟩

/-- The value comes back unless it is a timestamp before the year 100 in the old form, or the text
has null characters behind it. -/
theorem roundTrips_iff (version4 : Bool) (now : Timestamp) (value : Value) (dst : Dsc)
    (hvalid : value.Valid) (hfits : (textOf version4 value).length ≤ capacity dst) :
    RoundTrips version4 now value dst ↔
      ¬ShortYear version4 value ∧ ¬NullFilled version4 value dst := by
  unfold RoundTrips
  simp only [datetimeToText_eq hfits, Except.ok.injEq, exists_and_left, exists_eq_left']
  by_cases hnull : NullFilled version4 value dst
  · refine iff_of_false ?_ fun h => h.2 hnull
    rintro ⟨ts, hread, -⟩
    obtain ⟨hdtype, hbinary, hlt⟩ := hnull
    obtain ⟨items, htext, hitems, hlength⟩ := @exists_items version4 value hvalid
    obtain ⟨k, hk⟩ := Nat.exists_eq_add_of_lt hlt
    have hfill : dst.length - (textOf version4 value).length = k + 1 := by omega
    rw [if_pos hdtype, hfill, replicate_succ, htext] at hread
    refine stringToDatetime_trash hitems hlength ?_ ts hread
    rw [Dsc.pad, hbinary]
    exact null_is_trash
  · have hpad : replicate (if dst.dtype = .text then
        dst.length - (textOf version4 value).length else 0) dst.pad =
        replicate (if dst.dtype = .text then
          dst.length - (textOf version4 value).length else 0) blank := by
      by_cases hdtype : dst.dtype = .text
      · by_cases hbinary : dst.binary = true
        · have hle : dst.length ≤ (textOf version4 value).length :=
            Nat.not_lt.mp fun h => hnull ⟨hdtype, hbinary, h⟩
          rw [if_pos hdtype, Nat.sub_eq_zero_of_le hle]
          rfl
        · rw [Dsc.pad, if_neg hbinary]
      · rw [if_neg hdtype]
        rfl
    rw [hpad, reread_iff hvalid]
    exact (and_iff_left hnull).symm

def roomy : Dsc := ⟨.varying, false, List.replicate 32 0, by decide⟩

/-- 2009-06-01 comes back in both forms. -/
theorem roundTrips_iff_timestamp :
    RoundTrips true ⟨60000, 0⟩ (.timestamp ⟨54983, 451234567⟩) roomy := by
  refine (roundTrips_iff true ⟨60000, 0⟩ (.timestamp ⟨54983, 451234567⟩) roomy
    ⟨TimeStamp.inRange_iff.mpr (by decide), by decide⟩ (by decide +kernel)).mpr ⟨?_, ?_⟩
  · rintro ⟨-, date, hyear, hdate⟩
    have hlt := TimeStamp.ordinal_lt date
    rw [Calendar.daysBeforeYear_eq] at hlt
    rw [TimeStamp.encodeDate_eq (TimeStamp.shows_tmOf date) (by omega)] at hdate
    dsimp only at hdate
    omega
  · exact fun h => absurd h.1 (by decide)

/-- 0005-01-01 in the old form is `1-JAN-5`, which is a date of 2005. -/
theorem old_form_not_roundTrips :
    ¬RoundTrips true ⟨60000, 0⟩ (.timestamp ⟨-677114, 0⟩) roomy := by
  rintro ⟨string, ts, htext, hread, hvalue⟩
  obtain rfl : string = bytes ['1', '-', 'J', 'A', 'N', '-', '5'] := by
    have h : datetimeToText true (.timestamp ⟨-677114, 0⟩) roomy =
      .ok (bytes ['1', '-', 'J', 'A', 'N', '-', '5']) := by decide +kernel
    rw [h] at htext
    exact (Except.ok.inj htext).symm
  have h : stringToDatetime .timestamp ⟨60000, 0⟩ (bytes ['1', '-', 'J', 'A', 'N', '-', '5']) =
    .ok ⟨53371, 0⟩ := by decide +kernel
  change stringToDatetime .timestamp _ _ = _ at hread
  rw [h, Except.ok.injEq] at hread
  rw [← hread] at hvalue
  exact absurd hvalue (by decide)

end RoundTrip

end Firebird.Jrd.Datetime
