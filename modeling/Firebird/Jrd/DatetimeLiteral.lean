import Firebird.Jrd.CvtDatetime
import Mathlib.Data.List.GetD
import Mathlib.Data.List.TakeWhile

/-!
# Literals of dates and times

A literal is a list of components with gaps behind them. The loop of `string_to_datetime` finds the
components of a literal.
-/
namespace Firebird.Jrd.Datetime

open Lib.Decimal Common Cvt List

/-- At least three letters with which the name of a month begins. -/
structure Names (k : Nat) (word : List UInt8) : Prop where
  three : 3 ≤ word.length
  begins : word.map upper7 <+: longMonthsUpper.getD k []

inductive Component
  | number (ds : List (Fin 10)) (ne_nil : ds ≠ [])
  | month (k : Nat) (word : List UInt8) (names : Names k word)

namespace Component

def text : Component → List UInt8
  | number ds _ => ds.map digitByte
  | month _ word _ => word

/-- What stands in `components`. -/
def value : Component → Nat
  | number ds _ => Lib.Decimal.number ds % 2 ^ 16
  | month k _ _ => k + 1

/-- What stands in `description`. -/
def description : Component → Int
  | number ds _ => (ds.length % 2 ^ 16 : Nat)
  | month _ _ _ => englishMonth

def english : Component → Bool
  | number _ _ => false
  | month _ _ _ => true

@[simp] theorem english_number (ds : List (Fin 10)) (h : ds ≠ []) : (number ds h).english = false :=
  rfl

@[simp] theorem english_month (k : Nat) (word : List UInt8) (h : Names k word) :
    (month k word h).english = true := rfl

end Component

/-- Blanks, and then a separator that may have blanks behind it. -/
structure Gap where
  before : List UInt8
  mark : Option UInt8
  after : List UInt8
  before_blank : ∀ c ∈ before, isBlank c = true
  mark_separator : ∀ c ∈ mark, isSeparator c = true ∨ c = point
  after_blank : ∀ c ∈ after, isBlank c = true
  after_eq_nil : mark = none → after = []

namespace Gap

def text (gap : Gap) : List UInt8 := gap.before ++ gap.mark.toList ++ gap.after

def none : Gap := ⟨[], .none, [], by simp, by simp, by simp, fun _ => rfl⟩

def sign (c : UInt8) (h : isSeparator c = true ∨ c = point) : Gap :=
  ⟨[], some c, [], by simp, by simp [h], by simp, by simp⟩

def blanks (k : Nat) : Gap :=
  ⟨List.replicate k blank, .none, [], by simp [isBlank], by simp, by simp, fun _ => rfl⟩

end Gap

structure Item where
  component : Component
  gap : Gap

def Item.text (item : Item) : List UInt8 := item.component.text ++ item.gap.text

def textOfItems (items : List Item) : List UInt8 := items.flatMap Item.text

def Component.Allowed (i : Nat) (haveEnglishMonth : Bool) : Component → Prop
  | number _ _ => True
  | month _ _ _ => i < 2 ∧ haveEnglishMonth = false

def Item.Apart (item : Item) (rest : List Item) : Prop :=
  item.gap.text = [] → item.component.english = false →
    ∀ next ∈ rest.head?, next.component.english = true

/-- The items are read from the component `i` on. -/
def Fits : Nat → Bool → List Item → Prop
  | _, _, [] => True
  | i, haveEnglishMonth, item :: rest =>
    item.component.Allowed i haveEnglishMonth ∧ item.Apart rest ∧
      Fits (i + 1) (haveEnglishMonth || item.component.english) rest

/-! ## Characters -/

section Characters

variable {c : UInt8}

theorem le_toNat {a b : UInt8} : a ≤ b ↔ a.toNat ≤ b.toNat := UInt8.le_iff_toNat_le

theorem isBlank_iff : isBlank c = true ↔ c = blank ∨ c = tab := by
  simp [isBlank]

theorem isSeparator_iff : isSeparator c = true ↔ c = slash ∨ c = dash ∨ c = comma ∨ c = colon := by
  simp [isSeparator]

theorem not_letter_of_digit (h : digit c = true) : letter7 (upper7 c) = false := by
  obtain ⟨d, rfl⟩ := exists_digitByte h
  revert d
  decide

theorem not_digit_of_letter (h : letter7 (upper7 c) = true) : digit c = false := by
  cases hd : digit c with
  | false => rfl
  | true => exact absurd h (by simp [not_letter_of_digit hd])

theorem digit_upper7 (c : UInt8) : digit (upper7 c) = digit c := by
  unfold upper7
  split_ifs with h
  · have hlo : 97 ≤ c.toNat := le_toNat.mp h.1
    have hhi : c.toNat ≤ 122 := le_toNat.mp h.2
    have hvalue : (c - 97 + 65).toNat = c.toNat - 32 := by
      have h97 : (97 : UInt8).toNat = 97 := rfl
      have h65 : (65 : UInt8).toNat = 65 := rfl
      rw [UInt8.toNat_add, UInt8.toNat_sub_of_le _ _ h.1, h97, h65]
      omega
    have h57 : (57 : UInt8).toNat = 57 := rfl
    simp only [digit, le_toNat]
    exact decide_eq_decide.mpr (by omega)
  · rfl

def IsGap (c : UInt8) : Prop := isBlank c = true ∨ isSeparator c = true ∨ c = point

theorem IsGap.not_digit (h : IsGap c) : digit c = false := by
  rcases h with h | h | rfl
  · rcases isBlank_iff.mp h with rfl | rfl <;> decide
  · rcases isSeparator_iff.mp h with rfl | rfl | rfl | rfl <;> decide
  · decide

theorem IsGap.not_letter (h : IsGap c) : letter7 (upper7 c) = false := by
  rcases h with h | h | rfl
  · rcases isBlank_iff.mp h with rfl | rfl <;> decide
  · rcases isSeparator_iff.mp h with rfl | rfl | rfl | rfl <;> decide
  · decide

theorem not_isBlank_of_mark (h : isSeparator c = true ∨ c = point) : isBlank c = false := by
  rcases h with h | rfl
  · rcases isSeparator_iff.mp h with rfl | rfl | rfl | rfl <;> decide
  · decide

theorem not_isBlank_digitByte : ∀ d : Fin 10, isBlank (digitByte d) = false := by decide

theorem not_isBlank_of_letter (h : letter7 (upper7 c) = true) : isBlank c = false := by
  cases hb : isBlank c with
  | false => rfl
  | true => exact absurd h (by simp [IsGap.not_letter (.inl hb)])

end Characters

def Starts (p : List UInt8) : Prop := ∀ c ∈ p.head?, isBlank c = false

theorem skipBlanks_append {bs p : List UInt8} (hbs : ∀ c ∈ bs, isBlank c = true) (hp : Starts p) :
    skipBlanks (bs ++ p) = p := by
  rw [skipBlanks, dropWhile_append_of_pos hbs]
  cases p with
  | nil => rfl
  | cons c p => rw [dropWhile_cons_of_neg (by simp [hp c rfl])]

theorem exists_skipBlanks (p : List UInt8) :
    ∃ bs, (∀ c ∈ bs, isBlank c = true) ∧ p = bs ++ skipBlanks p ∧ Starts (skipBlanks p) := by
  refine ⟨p.takeWhile isBlank, fun c hc => mem_takeWhile_imp hc,
    takeWhile_append_dropWhile.symm, fun c hc => ?_⟩
  have := head?_dropWhile_not isBlank p
  rw [skipBlanks, Option.mem_def] at hc
  rw [hc] at this
  simpa using this

theorem number_cons (d : Fin 10) (ds : List (Fin 10)) :
    number (d :: ds) = d * 10 ^ ds.length + number ds := by
  have hone : number [d] = d := by
    rw [← nil_append [d], number_concat, number_nil, Nat.zero_mul, Nat.zero_add]
  rw [← singleton_append, number_append, hone]

theorem readDigits_map (ds : List (Fin 10)) {rest : List UInt8}
    (hrest : ∀ c ∈ rest.head?, digit c = false) (n precision : Nat) :
    readDigits (ds.map digitByte ++ rest) (n % 2 ^ 16) (precision % 2 ^ 16) =
      ((n * 10 ^ ds.length + number ds) % 2 ^ 16, (precision + ds.length) % 2 ^ 16, rest) := by
  induction ds generalizing n precision with
  | nil =>
    cases rest with
    | nil => simp [readDigits]
    | cons c rest =>
      have hc : digit c = false := hrest c rfl
      simp [readDigits, hc]
  | cons d ds ih =>
    have hd : (digitByte d).toNat - 48 = d := by revert d; decide
    have hn : (n % 2 ^ 16 * 10 + d) % 2 ^ 16 = (n * 10 + d) % 2 ^ 16 := by omega
    have hp : (precision % 2 ^ 16 + 1) % 2 ^ 16 = (precision + 1) % 2 ^ 16 := by omega
    have hsum : (n * 10 + d) * 10 ^ ds.length + number ds =
        n * 10 ^ (ds.length + 1) + number (d :: ds) := by
      rw [number_cons, Nat.pow_succ]
      ring
    rw [map_cons, cons_append, readDigits, if_pos (digit_digitByte d), hd, hn, hp, ih,
      hsum, length_cons, Nat.add_assoc, Nat.add_comm 1]

theorem readDigits_digits (ds : List (Fin 10)) {rest : List UInt8}
    (hrest : ∀ c ∈ rest.head?, digit c = false) :
    readDigits (ds.map digitByte ++ rest) 0 0 =
      (number ds % 2 ^ 16, ds.length % 2 ^ 16, rest) := by
  have := readDigits_map ds hrest 0 0
  rwa [Nat.zero_mul, Nat.zero_add, Nat.zero_add, Nat.zero_mod] at this

theorem readLetters_word {word rest : List UInt8} {room : Nat}
    (hword : ∀ c ∈ word, letter7 (upper7 c) = true) (hroom : word.length ≤ room)
    (hrest : word.length = room ∨ ∀ c ∈ rest.head?, letter7 (upper7 c) = false) :
    readLetters room (word ++ rest) = (word.map upper7, rest) := by
  induction word generalizing room with
  | nil =>
    cases room with
    | zero => rfl
    | succ room =>
      cases rest with
      | nil => rfl
      | cons c rest =>
        have hc : letter7 (upper7 c) = false := (hrest.resolve_left (by simp)) c rfl
        simp [readLetters, hc]
  | cons c word ih =>
    obtain ⟨room, rfl⟩ := Nat.exists_eq_add_of_le' (Nat.lt_of_lt_of_le (Nat.succ_pos _) hroom)
    rw [forall_mem_cons] at hword
    have htail : readLetters room (word ++ rest) = (word.map upper7, rest) :=
      ih hword.2 (by simpa using hroom) (hrest.imp_left (by simp))
    rw [cons_append, readLetters, if_pos hword.1, htail, map_cons]

theorem months_letters : ∀ name ∈ longMonthsUpper, ∀ c ∈ name, letter7 c = true := by
  decide +kernel

theorem months_length : ∀ name ∈ longMonthsUpper, 3 ≤ name.length ∧ name.length ≤ 9 := by decide

theorem months_differ : ∀ j < 12, ∀ k < 12,
    (longMonthsUpper.getD j []).take 3 = (longMonthsUpper.getD k []).take 3 → j = k := by decide

namespace Names

variable {j k : Nat} {word : List UInt8}

theorem lt (h : Names k word) : k < 12 := by
  by_contra hk
  have hnil : longMonthsUpper.getD k [] = [] :=
    getD_eq_default _ _ (Nat.not_lt.mp hk)
  have hle := h.begins.length_le
  rw [hnil, length_map] at hle
  have := h.three
  simp at hle
  simp [hle] at this

theorem mem (h : Names k word) : longMonthsUpper.getD k [] ∈ longMonthsUpper := by
  rw [getD_eq_getElem _ _ h.lt]
  exact getElem_mem _

theorem letters (h : Names k word) : ∀ c ∈ word, letter7 (upper7 c) = true := fun _ hc =>
  months_letters _ h.mem _ (h.begins.subset (mem_map_of_mem hc))

theorem length_le (h : Names k word) : word.length ≤ 9 := by
  have := h.begins.length_le
  rw [length_map] at this
  exact this.trans (months_length _ h.mem).2

theorem take_three (h : Names k word) :
    (word.map upper7).take 3 = (longMonthsUpper.getD k []).take 3 := by
  obtain ⟨rest, hrest⟩ := h.begins
  rw [← hrest, take_append_of_le_length (by rw [length_map]; exact h.three)]

theorem unique (hj : Names j word) (hk : Names k word) : j = k :=
  months_differ j hj.lt k hk.lt (hj.take_three.symm.trans hk.take_three)

end Names

theorem findMonth_eq_some {temp : List UInt8} {k : Nat} :
    findMonth temp = some k ↔ k < 12 ∧ temp <+: longMonthsUpper.getD k [] ∧
      ∀ j < k, ¬temp <+: longMonthsUpper.getD j [] := by
  have hlen : longMonthsUpper.length = 12 := rfl
  rw [findMonth, findIdx?_eq_some_iff_getElem]
  constructor
  · rintro ⟨hk, hbegins, hfirst⟩
    refine ⟨hk, ?_, fun j hj hpre => hfirst j hj ?_⟩
    · rw [getD_eq_getElem _ _ hk]
      exact isPrefixOf_iff_prefix.mp hbegins
    · rw [getD_eq_getElem _ _ (hj.trans hk)] at hpre
      exact isPrefixOf_iff_prefix.mpr hpre
  · rintro ⟨hk, hbegins, hfirst⟩
    rw [← hlen] at hk
    refine ⟨hk, ?_, fun j hj hpre => hfirst j hj ?_⟩
    · rw [getD_eq_getElem _ _ hk] at hbegins
      exact isPrefixOf_iff_prefix.mpr hbegins
    · rw [getD_eq_getElem _ _ (hj.trans hk)]
      exact isPrefixOf_iff_prefix.mp hpre

theorem Names.findMonth {k : Nat} {word : List UInt8} (h : Names k word) :
    findMonth (word.map upper7) = some k := by
  refine findMonth_eq_some.mpr ⟨h.lt, h.begins, fun j hj hpre => ?_⟩
  have hjk : j = k := Names.unique ⟨h.three, hpre⟩ h
  omega

def Scan.take (s : Scan) (item : Item) : Scan :=
  { s with
    components := Function.update s.components s.i item.component.value
    description := Function.update s.description s.i item.component.description
    haveEnglishMonth := s.haveEnglishMonth || item.component.english }

def Scan.pass (s : Scan) (mark : Option UInt8) : Scan :=
  { s with
    i := s.i + 1
    dotSeparatorSeen := s.dotSeparatorSeen || (mark = some point && s.i ≤ 1) }

/-- The state after the items. The last one does not go on unless it has a separator. -/
def Scan.readAll : Scan → List Item → Scan
  | s, [] => s
  | s, [item] => if item.gap.mark = none then s.take item else (s.take item).pass item.gap.mark
  | s, item :: items => ((s.take item).pass item.gap.mark).readAll items

section Loop

variable {string : List UInt8} {expect : Expect} {now : Timestamp} {s : Scan} {p rest : List UInt8}

theorem Gap.isGap {gap : Gap} {c : UInt8} (h : c ∈ gap.text) : IsGap c := by
  rw [Gap.text, append_assoc, mem_append, mem_append] at h
  rcases h with h | h | h
  · exact .inl (gap.before_blank c h)
  · exact .inr (gap.mark_separator c (by simpa using h))
  · exact .inl (gap.after_blank c h)

/-- What is behind a component does not go on with it. -/
def Ends (component : Component) (rest : List UInt8) : Prop :=
  ∀ c ∈ rest.head?,
    if component.english = true then letter7 (upper7 c) = false else digit c = false

theorem readToken_component (string : List UInt8) {component : Component}
    (hallowed : component.Allowed s.i s.haveEnglishMonth) (hends : Ends component rest) :
    readToken string { s with p := component.text ++ rest } =
      .ok (.component component.value component.description component.english, rest) := by
  cases component with
  | number ds hne =>
    have hdigit : digit (upper7 ((ds.map digitByte ++ rest).headD 0)) = true := by
      obtain ⟨d, ds, rfl⟩ := exists_cons_of_ne_nil hne
      simp [digit_upper7, digit_digitByte d]
    have hread : readDigits (ds.map digitByte ++ rest) 0 0 =
        (number ds % 2 ^ 16, ds.length % 2 ^ 16, rest) :=
      readDigits_digits ds fun c hc => by simpa using hends c hc
    simp only [readToken, Component.text, hdigit, hread]
    rfl
  | month k word names =>
    have hletter : letter7 (upper7 ((word ++ rest).headD 0)) = true := by
      obtain ⟨c, word', rfl⟩ := exists_cons_of_ne_nil
        (ne_nil_of_length_pos (Nat.lt_of_lt_of_le (by decide) names.three))
      simpa using names.letters c (by simp)
    have hread : readLetters 10 (word ++ rest) = (word.map upper7, rest) :=
      readLetters_word names.letters (names.length_le.trans (by decide))
        (.inr fun c hc => by simpa using hends c hc)
    have hthree : ¬(word.map upper7).length < 3 := by
      rw [length_map]
      exact Nat.not_lt.mpr names.three
    obtain ⟨hi, hhave⟩ := hallowed
    simp only [readToken, Component.text, digit_upper7, not_digit_of_letter hletter, hletter, hhave,
      hread, hthree, hi, names.findMonth]
    rfl

theorem Component.text_cons (component : Component) :
    ∃ c p, component.text = c :: p ∧ isBlank c = false ∧
      if component.english = true then letter7 (upper7 c) = true else digit c = true := by
  cases component with
  | number ds hne =>
    obtain ⟨d, ds, rfl⟩ := exists_cons_of_ne_nil hne
    exact ⟨_, _, rfl, not_isBlank_digitByte d, by simpa using digit_digitByte d⟩
  | month k word names =>
    obtain ⟨c, word', rfl⟩ := exists_cons_of_ne_nil
      (ne_nil_of_length_pos (Nat.lt_of_lt_of_le (by decide) names.three))
    have hletter := names.letters c (by simp)
    exact ⟨c, word', rfl, not_isBlank_of_letter hletter, by simpa using hletter⟩

theorem textOfItems_cons (item : Item) (items : List Item) :
    textOfItems (item :: items) =
      item.component.text ++ (item.gap.text ++ textOfItems items) := by
  rw [textOfItems, flatMap_cons, Item.text, append_assoc]
  rfl

def Follows (items : List Item) (rest : List UInt8) : Prop :=
  ∀ c ∈ rest.head?, ¬IsGap c ∧ digit c = false ∧
    (letter7 (upper7 c) = true → ∀ item ∈ items, item.component.english = false)

theorem follows_nil (items : List Item) : Follows items [] := fun _ h => nomatch h

variable {item : Item} {items : List Item}

theorem Follows.tail (h : Follows (item :: items) rest) : Follows items rest := fun c hc =>
  ⟨(h c hc).1, (h c hc).2.1, fun hl other hother =>
    (h c hc).2.2 hl other (mem_cons_of_mem _ hother)⟩

theorem Follows.starts (h : Follows items rest) : Starts (textOfItems items ++ rest) := by
  cases items with
  | nil =>
    intro c hc
    cases hblank : isBlank c with
    | false => rfl
    | true => exact absurd (.inl hblank) (h c hc).1
  | cons item items =>
    obtain ⟨c, p, htext, hblank, -⟩ := item.component.text_cons
    intro c' hc'
    rw [textOfItems_cons, htext, cons_append, cons_append, head?_cons, Option.mem_some_iff] at hc'
    rwa [← hc']

theorem Follows.ends {i : Nat} {haveEnglishMonth : Bool}
    (h : Fits i haveEnglishMonth (item :: items)) (hrest : Follows (item :: items) rest) :
    Ends item.component (item.gap.text ++ (textOfItems items ++ rest)) := by
  intro c hc
  cases hgap : item.gap.text with
  | cons g gs =>
    have hmem : c ∈ item.gap.text := by
      rw [hgap, cons_append, head?_cons, Option.mem_some_iff] at hc
      simp [hgap, hc]
    have hisGap := Gap.isGap hmem
    rw [hisGap.not_letter, hisGap.not_digit, ite_self]
  | nil =>
    rw [hgap, nil_append] at hc
    cases items with
    | nil =>
      obtain ⟨-, hdigit, hletter⟩ := hrest c hc
      split_ifs with hitem
      · cases hl : letter7 (upper7 c) with
        | false => rfl
        | true => exact absurd hitem (by simp [hletter hl item (by simp)])
      · exact hdigit
    | cons next items =>
      obtain ⟨-, hapart, hallowed, -⟩ := h
      obtain ⟨c', p', htext, -, hclass⟩ := next.component.text_cons
      obtain rfl : c' = c := by
        rw [textOfItems_cons, htext, cons_append, cons_append, head?_cons] at hc
        simpa using hc
      cases hitem : item.component.english with
      | true =>
        have hnext : next.component.english = false := by
          cases hcomp : next.component with
          | number ds hne => rfl
          | month k word names =>
            rw [hcomp, hitem, Bool.or_true] at hallowed
            exact absurd hallowed.2 (by decide)
        rw [hnext, if_neg (by decide)] at hclass
        exact not_letter_of_digit hclass
      | false =>
        have hnext := hapart hgap hitem next rfl
        rw [hnext, if_pos rfl] at hclass
        exact not_digit_of_letter hclass

theorem not_isGap_append {c : UInt8} (hrest : Follows items rest)
    (h : textOfItems items ++ rest = c :: p) : ¬IsGap c := by
  cases items with
  | nil => exact (hrest c (by rw [← nil_append rest]; exact h ▸ rfl)).1
  | cons item items =>
    obtain ⟨c', p', htext, -, hclass⟩ := item.component.text_cons
    rw [textOfItems_cons, htext, cons_append, cons_append, List.cons.injEq] at h
    rw [← h.1]
    intro hgap
    rw [hgap.not_letter, hgap.not_digit] at hclass
    simp at hclass

theorem textOfItems_ne_nil : textOfItems (item :: items) ≠ [] := by
  obtain ⟨c, p, htext, -⟩ := item.component.text_cons
  rw [textOfItems_cons, htext, cons_append]
  exact cons_ne_nil _ _

variable {lead : List UInt8}

theorem scanLoop_item {left : Nat}
    (hfits : Fits s.i s.haveEnglishMonth (item :: items)) (hrest : Follows (item :: items) rest)
    (hlead : ∀ c ∈ lead, isBlank c = true)
    (hp : s.p = lead ++ (textOfItems (item :: items) ++ rest)) :
    scanLoop string expect now (left + 1) s =
      if items = [] ∧ item.gap.mark = none ∧ rest = [] then .ok (.inr { s.take item with p := [] })
      else scanLoop string expect now left
        { (s.take item).pass item.gap.mark with
          p := item.gap.after ++ (textOfItems items ++ rest) } := by
  have hends := hrest.ends hfits
  have hskip : skipBlanks s.p = textOfItems (item :: items) ++ rest := by
    rw [hp, skipBlanks_append hlead hrest.starts]
  obtain ⟨c, p, htext, -⟩ := item.component.text_cons
  have hfirst : textOfItems (item :: items) ++ rest =
      item.component.text ++ (item.gap.text ++ (textOfItems items ++ rest)) := by
    rw [textOfItems_cons, append_assoc, append_assoc]
  have hcons : textOfItems (item :: items) ++ rest =
      c :: (p ++ (item.gap.text ++ (textOfItems items ++ rest))) := by
    rw [hfirst, htext, cons_append]
  have htoken := readToken_component (s := s) string hfits.1 hends
  rw [← hfirst, hcons] at htoken
  -- what stands behind the component
  have hbehind : skipBlanks (item.gap.text ++ (textOfItems items ++ rest)) =
      item.gap.mark.toList ++ (item.gap.after ++ (textOfItems items ++ rest)) := by
    rw [Gap.text, append_assoc, append_assoc, skipBlanks_append item.gap.before_blank]
    cases hmark : item.gap.mark with
    | none =>
      rw [item.gap.after_eq_nil hmark]
      exact hrest.tail.starts
    | some m =>
      intro c hc
      obtain rfl : m = c := by simpa using hc
      exact not_isBlank_of_mark (item.gap.mark_separator m hmark)
  rw [scanLoop, hskip, hcons]
  simp only [htoken, hbehind]
  cases hmark : item.gap.mark with
  | some m =>
    rw [if_neg (by simp)]
    rcases item.gap.mark_separator m hmark with hsep | rfl
    · have hne : m ≠ point := by rintro rfl; exact absurd hsep (by decide)
      simp [hsep, Scan.take, Scan.pass, hne]
    · have hsep : isSeparator point = false := by decide
      rfl
  | none =>
    rw [item.gap.after_eq_nil hmark]
    simp only [Option.toList_none]
    cases hmore : textOfItems items ++ rest with
    | nil =>
      obtain ⟨hnil, rfl⟩ := append_eq_nil_iff.mp hmore
      have hitems : items = [] := by
        cases items with
        | nil => rfl
        | cons next items => exact absurd hnil textOfItems_ne_nil
      rw [if_pos ⟨hitems, trivial, rfl⟩]
      rfl
    | cons c' p' =>
      have hnot := not_isGap_append hrest.tail hmore
      have hsep : isSeparator c' = false := by
        cases h : isSeparator c' with
        | false => rfl
        | true => exact absurd (.inr (.inl h)) hnot
      have hpoint : c' ≠ point := fun h => hnot (.inr (.inr h))
      rw [if_neg fun h => by rw [h.1, h.2.2] at hmore; cases hmore]
      simp [hsep, hpoint, Scan.take, Scan.pass]

theorem readAll_singleton (s : Scan) (item : Item) : s.readAll [item] =
    if item.gap.mark = none then s.take item else (s.take item).pass item.gap.mark := rfl

theorem readAll_cons (h : ¬(items = [] ∧ item.gap.mark = none)) :
    s.readAll (item :: items) = ((s.take item).pass item.gap.mark).readAll items := by
  cases items with
  | nil => rw [readAll_singleton, if_neg fun hmark => h ⟨rfl, hmark⟩, Scan.readAll]
  | cons next items => rfl

theorem readAll_with_p (s : Scan) (q p : List UInt8) (items : List Item) :
    { ({ s with p := q } : Scan).readAll items with p := p } = { s.readAll items with p := p } := by
  induction items generalizing s q with
  | nil => rfl
  | cons item items ih =>
    by_cases hlast : items = [] ∧ item.gap.mark = none
    · obtain ⟨rfl, hmark⟩ := hlast
      rw [readAll_singleton, readAll_singleton, if_pos hmark, if_pos hmark]
      rfl
    · rw [readAll_cons hlast, readAll_cons hlast]
      exact ih ((s.take item).pass item.gap.mark) q

theorem scanLoop_items (string : List UInt8) (expect : Expect) (now : Timestamp)
    {left : Nat} (hfits : Fits s.i s.haveEnglishMonth items) (hlength : items.length ≤ left)
    (hlead : ∀ c ∈ lead, isBlank c = true) (hp : s.p = lead ++ textOfItems items) :
    ∃ p, (∀ c ∈ p, isBlank c = true) ∧
      scanLoop string expect now left s = .ok (.inr { s.readAll items with p := p }) := by
  induction items generalizing s lead left with
  | nil =>
    rw [textOfItems, flatMap_nil, append_nil] at hp
    cases left with
    | zero => exact ⟨lead, hlead, by rw [scanLoop, Scan.readAll, ← hp]⟩
    | succ left =>
      have hskip : skipBlanks s.p = [] := by
        have := skipBlanks_append (p := []) hlead (fun c hc => nomatch hc)
        rwa [append_nil, ← hp] at this
      exact ⟨[], by simp, by rw [scanLoop, hskip, Scan.readAll]⟩
  | cons item items ih =>
    obtain ⟨left, rfl⟩ := Nat.exists_eq_add_of_le' (Nat.lt_of_lt_of_le (Nat.succ_pos _) hlength)
    rw [← append_nil (textOfItems _)] at hp
    rw [scanLoop_item hfits (follows_nil _) hlead hp, append_nil]
    by_cases hlast : items = [] ∧ item.gap.mark = none
    · obtain ⟨rfl, hmark⟩ := hlast
      exact ⟨[], by simp, by rw [if_pos ⟨rfl, hmark, rfl⟩, readAll_singleton, if_pos hmark]⟩
    · rw [if_neg fun h => hlast ⟨h.1, h.2.1⟩]
      obtain ⟨p, hp', hloop⟩ := @ih
        { (s.take item).pass item.gap.mark with p := item.gap.after ++ textOfItems items }
        item.gap.after left hfits.2.2 (by simpa using hlength) item.gap.after_blank rfl
      refine ⟨p, hp', hloop.trans ?_⟩
      rw [readAll_with_p, readAll_cons hlast]

def Scan.passAll : Scan → List Item → Scan
  | s, [] => s
  | s, item :: items => ((s.take item).pass item.gap.mark).passAll items

theorem passAll_with_p (s : Scan) (q p : List UInt8) (items : List Item) :
    { ({ s with p := q } : Scan).passAll items with p := p } =
      { s.passAll items with p := p } := by
  induction items generalizing s q with
  | nil => rfl
  | cons item items ih => exact ih ((s.take item).pass item.gap.mark) q

theorem scanLoop_append (string : List UInt8) (expect : Expect) (now : Timestamp) (left : Nat)
    (hfits : Fits s.i s.haveEnglishMonth items) (hrest : Follows items rest) (hne : rest ≠ [])
    (hlead : ∀ c ∈ lead, isBlank c = true) (hp : s.p = lead ++ (textOfItems items ++ rest)) :
    ∃ bs, (∀ c ∈ bs, isBlank c = true) ∧
      scanLoop string expect now (left + items.length) s =
        scanLoop string expect now left { s.passAll items with p := bs ++ rest } := by
  induction items generalizing s lead with
  | nil => exact ⟨lead, hlead, by rw [Scan.passAll, ← nil_append rest]; exact hp ▸ rfl⟩
  | cons item items ih =>
    obtain ⟨bs, hbs, hloop⟩ := @ih
      { (s.take item).pass item.gap.mark with p := item.gap.after ++ (textOfItems items ++ rest) }
      item.gap.after hfits.2.2 hrest.tail item.gap.after_blank rfl
    refine ⟨bs, hbs, ?_⟩
    rw [length_cons, ← Nat.add_assoc, scanLoop_item hfits hrest hlead hp,
      if_neg fun h => hne h.2.2, hloop, passAll_with_p, Scan.passAll]

end Loop

end Firebird.Jrd.Datetime
