import Firebird.Jrd.DatetimeValue

/-!
# What the loop has read

When the loop of `string_to_datetime` comes to an end, the string is a literal, and it is one in one
way only; or a magic word stands behind some components.
-/
namespace Firebird.Jrd.Datetime

open Lib.Decimal Common Cvt List

section Tokens

variable {string p rest temp : List UInt8} {s : Scan}

theorem exists_digits (p : List UInt8) : ∃ (ds : List (Fin 10)) (rest : List UInt8),
    p = ds.map digitByte ++ rest ∧ ∀ c ∈ rest.head?, digit c = false := by
  induction p with
  | nil => exact ⟨[], [], rfl, fun c h => nomatch h⟩
  | cons c p ih =>
    cases hc : digit c with
    | false =>
      refine ⟨[], c :: p, rfl, fun c' h => ?_⟩
      obtain rfl : c = c' := by simpa using h
      exact hc
    | true =>
      obtain ⟨d, rfl⟩ := exists_digitByte hc
      obtain ⟨ds, rest, rfl, hrest⟩ := ih
      exact ⟨d :: ds, rest, rfl, hrest⟩

theorem exists_letters (room : Nat) (p : List UInt8) : ∃ word rest, p = word ++ rest ∧
    readLetters room p = (word.map upper7, rest) ∧ (∀ c ∈ word, letter7 (upper7 c) = true) ∧
    word.length ≤ room ∧ (word.length = room ∨ ∀ c ∈ rest.head?, letter7 (upper7 c) = false) := by
  induction room generalizing p with
  | zero => exact ⟨[], p, rfl, rfl, by simp, le_rfl, .inl rfl⟩
  | succ room ih =>
    cases p with
    | nil => exact ⟨[], [], rfl, rfl, by simp, by simp, .inr fun c h => nomatch h⟩
    | cons c p =>
      cases hc : letter7 (upper7 c) with
      | false =>
        refine ⟨[], c :: p, rfl, by simp [readLetters, hc], by simp, by simp, .inr fun c' h => ?_⟩
        obtain rfl : c = c' := by simpa using h
        exact hc
      | true =>
        obtain ⟨word, rest, rfl, hread, hletters, hle, hends⟩ := ih p
        refine ⟨c :: word, rest, rfl, by simp [readLetters, hc, hread], ?_, by simpa using hle,
          hends.imp_left (by simp)⟩
        rw [forall_mem_cons]
        exact ⟨hc, hletters⟩

/-- A word that no month begins with, or that stands where no month may stand. -/
structure Special (s : Scan) (word rest : List UInt8) : Prop where
  letters : ∀ c ∈ word, letter7 (upper7 c) = true
  three : 3 ≤ word.length
  ends : word.length = 10 ∨ ∀ c ∈ rest.head?, letter7 (upper7 c) = false
  noMonth : s.haveEnglishMonth = false
  unknown : s.i < 2 → findMonth (word.map upper7) = none

theorem readToken_special (string : List UInt8) {word : List UInt8} (h : Special s word rest)
    (hle : word.length ≤ 10) :
    readToken string { s with p := word ++ rest } = .ok (.special (word.map upper7), rest) := by
  have hletter : letter7 (upper7 ((word ++ rest).headD 0)) = true := by
    obtain ⟨c, word', rfl⟩ := exists_cons_of_ne_nil
      (ne_nil_of_length_pos (Nat.lt_of_lt_of_le (by decide) h.three))
    simpa using h.letters c (by simp)
  have hread := readLetters_word h.letters hle h.ends
  have hthree : ¬(word.map upper7).length < 3 := by
    rw [length_map]
    exact Nat.not_lt.mpr h.three
  have hnone : (if s.i < 2 then findMonth (word.map upper7) else none) = none := by
    split_ifs with hi
    · exact h.unknown hi
    · rfl
  simp only [readToken, digit_upper7, not_digit_of_letter hletter, hletter, h.noMonth, hread,
    hthree, hnone, if_true, if_false, Bool.not_false, Bool.and_self, Bool.false_eq_true]

theorem readToken_eq_ok {token : Token} (h : readToken string s = .ok (token, rest)) :
    (∃ component : Component, component.Allowed s.i s.haveEnglishMonth ∧
      s.p = component.text ++ rest ∧ Ends component rest ∧
      token = .component component.value component.description component.english) ∨
    ∃ word, s.p = word ++ rest ∧ word.length ≤ 10 ∧ Special s word rest ∧
      token = .special (word.map upper7) := by
  unfold readToken at h
  dsimp only at h
  rw [digit_upper7] at h
  by_cases hdigit : digit (s.p.headD 0) = true
  · left
    obtain ⟨ds, rest', hp, hends⟩ := exists_digits s.p
    have hne : ds ≠ [] := by
      rintro rfl
      rw [map_nil, nil_append] at hp
      rw [hp] at hdigit
      cases rest' with
      | nil => exact absurd hdigit (by decide)
      | cons c rest' =>
        rw [headD_cons, hends c rfl] at hdigit
        cases hdigit
    rw [if_pos hdigit, hp, readDigits_digits ds hends] at h
    obtain ⟨rfl, rfl⟩ := h
    exact ⟨.number ds hne, trivial, hp, fun c hc => by simpa using hends c hc, rfl⟩
  rw [if_neg hdigit] at h
  by_cases hletter : (letter7 (upper7 (s.p.headD 0)) && !s.haveEnglishMonth) = true
  · have hhave : s.haveEnglishMonth = false := by simpa using (Bool.and_eq_true_iff.mp hletter).2
    obtain ⟨word, rest', hp, hread, hletters, hle, hends⟩ := exists_letters 10 s.p
    rw [if_pos hletter, hread] at h
    by_cases hshort : (word.map upper7).length < 3
    · rw [if_pos hshort] at h
      cases h
    rw [if_neg hshort] at h
    rw [length_map, Nat.not_lt] at hshort
    cases hmonth : (if s.i < 2 then findMonth (word.map upper7) else none) with
    | some k =>
      left
      rw [hmonth] at h
      obtain ⟨rfl, rfl⟩ := h
      split_ifs at hmonth with hi
      have hnames : Names k word := ⟨hshort, (findMonth_eq_some.mp hmonth).2.1⟩
      have hnine := hnames.length_le
      exact ⟨.month k word hnames, ⟨hi, hhave⟩, hp,
        fun c hc => by simpa using hends.resolve_left (by omega) c hc, rfl⟩
    | none =>
      right
      rw [hmonth] at h
      obtain ⟨rfl, rfl⟩ := h
      refine ⟨word, hp, hle, ⟨hletters, hshort, hends, hhave, fun hi => ?_⟩, rfl⟩
      rwa [if_pos hi] at hmonth
  · rw [if_neg hletter] at h
    cases h

end Tokens

section Loop

variable {string : List UInt8} {expect : Expect} {now v : Timestamp} {s s' : Scan} {left : Nat}

/-- The string from `p` on is a literal. -/
def IsLiteral (i : Nat) (haveEnglishMonth : Bool) (left : Nat) (p : List UInt8) : Prop :=
  ∃ lead items, (∀ c ∈ lead, isBlank c = true) ∧ Fits i haveEnglishMonth items ∧
    items.length ≤ left ∧ p = lead ++ textOfItems items

structure WordAfter (i : Nat) (haveEnglishMonth : Bool) (left : Nat) (p : List UInt8)
    (items : List Item) (word tail : List UInt8) : Prop where
  fits : Fits i haveEnglishMonth items
  length_lt : items.length < left
  noMonth : haveEnglishMonth = false ∧ ∀ item ∈ items, item.component.english = false
  letters : ∀ c ∈ word, letter7 (upper7 c) = true
  three : 3 ≤ word.length
  ends : word.length = 10 ∨ ∀ c ∈ tail.head?, letter7 (upper7 c) = false
  length_le : word.length ≤ 10
  text : ∃ lead, (∀ c ∈ lead, isBlank c = true) ∧ p = lead ++ (textOfItems items ++ (word ++ tail))

theorem fits_cons {item : Item} {items : List Item} {i : Nat} {haveEnglishMonth : Bool}
    (rest : List UInt8) (hallowed : item.component.Allowed i haveEnglishMonth)
    (hends : Ends item.component (item.gap.text ++ (textOfItems items ++ rest)))
    (hfits : Fits (i + 1) (haveEnglishMonth || item.component.english) items) :
    Fits i haveEnglishMonth (item :: items) := by
  refine ⟨hallowed, fun hgap hnumber next hnext => ?_, hfits⟩
  cases items with
  | nil => cases hnext
  | cons next' items =>
    obtain rfl : next' = next := by simpa using hnext
    obtain ⟨c, p, htext, -, hclass⟩ := next'.component.text_cons
    have hc := hends c (by rw [hgap, textOfItems_cons, htext]; simp)
    rw [hnumber, if_neg (by decide)] at hc
    by_contra hnext'
    rw [if_neg hnext', hc] at hclass
    cases hclass

def Outcome (string : List UInt8) (expect : Expect) (now : Timestamp) (left i : Nat)
    (haveEnglishMonth : Bool) (p : List UInt8) : Timestamp ⊕ Scan → Prop
  | .inr s' => (∀ c ∈ s'.p, isBlank c = true) → IsLiteral i haveEnglishMonth left p
  | .inl v => ∃ items word tail, WordAfter i haveEnglishMonth left p items word tail ∧
      special string expect now (word.map upper7) tail = .ok v ∧
      (i + items.length < 2 → findMonth (word.map upper7) = none)

theorem Outcome.cons {component : Component} {i : Nat} {haveEnglishMonth : Bool}
    {lead before rest : List UInt8} {r : Timestamp ⊕ Scan} (mark : Option UInt8) (p : List UInt8)
    (hallowed : component.Allowed i haveEnglishMonth) (hends : Ends component rest)
    (hlead : ∀ c ∈ lead, isBlank c = true) (hbefore : ∀ c ∈ before, isBlank c = true)
    (hmark : ∀ c ∈ mark, isSeparator c = true ∨ c = point) (hstarts : mark = none → Starts p)
    (hrest : rest = before ++ (mark.toList ++ p))
    (h : Outcome string expect now left (i + 1) (haveEnglishMonth || component.english) p r) :
    Outcome string expect now (left + 1) i haveEnglishMonth (lead ++ (component.text ++ rest))
      r := by
  -- the blanks in front of what is left belong to the gap
  have hgap : ∀ lead' q, (∀ c ∈ lead', isBlank c = true) → p = lead' ++ q →
      ∃ gap : Gap, rest = gap.text ++ q := by
    rintro lead' q hlead' rfl
    refine ⟨⟨before, mark, lead', hbefore, hmark, hlead', fun hnone => ?_⟩, by
      simp [Gap.text, hrest]⟩
    cases lead' with
    | nil => rfl
    | cons b lead' =>
      have := hstarts hnone b rfl
      rw [hlead' b (by simp)] at this
      cases this
  cases r with
  | inr s' =>
    intro hblank
    obtain ⟨lead', items, hlead', hfits, hlength, hp⟩ := h hblank
    obtain ⟨gap, hgap⟩ := hgap lead' _ hlead' hp
    refine ⟨lead, ⟨component, gap⟩ :: items, hlead, ?_, by simpa using hlength, ?_⟩
    · refine fits_cons [] hallowed ?_ hfits
      rwa [append_nil, ← hgap]
    · rw [textOfItems_cons, hgap]
  | inl v =>
    obtain ⟨items, word, tail, hword, hspecial, hmonth⟩ := h
    obtain ⟨lead', hlead', hp⟩ := hword.text
    obtain ⟨gap, hgap⟩ := hgap lead' _ hlead' hp
    have hnone := Bool.or_eq_false_iff.mp hword.noMonth.1
    refine ⟨⟨component, gap⟩ :: items, word, tail, ⟨?_, by simpa using hword.length_lt,
      ⟨hnone.1, ?_⟩, hword.letters, hword.three, hword.ends, hword.length_le, lead, hlead, ?_⟩,
      hspecial, fun hi => hmonth (by simp only [length_cons] at hi; omega)⟩
    · refine fits_cons (word ++ tail) hallowed ?_ hword.fits
      rwa [← hgap]
    · rw [forall_mem_cons]
      exact ⟨hnone.2, hword.noMonth.2⟩
    · rw [textOfItems_cons, hgap]
      simp

theorem outcome_of_scanLoop {r : Timestamp ⊕ Scan}
    (h : scanLoop string expect now left s = .ok r) :
    Outcome string expect now left s.i s.haveEnglishMonth s.p r := by
  induction left generalizing s with
  | zero =>
    rw [scanLoop, Except.ok.injEq] at h
    subst h
    exact fun hblank => ⟨s.p, [], hblank, trivial, le_rfl, (append_nil _).symm⟩
  | succ left ih =>
    obtain ⟨lead, hlead, hp, -⟩ := exists_skipBlanks s.p
    rw [scanLoop] at h
    cases hskip : skipBlanks s.p with
    | nil =>
      rw [hskip, append_nil] at hp
      rw [hskip] at h
      simp only [Except.ok.injEq] at h
      subst h
      rw [hp]
      exact fun _ => ⟨lead, [], hlead, trivial, Nat.zero_le _, (append_nil _).symm⟩
    | cons c p =>
      rw [hskip] at hp h
      dsimp only at h
      cases htoken : readToken string { s with p := c :: p } with
      | error e => rw [htoken] at h; cases h
      | ok result =>
        obtain ⟨token, rest⟩ := result
        rw [htoken] at h
        rcases readToken_eq_ok htoken with ⟨component, hallowed, htext, hends, rfl⟩ |
          ⟨word, htext, hle, hspecial, rfl⟩
        · dsimp only at h htext
          obtain ⟨before, hbefore, hrest, hstarts⟩ := exists_skipBlanks rest
          rw [hp, htext]
          cases hskip : skipBlanks rest with
          | nil =>
            rw [hskip] at h hrest
            simp only [Except.ok.injEq] at h
            subst h
            exact Outcome.cons none [] hallowed hends hlead hbefore (by simp)
              (fun _ c hc => by cases hc) hrest
              (fun _ => ⟨[], [], by simp, trivial, Nat.zero_le _, rfl⟩)
          | cons m p' =>
            rw [hskip] at h hrest hstarts
            dsimp only at h
            split_ifs at h with hsep hpoint
            · exact Outcome.cons (some m) p' hallowed hends hlead hbefore (by simp [hsep])
                (fun hnone => by cases hnone) hrest (ih h)
            · exact Outcome.cons (some m) p' hallowed hends hlead hbefore (by simp [hpoint])
                (fun hnone => by cases hnone) hrest (ih h)
            · exact Outcome.cons none (m :: p') hallowed hends hlead hbefore (by simp)
                (fun _ => hstarts) hrest (ih h)
        · dsimp only at h htext
          cases hword : special string expect now (word.map upper7) rest with
          | error e => rw [hword] at h; cases h
          | ok v =>
            rw [hword] at h
            simp only [Except.ok.injEq] at h
            subst h
            rw [hp, htext]
            exact ⟨[], word, rest, ⟨trivial, Nat.succ_pos _, ⟨hspecial.noMonth, by simp⟩,
              hspecial.letters, hspecial.three, hspecial.ends, hle, lead, hlead, rfl⟩, hword,
              hspecial.unknown⟩

end Loop

section Unique

variable {i : Nat} {haveEnglishMonth : Bool} {rest rest' : List UInt8}

theorem blanks_unique {bs bs' : List UInt8} (hbs : ∀ c ∈ bs, isBlank c = true)
    (hbs' : ∀ c ∈ bs', isBlank c = true) (hrest : Starts rest) (hrest' : Starts rest')
    (h : bs ++ rest = bs' ++ rest') : bs = bs' ∧ rest = rest' := by
  have heq : rest = rest' := by
    rw [← skipBlanks_append hbs hrest, h, skipBlanks_append hbs' hrest']
  subst heq
  exact ⟨append_cancel_right h, rfl⟩

theorem component_unique {component component' : Component}
    (h : component.Allowed i haveEnglishMonth) (h' : component'.Allowed i haveEnglishMonth)
    (hends : Ends component rest) (hends' : Ends component' rest')
    (heq : component.text ++ rest = component'.text ++ rest') :
    component = component' ∧ rest = rest' := by
  have hread := readToken_component (s := ⟨i, [], fun _ => 0, fun _ => 0, haveEnglishMonth, false⟩)
    [] h hends
  have hread' := readToken_component (s := ⟨i, [], fun _ => 0, fun _ => 0, haveEnglishMonth, false⟩)
    [] h' hends'
  rw [heq, hread'] at hread
  simp only [Except.ok.injEq, Prod.mk.injEq, Token.component.injEq] at hread
  obtain ⟨⟨hvalue, -, henglish⟩, rfl⟩ := hread
  have htext := append_cancel_right heq
  refine ⟨?_, rfl⟩
  cases component with
  | number ds hne =>
    cases component' with
    | number ds' hne' =>
      have hinj : ∀ a b : Fin 10, digitByte a = digitByte b → a = b := by decide
      obtain rfl := map_injective_iff.mpr (fun a b => hinj a b) htext
      rfl
    | month k' word' names' => cases henglish
  | month k word names =>
    cases component' with
    | number ds' hne' => cases henglish
    | month k' word' names' =>
      obtain rfl : word = word' := htext
      obtain rfl : k' = k := Nat.succ.inj hvalue
      rfl

variable {items items' : List Item}

theorem gap_unique {gap gap' : Gap}
    (h : gap.text ++ textOfItems items = gap'.text ++ textOfItems items') :
    gap = gap' ∧ textOfItems items = textOfItems items' := by
  have hstarts : ∀ (gap : Gap) (items : List Item),
      Starts (gap.mark.toList ++ (gap.after ++ textOfItems items)) := by
    intro gap items
    cases hmark : gap.mark with
    | none =>
      rw [gap.after_eq_nil hmark]
      have := (follows_nil items).starts
      rwa [append_nil] at this
    | some m =>
      intro c hc
      obtain rfl : m = c := by simpa using hc
      exact not_isBlank_of_mark (gap.mark_separator m hmark)
  have hitems : ∀ items, Starts (textOfItems items) := fun items => by
    have := (follows_nil items).starts
    rwa [append_nil] at this
  have hnotGap : ∀ (m : UInt8) (gap : Gap) (items : List Item) p, gap.mark = some m →
      textOfItems items ≠ m :: p := fun m gap items p hm hp =>
    not_isGap_append (follows_nil items) (by rw [append_nil]; exact hp)
      (.inr (gap.mark_separator m hm))
  rw [Gap.text, Gap.text, append_assoc, append_assoc, append_assoc, append_assoc] at h
  obtain ⟨hbefore, hbehind⟩ := blanks_unique gap.before_blank gap'.before_blank
    (hstarts gap items) (hstarts gap' items') h
  obtain ⟨before, mark, after, hb, hm, ha, hnone⟩ := gap
  obtain ⟨before', mark', after', hb', hm', ha', hnone'⟩ := gap'
  subst hbefore
  cases mark with
  | none =>
    obtain rfl := hnone rfl
    cases mark' with
    | none =>
      obtain rfl := hnone' rfl
      exact ⟨rfl, hbehind⟩
    | some m =>
      exact absurd hbehind (hnotGap m ⟨before, some m, after', hb, hm', ha', hnone'⟩ _ _ rfl)
  | some m =>
    cases mark' with
    | none =>
      obtain rfl := hnone' rfl
      exact absurd hbehind.symm (hnotGap m ⟨before, some m, after, hb, hm, ha, hnone⟩ _ _ rfl)
    | some m' =>
      simp only [Option.toList_some, cons_append, List.cons.injEq] at hbehind
      obtain ⟨rfl, hafter⟩ := hbehind
      obtain ⟨rfl, htext⟩ := blanks_unique ha ha' (hitems items) (hitems items') hafter
      exact ⟨rfl, htext⟩

theorem textOfItems_injective (h : Fits i haveEnglishMonth items)
    (h' : Fits i haveEnglishMonth items') (heq : textOfItems items = textOfItems items') :
    items = items' := by
  induction items generalizing i haveEnglishMonth items' with
  | nil =>
    cases items' with
    | nil => rfl
    | cons item' items' => exact absurd heq.symm textOfItems_ne_nil
  | cons item items ih =>
    cases items' with
    | nil => exact absurd heq textOfItems_ne_nil
    | cons item' items' =>
      have hends := (follows_nil (item :: items)).ends h
      have hends' := (follows_nil (item' :: items')).ends h'
      rw [append_nil] at hends hends'
      rw [textOfItems_cons, textOfItems_cons] at heq
      obtain ⟨hcomponent, hrest⟩ := component_unique h.1 h'.1 hends hends' heq
      obtain ⟨hgap, hitems⟩ := gap_unique hrest
      obtain ⟨component, gap⟩ := item
      subst hcomponent hgap
      rw [ih h.2.2 h'.2.2 hitems]

theorem literal_unique {lead lead' : List UInt8}
    (h : Fits i haveEnglishMonth items) (h' : Fits i haveEnglishMonth items')
    (hlead : ∀ c ∈ lead, isBlank c = true) (hlead' : ∀ c ∈ lead', isBlank c = true)
    (heq : lead ++ textOfItems items = lead' ++ textOfItems items') : items = items' := by
  have hstarts := (follows_nil items).starts
  have hstarts' := (follows_nil items').starts
  rw [append_nil] at hstarts hstarts'
  exact textOfItems_injective h h' (blanks_unique hlead hlead' hstarts hstarts' heq).2

end Unique

section Accepted

variable {string : List UInt8} {expect : Expect} {now v : Timestamp} {items : List Item}
  {word tail : List UInt8}

theorem passAll_i (s : Scan) (items : List Item) : (s.passAll items).i = s.i + items.length := by
  induction items generalizing s with
  | nil => rfl
  | cons item items ih =>
    rw [Scan.passAll, ih, length_cons]
    simp only [Scan.pass, Scan.take]
    omega

theorem passAll_haveEnglishMonth (s : Scan) (hs : s.haveEnglishMonth = false)
    (h : ∀ item ∈ items, item.component.english = false) :
    (s.passAll items).haveEnglishMonth = false := by
  induction items generalizing s with
  | nil => exact hs
  | cons item items ih =>
    rw [forall_mem_cons] at h
    exact ih _ (by simp [Scan.pass, Scan.take, hs, h.1]) h.2

theorem scanLoop_wordAfter
    (h : WordAfter expect.startComponent false (7 - expect.startComponent) string items word tail)
    (hmonth : expect.startComponent + items.length < 2 → findMonth (word.map upper7) = none) :
    scanLoop string expect now (7 - expect.startComponent)
        (.start expect.startComponent string) =
      match special string expect now (word.map upper7) tail with
      | .error e => .error e
      | .ok date => .ok (.inl date) := by
  obtain ⟨hfits, hlength, ⟨-, hnone⟩, hletters, hthree, hends, hle, lead, hlead, htext⟩ := h
  obtain ⟨c, word', hword⟩ := exists_cons_of_ne_nil
    (ne_nil_of_length_pos (Nat.lt_of_lt_of_le (by decide) hthree))
  have hc : letter7 (upper7 c) = true := hletters c (by simp [hword])
  have hstarts : Starts (word ++ tail) := by
    intro c' hc'
    obtain rfl : c = c' := by simpa [hword] using hc'
    exact not_isBlank_of_letter hc
  have hfollows : Follows items (word ++ tail) := by
    intro c' hc'
    obtain rfl : c = c' := by simpa [hword] using hc'
    refine ⟨fun hgap => ?_, not_digit_of_letter hc, fun _ => hnone⟩
    rw [hgap.not_letter] at hc
    cases hc
  obtain ⟨left, hleft⟩ := Nat.exists_eq_add_of_lt hlength
  have hstart : (Scan.start expect.startComponent string).haveEnglishMonth = false := rfl
  obtain ⟨bs, hbs, hloop⟩ := scanLoop_append string expect now (left + 1)
    (s := .start expect.startComponent string) hfits hfollows (by simp [hword]) hlead htext
  have hspecial : Special ((Scan.start expect.startComponent string).passAll items) word tail :=
    ⟨hletters, hthree, hends, passAll_haveEnglishMonth _ hstart hnone, by
      rw [passAll_i]
      exact hmonth⟩
  have htoken := readToken_special string hspecial hle
  have hskip : skipBlanks (bs ++ (word ++ tail)) = c :: (word' ++ tail) := by
    rw [skipBlanks_append hbs hstarts, hword, cons_append]
  rw [hword, cons_append, ← hword] at htoken
  rw [show 7 - expect.startComponent = left + 1 + items.length by omega, hloop, scanLoop, hskip]
  cases hspecial' : special string expect now (word.map upper7) tail with
  | error e => simp only [htoken, hspecial']
  | ok date => simp only [htoken, hspecial']

theorem stringToDatetime_wordAfter
    (h : WordAfter expect.startComponent false (7 - expect.startComponent) string items word tail)
    (hmonth : expect.startComponent + items.length < 2 → findMonth (word.map upper7) = none) :
    stringToDatetime expect now string = special string expect now (word.map upper7) tail := by
  unfold stringToDatetime
  rw [scanLoop_wordAfter h hmonth]
  cases special string expect now (word.map upper7) tail <;> rfl

theorem not_literal_of_wordAfter
    (h : WordAfter expect.startComponent false (7 - expect.startComponent) string items word tail)
    (hmonth : expect.startComponent + items.length < 2 → findMonth (word.map upper7) = none) :
    ¬IsLiteral expect.startComponent false (7 - expect.startComponent) string := by
  rintro ⟨lead, others, hlead, hfits, hlength, htext⟩
  obtain ⟨p, -, hloop⟩ := scanLoop_items string expect ⟨0, 0⟩
    (s := .start expect.startComponent string) hfits hlength hlead htext
  rw [scanLoop_wordAfter h hmonth] at hloop
  cases hspecial : special string expect ⟨0, 0⟩ (word.map upper7) tail <;>
    rw [hspecial] at hloop <;> cases hloop

theorem accepted_cases (h : stringToDatetime expect now string = .ok v) :
    (∃ lead items, (∀ c ∈ lead, isBlank c = true) ∧ Fits expect.startComponent false items ∧
      items.length ≤ 7 - expect.startComponent ∧ string = lead ++ textOfItems items ∧
      Denoted expect now (scanned expect items) v) ∨
    ∃ items word tail,
      WordAfter expect.startComponent false (7 - expect.startComponent) string items word tail ∧
      special string expect now (word.map upper7) tail = .ok v ∧
      (expect.startComponent + items.length < 2 → findMonth (word.map upper7) = none) := by
  have haccepted := h
  unfold stringToDatetime at h
  cases hloop : scanLoop string expect now (7 - expect.startComponent)
      (.start expect.startComponent string) with
  | error e => rw [hloop] at h; cases h
  | ok r =>
    have hout := outcome_of_scanLoop hloop
    rw [hloop] at h
    cases r with
    | inl date =>
      cases h
      exact .inr hout
    | inr s =>
      obtain ⟨lead, items, hlead, hfits, hlength, htext⟩ := hout (finish_eq_ok_iff.mp h).blank
      change string = _ at htext
      refine .inl ⟨lead, items, hlead, hfits, hlength, htext, ?_⟩
      rw [htext] at haccepted
      exact (stringToDatetime_literal hfits hlength hlead).mp haccepted

end Accepted

end Firebird.Jrd.Datetime
