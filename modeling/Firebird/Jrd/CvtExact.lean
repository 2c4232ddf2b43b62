import Firebird.Lib.Decimal
import Firebird.Jrd.Cvt

/-!
# Exact conversion of decimal literals

What `decompose` and `CVT_get_numeric` accept is a literal. They return its mantissa and its scale
if these fit into the variables; otherwise a variable has wrapped.
-/
namespace Firebird.Jrd.Cvt

open Lib.Decimal List

theorem digit_digitByte : ∀ d : Fin 10, digit (digitByte d) = true := by decide

theorem digitValue_digitByte : ∀ d : Fin 10, digitValue (digitByte d) = (d : Nat) := by decide

theorem digitByte_ne_blank : ∀ d : Fin 10, digitByte d ≠ blank := by decide

theorem exists_digitByte {c : UInt8} (h : digit c = true) : ∃ d, c = digitByte d := by
  obtain ⟨hlo, hhi⟩ := of_decide_eq_true h
  rw [UInt8.le_iff_toNat_le] at hlo hhi
  refine ⟨⟨c.toNat - 48, by have : (57 : UInt8).toNat = 57 := rfl; omega⟩, ?_⟩
  have h48 : (48 : UInt8).toNat = 48 := rfl
  unfold digitByte
  dsimp only
  rw [Nat.add_sub_cancel' (by omega), UInt8.ofNat_toNat]

/-- The value of `sign` for a sign. -/
def signValue : Sign → Int
  | .none => 0
  | .plus => 1
  | .minus => -1

def blanks (n : Nat) : List UInt8 := List.replicate n blank

variable {cs string : List UInt8}

theorem all_blank (h : cs.all (· = blank) = true) : cs = blanks cs.length := by
  rw [all_eq_true] at h
  exact eq_replicate_of_mem fun c hc => of_decide_eq_true (h c hc)

theorem skipSpaces_eq_ok {u : Unit} (h : skipSpaces string cs = .ok u) :
    cs = blanks cs.length := by
  unfold skipSpaces at h
  split_ifs at h with hall
  exact all_blank hall

/-- Some digits are read, and none of them would go over the limit. -/
inductive Pushes (limit : Int) : Scan → List (Fin 10) → Scan → Prop
  | nil (s : Scan) : Pushes limit s [] s
  | cons {s s' : Scan} {d : Fin 10} {ds : List (Fin 10)} : s.overflows limit (digitByte d) = false →
    Pushes limit (s.push (digitByte d)) ds s' → Pushes limit s (d :: ds) s'

section Pushes

variable {limit : Int} {s s' : Scan} {ds : List (Fin 10)}

theorem Pushes.frame (h : Pushes limit s ds s') : s'.sign = s.sign ∧ s'.fraction = s.fraction ∧
    s'.digitSeen = (s.digitSeen || !ds.isEmpty) := by
  induction h with
  | nil s => simp
  | cons _ _ ih =>
    obtain ⟨hsign, hfraction, hseen⟩ := ih
    exact ⟨hsign, hfraction, by rw [hseen]; simp [Scan.push]⟩

theorem sshort_sshort_sub (x y : Int) : sshort (sshort x - y) = sshort (x - y) := by
  unfold sshort
  omega

theorem Pushes.scale (h : Pushes limit s ds s') (x : Int) (hx : s.scale = sshort x) :
    s'.scale = sshort (x - if s.fraction then ds.length else 0) := by
  induction h generalizing x with
  | nil s => simpa using hx
  | @cons s s' d ds _ _ ih =>
    cases hf : s.fraction with
    | false =>
      have := ih x (by simp [Scan.push, hf, hx])
      simpa [Scan.push, hf] using this
    | true =>
      have := ih (x - 1) (by simp [Scan.push, hf, hx, sshort_sshort_sub])
      simp only [Scan.push, hf, if_true, length_cons] at this ⊢
      rw [this]
      congr 1
      omega

end Pushes

/-- The value of the variable for the digits that have been read. Behind `2 ^ 63` the digits of a
negative number are lost. -/
def Tracks (dtype : Dtype) (sign : Int) (n : Nat) (value : Int) : Prop :=
  value = n ∧ (n : Int) ≤ upperLimit dtype ∨
  dtype = .long ∧ sign = -1 ∧ value = n ∧ n = 2 ^ 31 ∨
  dtype ≠ .long ∧ sign = -1 ∧ value = minSint64 ∧ n = 2 ^ 63 ∨
  dtype ≠ .long ∧ sign = -1 ∧ minSint64 ≤ value ∧ value ≤ maxSint64 ∧ 2 ^ 63 < n

theorem overflows_digitByte (s : Scan) (limit : Int) (d : Fin 10) :
    s.overflows limit (digitByte d) = false ↔
      s.value < limit ∨ s.value = limit ∧ ((d : Nat) ≤ 7 ∨ s.sign = -1 ∧ (d : Nat) ≤ 8) := by
  have h8 : ∀ d : Fin 10, digitByte d > 56 ↔ 8 < (d : Nat) := by decide
  have h7 : ∀ d : Fin 10, digitByte d > 55 ↔ 7 < (d : Nat) := by decide
  simp only [Scan.overflows, h8, h7]
  by_cases hsign : s.sign = -1
  · simp
    omega
  · simp
    omega

variable {dtype : Dtype} {s : Scan} {n : Nat}

theorem Tracks.push {d : Fin 10}
    (h : Tracks dtype s.sign n s.value)
    (hlimit : s.overflows (limitBy10 dtype) (digitByte d) = false) :
    Tracks dtype (s.push (digitByte d)).sign (n * 10 + d) (s.push (digitByte d)).value := by
  rw [overflows_digitByte] at hlimit
  simp only [Scan.push, digitValue_digitByte, Tracks, limitBy10] at h hlimit ⊢
  cases dtype <;> simp only [upperLimit, maxSlong, maxSint64, minSint64, sint64, ne_eq, not_true,
    not_false_eq_true, reduceCtorEq, true_and, false_and, or_false, false_or] at h hlimit ⊢ <;>
      omega

theorem Pushes.tracks {s' : Scan} {pre ds : List (Fin 10)}
    (h : Pushes (limitBy10 dtype) s ds s') (ht : Tracks dtype s.sign (number pre) s.value) :
    Tracks dtype s'.sign (number (pre ++ ds)) s'.value := by
  generalize hlimit : limitBy10 dtype = limit at h
  induction h generalizing pre with
  | nil s => simpa using ht
  | @cons s s' d ds hok _ ih =>
    have := @ih (pre ++ [d]) (by rw [number_concat]; exact ht.push (hlimit ▸ hok))
    simpa using this

/-- What is left behind the mantissa: blanks, or an exponent. -/
def Rest (cs rest : List UInt8) : Prop :=
  (∃ n, cs = blanks n) ∧ rest = [] ∨ cs = rest ∧ ∃ e es, rest = e :: es ∧ (e = lowerE ∨ e = upperE)

section Mantissa

variable {string cs rest : List UInt8} {dtype : Dtype} {s s' : Scan}

theorem rest_nil : Rest [] [] := .inl ⟨⟨0, rfl⟩, rfl⟩

theorem mantissa_rest {c : UInt8} (hc : digit c = false) (hpoint : c ≠ point)
    (hminus : ¬(c = minus ∧ s.signless)) (hplus : ¬(c = plus ∧ s.signless))
    (h : mantissa string dtype (c :: cs) s = .ok (s', rest)) : s' = s ∧ Rest (c :: cs) rest := by
  rw [mantissa, if_neg (by simp [hc]), if_neg hpoint, if_neg hminus, if_neg hplus] at h
  split_ifs at h with he hblank
  · cases h
    exact ⟨rfl, .inr ⟨rfl, c, cs, rfl, he⟩⟩
  · cases hskip : skipSpaces string cs with
    | error e =>
      rw [hskip] at h
      cases h
    | ok u =>
      rw [hskip] at h
      cases h
      refine ⟨rfl, .inl ⟨⟨cs.length + 1, ?_⟩, rfl⟩⟩
      rw [hblank, skipSpaces_eq_ok hskip]
      simp [blanks, replicate_succ]

theorem Scan.signless_eq_false (h : s.fraction = true ∨ s.digitSeen = true ∨ s.sign ≠ 0) :
    s.signless = false := by
  unfold Scan.signless
  obtain h | h | h := h <;> simp [h]

theorem mantissa_fraction (hf : s.fraction = true)
    (h : mantissa string dtype cs s = .ok (s', rest)) :
    ∃ ds tail, cs = ds.map digitByte ++ tail ∧ Rest tail rest ∧
      Pushes (limitBy10 dtype) s ds s' := by
  induction cs generalizing s with
  | nil =>
    cases h
    exact ⟨[], [], rfl, rest_nil, .nil _⟩
  | cons c cs ih =>
    cases hc : digit c with
    | true =>
      obtain ⟨d, rfl⟩ := exists_digitByte hc
      rw [mantissa, if_pos hc] at h
      split_ifs at h with hover
      obtain ⟨ds, tail, rfl, hrest, hpush⟩ := ih (by simp [Scan.push, hf]) h
      exact ⟨d :: ds, tail, rfl, hrest, .cons (by simpa using hover) hpush⟩
    | false =>
      have hsignless := s.signless_eq_false (.inl hf)
      have hpoint : c ≠ point := by
        rintro rfl
        rw [mantissa, if_neg (by simp [hc]), if_pos rfl, if_pos hf] at h
        cases h
      obtain ⟨rfl, hrest⟩ :=
        mantissa_rest hc hpoint (by simp [hsignless]) (by simp [hsignless]) h
      exact ⟨[], c :: cs, rfl, hrest, .nil _⟩

def PushesAll (limit : Int) (s : Scan) (whole : List (Fin 10)) (fraction : Option (List (Fin 10)))
    (s' : Scan) : Prop :=
  ∃ s₁, Pushes limit s whole s₁ ∧ match fraction with
    | none => s' = s₁
    | some ds => Pushes limit { s₁ with fraction := true } ds s'

theorem PushesAll.cons {limit : Int} {d : Fin 10} {whole : List (Fin 10)}
    {fraction : Option (List (Fin 10))} (hover : s.overflows limit (digitByte d) = false)
    (h : PushesAll limit (s.push (digitByte d)) whole fraction s') :
    PushesAll limit s (d :: whole) fraction s' := by
  obtain ⟨s₁, hpush, hfraction⟩ := h
  exact ⟨s₁, .cons hover hpush, hfraction⟩

theorem mantissa_digits (hf : s.fraction = false)
    (hsign : s.signless = true → ∀ c ∈ cs.head?, c ≠ minus ∧ c ≠ plus)
    (h : mantissa string dtype cs s = .ok (s', rest)) :
    ∃ whole fraction tail, cs = whole.map digitByte ++ Literal.fractionText fraction ++ tail ∧
      Rest tail rest ∧ PushesAll (limitBy10 dtype) s whole fraction s' := by
  induction cs generalizing s with
  | nil =>
    cases h
    exact ⟨[], none, [], rfl, rest_nil, _, .nil _, rfl⟩
  | cons c cs ih =>
    cases hc : digit c with
    | true =>
      obtain ⟨d, rfl⟩ := exists_digitByte hc
      rw [mantissa, if_pos hc] at h
      split_ifs at h with hover
      have hnot : (s.push (digitByte d)).signless = false :=
        Scan.signless_eq_false (.inr (.inl rfl))
      obtain ⟨whole, fraction, tail, rfl, hrest, hpush⟩ := @ih (s.push _) hf (by simp [hnot]) h
      exact ⟨d :: whole, fraction, tail, rfl, hrest, hpush.cons (by simpa using hover)⟩
    | false =>
      by_cases hpoint : c = point
      · subst hpoint
        rw [mantissa, if_neg (by simp [hc]), if_pos rfl, if_neg (by simp [hf])] at h
        obtain ⟨ds, tail, rfl, hrest, hpush⟩ := mantissa_fraction rfl h
        exact ⟨[], some ds, tail, rfl, hrest, s, .nil _, hpush⟩
      · have hne := fun hs => hsign hs c rfl
        obtain ⟨rfl, hrest⟩ := mantissa_rest hc hpoint (fun h => (hne h.2).1 h.1)
          (fun h => (hne h.2).2 h.1) h
        exact ⟨[], none, c :: cs, rfl, hrest, s', .nil _, rfl⟩

theorem mantissa_spec (h : mantissa string dtype cs .start = .ok (s', rest)) :
    ∃ sign whole fraction tail,
      cs = Sign.text sign ++ whole.map digitByte ++ Literal.fractionText fraction ++ tail ∧
      Rest tail rest ∧
      PushesAll (limitBy10 dtype) { Scan.start with sign := signValue sign } whole fraction s' := by
  have hsigned : ∀ sign cs, sign ≠ .none →
      mantissa string dtype cs { Scan.start with sign := signValue sign } = .ok (s', rest) →
      ∃ whole fraction tail, cs = whole.map digitByte ++ Literal.fractionText fraction ++ tail ∧
        Rest tail rest ∧
        PushesAll (limitBy10 dtype) { Scan.start with sign := signValue sign } whole fraction
          s' := by
    intro sign cs hne h
    refine mantissa_digits rfl (fun hs => ?_) h
    cases sign <;> simp_all [Scan.signless, signValue]
  have hunsigned : (∀ c ∈ cs.head?, c ≠ minus ∧ c ≠ plus) → _ := fun hne =>
    mantissa_digits rfl (fun _ => hne) h
  cases cs with
  | nil =>
    obtain ⟨whole, fraction, tail, heq, hrest⟩ := hunsigned (by simp)
    exact ⟨.none, whole, fraction, tail, heq, hrest⟩
  | cons c cs =>
    by_cases hminus : c = minus
    · subst hminus
      obtain ⟨whole, fraction, tail, rfl, hrest⟩ := hsigned .minus cs (by decide) h
      exact ⟨.minus, whole, fraction, tail, rfl, hrest⟩
    · by_cases hplus : c = plus
      · subst hplus
        obtain ⟨whole, fraction, tail, rfl, hrest⟩ := hsigned .plus cs (by decide) h
        exact ⟨.plus, whole, fraction, tail, rfl, hrest⟩
      · obtain ⟨whole, fraction, tail, heq, hrest⟩ :=
          hunsigned (by simpa using ⟨hminus, hplus⟩)
        exact ⟨.none, whole, fraction, tail, heq, hrest⟩

theorem PushesAll.spec {sign : Sign} {whole : List (Fin 10)} {fraction : Option (List (Fin 10))}
    (h : PushesAll (limitBy10 dtype) { Scan.start with sign := signValue sign } whole fraction s') :
    s'.sign = signValue sign ∧ s'.digitSeen = !(whole ++ fraction.getD []).isEmpty ∧
      s'.scale = sshort (-(fraction.getD []).length) ∧
      Tracks dtype s'.sign (number (whole ++ fraction.getD [])) s'.value := by
  obtain ⟨s₁, hwhole, hfraction⟩ := h
  obtain ⟨hsign, hf, hseen⟩ := hwhole.frame
  have hscale := hwhole.scale 0 rfl
  have htracks := @Pushes.tracks _ _ _ [] _ hwhole (.inl ⟨rfl, by cases dtype <;> decide⟩)
  cases fraction with
  | none =>
    cases hfraction
    exact ⟨hsign, by simpa [Scan.start] using hseen, by simpa [Scan.start] using hscale,
      by simpa using htracks⟩
  | some ds =>
    obtain ⟨hsign', hf', hseen'⟩ := hfraction.frame
    have hscale' := hfraction.scale 0 (by simpa [Scan.start] using hscale)
    refine ⟨hsign'.trans hsign, ?_, by simpa using hscale', hfraction.tracks htracks⟩
    rw [hseen', hseen]
    cases whole <;> simp [Scan.start]

end Mantissa

section Exponent

variable {string cs : List UInt8} {s s' : ExpScan}

theorem exponent_digits {pre : List (Fin 10)} (hexp : s.exp = number pre) (hlt : s.exp < shortLimit)
    (hsign : s.digitSeen = false → s.sign = 0 → ∀ c ∈ cs.head?, c ≠ minus ∧ c ≠ plus)
    (h : exponent string cs s = .ok s') :
    ∃ ds n, cs = ds.map digitByte ++ blanks n ∧ s'.exp = number (pre ++ ds) ∧ s'.exp < shortLimit ∧
      s'.sign = s.sign ∧ s'.digitSeen = (s.digitSeen || !ds.isEmpty) := by
  induction cs generalizing s pre with
  | nil =>
    cases h
    exact ⟨[], 0, rfl, by simpa using hexp, hlt, rfl, by simp⟩
  | cons c cs ih =>
    cases hc : digit c with
    | true =>
      obtain ⟨d, rfl⟩ := exists_digitByte hc
      have hnext : sshort (s.exp * 10 + digitValue (digitByte d)) = number (pre ++ [d]) := by
        rw [digitValue_digitByte, hexp, number_concat]
        unfold sshort
        unfold shortLimit at hlt
        omega
      rw [exponent, if_pos hc] at h
      dsimp only at h
      split_ifs at h with hlimit
      obtain ⟨ds, n, rfl, hexp', hlt', hsign', hseen⟩ :=
        ih hnext (Int.not_le.1 hlimit) (fun h => by simp at h) h
      exact ⟨d :: ds, n, rfl, by simpa using hexp', hlt', hsign', by simpa using hseen⟩
    | false =>
      have hne := fun hs hs' => hsign hs hs' c rfl
      rw [exponent, if_neg (by simp [hc]), if_neg fun h => (hne (by simpa using h.2.1) h.2.2).1 h.1,
        if_neg fun h => (hne (by simpa using h.2.1) h.2.2).2 h.1] at h
      split_ifs at h with hblank
      cases hskip : skipSpaces string cs with
      | error e =>
        rw [hskip] at h
        cases h
      | ok u =>
        rw [hskip] at h
        cases h
        refine ⟨[], cs.length + 1, ?_, by simpa using hexp, hlt, rfl, by simp⟩
        rw [hblank, skipSpaces_eq_ok hskip]
        simp [blanks, replicate_succ]

theorem exponent_spec (h : exponent string cs ⟨0, 0, false⟩ = .ok s') :
    ∃ sign ds n, cs = Sign.text sign ++ ds.map digitByte ++ blanks n ∧ s'.exp = number ds ∧
      s'.exp < shortLimit ∧ s'.sign = signValue sign ∧ s'.digitSeen = !ds.isEmpty := by
  have hsigned : ∀ sign cs, (signValue sign = 0 → ∀ c ∈ cs.head?, c ≠ minus ∧ c ≠ plus) →
      exponent string cs ⟨0, signValue sign, false⟩ = .ok s' →
      ∃ ds n, cs = ds.map digitByte ++ blanks n ∧ s'.exp = number ds ∧ s'.exp < shortLimit ∧
        s'.sign = signValue sign ∧ s'.digitSeen = !ds.isEmpty := by
    intro sign cs hne h
    have hlt : (0 : Int) < shortLimit := by decide
    have := @exponent_digits _ _ ⟨0, signValue sign, false⟩ _ [] rfl hlt (fun _ => hne) h
    simpa using this
  by_cases hminus : cs.head? = some minus
  · obtain ⟨cs, rfl⟩ := head?_eq_some_iff.1 hminus
    obtain ⟨ds, n, rfl, hrest⟩ := hsigned .minus cs (fun h => by cases h) h
    exact ⟨.minus, ds, n, rfl, hrest⟩
  · by_cases hplus : cs.head? = some plus
    · obtain ⟨cs, rfl⟩ := head?_eq_some_iff.1 hplus
      obtain ⟨ds, n, rfl, hrest⟩ := hsigned .plus cs (fun h => by cases h) h
      exact ⟨.plus, ds, n, rfl, hrest⟩
    · obtain ⟨ds, n, rfl, hrest⟩ := hsigned .none cs
        (fun _ c hc => ⟨fun h => hminus (h ▸ hc), fun h => hplus (h ▸ hc)⟩) h
      exact ⟨.none, ds, n, rfl, hrest⟩

theorem applyExponent_spec {tail rest : List UInt8} {x scale : Int} (hrest : Rest tail rest)
    (h : applyExponent string (sshort x) rest = .ok scale) :
    ∃ exponent n, tail = Literal.exponentText exponent ++ blanks n ∧
      scale = sshort (x + (exponent.map Exponent.value).getD 0) ∧
      (exponent.map Exponent.value).getD 0 < shortLimit ∧
      -shortLimit < (exponent.map Exponent.value).getD 0 := by
  obtain ⟨⟨n, rfl⟩, rfl⟩ | ⟨rfl, e, es, rfl, he⟩ := hrest
  · cases h
    exact ⟨none, n, rfl, by simp, by decide, by decide⟩
  · rw [applyExponent] at h
    cases hexp : exponent string es ⟨0, 0, false⟩ with
    | error err =>
      rw [hexp] at h
      cases h
    | ok s =>
      obtain ⟨sign, ds, n, rfl, hnumber, hlt, hsign, hseen⟩ := exponent_spec hexp
      rw [hexp] at h
      cases hds : ds.isEmpty with
      | true => simp [hseen, hds, bind, Except.bind] at h
      | false =>
        have hne : ds ≠ [] := by
          rintro rfl
          cases hds
        simp only [bind, Except.bind, hseen, hds, Bool.not_false, if_true, pure, Except.pure,
          Except.ok.injEq] at h
        refine ⟨some ⟨decide (e = upperE), sign, ds, hne⟩, n, ?_, ?_, ?_, ?_⟩
        · obtain rfl | rfl := he <;> simp [Literal.exponentText, Exponent.text, lowerE, upperE]
        · rw [← h, hsign, hnumber]
          cases sign <;>
            simp [signValue, Exponent.value, Sign.factor, sshort] <;> omega
        all_goals
          cases sign <;>
            simp [Exponent.value, Sign.factor] at hlt ⊢ <;> omega

end Exponent

/-- The mantissa fits `SINT64`. -/
def FitsSint64 (lit : Literal) : Prop := minSint64 ≤ lit.mantissa ∧ lit.mantissa ≤ maxSint64

/-- The scale fits `SSHORT`; it is never too large. -/
def FitsSshort (lit : Literal) : Prop := -2 ^ 15 ≤ lit.scale

structure Converts (lit : Literal) (m s : Int) : Prop where
  scale : s = sshort lit.scale
  mantissa : FitsSint64 lit → m = lit.mantissa
  range : minSint64 ≤ m ∧ m ≤ maxSint64
  exponent : -shortLimit < lit.exponentValue ∧ lit.exponentValue < shortLimit
  length : lit.whole.length + lit.fractionDigits.length < 2 ^ 16

section Converts

variable {lit : Literal} {m s : Int}

theorem Converts.scale_eq (h : Converts lit m s) (hfits : FitsSshort lit) : s = lit.scale := by
  have hexp := h.exponent.2
  rw [h.scale]
  unfold FitsSshort at hfits
  unfold Literal.scale shortLimit sshort at *
  omega

theorem Converts.scale_wraps (h : Converts lit m s) (hfits : ¬FitsSshort lit) :
    s = lit.scale + (2 ^ 16 : Nat) := by
  have hexp := h.exponent.1
  have hlen := h.length
  rw [h.scale]
  unfold FitsSshort at hfits
  unfold Literal.scale shortLimit sshort at *
  omega

theorem Converts.eq_iff (h : Converts lit m s) :
    m = lit.mantissa ∧ s = lit.scale ↔ FitsSint64 lit ∧ FitsSshort lit := by
  constructor
  · rintro ⟨hm, hs⟩
    have hrange := h.range
    have hscale := h.scale
    refine ⟨by rwa [hm] at hrange, ?_⟩
    unfold FitsSshort
    unfold sshort at hscale
    omega
  · rintro ⟨hm, hs⟩
    exact ⟨h.mantissa hm, h.scale_eq hs⟩

theorem Converts.value_iff (h : Converts lit m s) :
    (m : ℚ) * 10 ^ s = lit.value ↔ FitsSint64 lit ∧ (FitsSshort lit ∨ lit.mantissa = 0) := by
  have hfits : m = lit.mantissa ↔ FitsSint64 lit :=
    ⟨fun hm => by have := h.range; rwa [hm] at this, h.mantissa⟩
  by_cases hs : FitsSshort lit
  · have := lit.mul_zpow_eq_value m 0
    simp only [Nat.cast_zero, Int.add_zero, pow_zero, Int.mul_one] at this
    rw [h.scale_eq hs, this, hfits]
    simp [hs]
  · rw [h.scale_wraps hs, lit.mul_zpow_eq_value_of_le (by have := h.length; omega), ← hfits]
    constructor
    · rintro ⟨hm, hM⟩
      exact ⟨hm.trans hM.symm, .inr hM⟩
    · rintro ⟨hm, hs' | hM⟩
      · exact absurd hs' hs
      · exact ⟨hm.trans hM, hM⟩

end Converts

theorem length_text_le (lit : Literal) :
    lit.whole.length + lit.fractionDigits.length ≤ lit.text.length := by
  obtain ⟨sign, whole, fraction, exponent, hne⟩ := lit
  cases fraction <;> simp [Literal.text, Literal.fractionDigits, Literal.fractionText] <;> omega

theorem dropWhile_blank (string : List UInt8) :
    ∃ a, string = blanks a ++ string.dropWhile (· = blank) := by
  refine ⟨(string.takeWhile (· = blank)).length, ?_⟩
  rw [← all_blank all_takeWhile, takeWhile_append_dropWhile]

theorem Tracks.signedValue {sign : Sign}
    (h : Tracks dtype s.sign n s.value) (hsign : s.sign = signValue sign)
    (hn : minSint64 ≤ sign.factor * n) : Cvt.signedValue dtype s = sign.factor * n := by
  rw [hsign] at h
  unfold Cvt.signedValue
  rw [hsign]
  cases dtype <;> cases sign <;> simp [Tracks, signValue, Sign.factor, lowerLimit, minSlong,
    minSint64, sint64] at h hn ⊢ <;> omega

theorem Tracks.range (h : Tracks dtype s.sign n s.value) :
    lowerLimit dtype ≤ Cvt.signedValue dtype s ∧ Cvt.signedValue dtype s ≤ upperLimit dtype := by
  unfold Cvt.signedValue
  by_cases hsign : s.sign = -1
  · cases dtype <;> simp [Tracks, lowerLimit, upperLimit, minSlong, maxSlong, minSint64, maxSint64,
      sint64] at h ⊢ <;> split_ifs <;> omega
  · cases dtype <;> simp [Tracks, hsign, lowerLimit, minSlong, minSint64] at h ⊢ <;> omega

theorem returnValue_eq {value : Int} (hlo : lowerLimit dtype ≤ value)
    (hhi : value ≤ upperLimit dtype) : returnValue dtype value = value := by
  cases dtype <;> simp [returnValue, lowerLimit, upperLimit, minSlong, maxSlong, slong] at hlo hhi ⊢
  omega

theorem PushesAll.converts {lit : Literal}
    (h : PushesAll (limitBy10 dtype) { Scan.start with sign := signValue lit.sign } lit.whole
      lit.fraction s)
    (hexp : -shortLimit < lit.exponentValue ∧ lit.exponentValue < shortLimit)
    (hlen : lit.text.length < 2 ^ 16) :
    Converts lit (Cvt.signedValue dtype s) (sshort lit.scale) := by
  obtain ⟨hsign, -, -, htracks⟩ := h.spec
  obtain ⟨hlo, hhi⟩ := htracks.range
  have hle := length_text_le lit
  refine ⟨rfl, fun hfits => htracks.signedValue hsign hfits.1, ?_, hexp, by omega⟩
  cases dtype <;> simp [lowerLimit, upperLimit, minSlong, maxSlong, minSint64, maxSint64]
    at hlo hhi ⊢ <;> omega

theorem decompose_spec {m s : Int}
    (hlen : string.length < 2 ^ 16)
    (h : decompose string dtype = .ok (m, s)) :
    ∃ lit a b, string = blanks a ++ lit.text ++ blanks b ∧ Converts lit m s := by
  unfold decompose at h
  split_ifs at h with hquad
  obtain ⟨a, ha⟩ := dropWhile_blank string
  cases hm : mantissa string dtype (string.dropWhile (· = blank)) .start with
  | error e =>
    rw [hm] at h
    cases h
  | ok r =>
    obtain ⟨s₁, rest⟩ := r
    obtain ⟨sign, whole, fraction, tail, hcs, hrest, hpush⟩ := mantissa_spec hm
    obtain ⟨hsign, hseen, hscale, htracks⟩ := hpush.spec
    rw [hm] at h
    simp only [bind, Except.bind] at h
    split_ifs at h with hdigits
    rw [hscale] at h
    cases hexp : applyExponent string (sshort (-(fraction.getD []).length)) rest with
    | error e =>
      rw [hexp] at h
      cases h
    | ok scale =>
      obtain ⟨exponent, b, rfl, hs, hlt, hgt⟩ := applyExponent_spec hrest hexp
      obtain ⟨hlo, hhi⟩ := htracks.range
      rw [returnValue_eq hlo hhi] at h
      simp only [hexp, pure, Except.pure, Except.ok.injEq, Prod.mk.injEq] at h
      obtain ⟨rfl, rfl⟩ := h
      have hne : whole ++ fraction.getD [] ≠ [] := by
        rw [hdigits] at hseen
        simpa using hseen
      let lit : Literal := ⟨sign, whole, fraction, exponent, hne⟩
      have htext : string = blanks a ++ lit.text ++ blanks b := by
        rw [ha, hcs]
        simp [Literal.text, lit]
      have hscale' : scale = sshort lit.scale := by
        rw [hs]
        unfold Literal.scale
        congr 1
        simp only [Literal.exponentValue, Literal.fractionDigits, lit]
        omega
      refine ⟨lit, a, b, htext, hscale' ▸ hpush.converts ⟨hgt, hlt⟩ ?_⟩
      rw [htext] at hlen
      simp only [length_append] at hlen
      omega

theorem numeric_eq_mantissa {s' : Scan}
    (h : numeric string cs s = .ok (s', [])) :
    mantissa string .int64 (cs.filter (· ≠ blank)) s = .ok (s', []) := by
  induction cs generalizing s with
  | nil => exact h
  | cons c cs ih =>
    by_cases hblank : c = blank
    · subst hblank
      simpa using ih h
    · rw [numeric] at h
      rw [filter_cons_of_pos (by simpa using hblank), mantissa,
        show limitBy10 .int64 = numericLimit by decide]
      split_ifs at h ⊢ <;> first | exact ih h | cases h

/-- What `CVT_get_numeric` stores for a value: it means to store the least `SLONG`, but stores the
low half of the least `long`. -/
def stored (value : Int) : Int := if value = minSlong then 0 else value

theorem getNumeric_eq {δ : Type} {getDouble : List UInt8 → Except Error δ}
    {m s : Int} (h : getNumeric getDouble string = .ok (.long m s) ∨
      getNumeric getDouble string = .ok (.int64 m s)) :
    ∃ s₁, numeric string string .start = .ok (s₁, []) ∧ s₁.digitSeen = true ∧ s = s₁.scale ∧
      (minSint64 ≤ s₁.value ∧ s₁.value ≤ maxSint64 →
        m = stored (signedValue .int64 s₁)) := by
  unfold getNumeric at h
  cases hn : numeric string string .start with
  | error e =>
    rw [hn] at h
    obtain h | h := h <;> cases h
  | ok r =>
    obtain ⟨s₁, rest⟩ := r
    rw [hn] at h
    simp only [bind, Except.bind] at h
    cases hdigits : s₁.digitSeen with
    | false => simp [hdigits] at h
    | true =>
      rw [if_pos hdigits] at h
      by_cases hdouble : rest ≠ [] ∨ (s₁.value < 0 ∧ s₁.sign ≠ -1)
      · rw [if_pos hdouble] at h
        cases hd : getDouble string <;> simp [hd, pure, Except.pure] at h
      · rw [if_neg hdouble] at h
        push Not at hdouble
        obtain ⟨rfl, hneg⟩ := hdouble
        refine ⟨s₁, rfl, hdigits, ?_⟩
        rw [signedValue, show lowerLimit .int64 = minSint64 from rfl]
        simp only [pure, Except.pure] at h
        by_cases hlong : s₁.value ≤ maxSlong ∧ s₁.value ≥ 0
        · rw [if_pos hlong] at h
          simp only [Except.ok.injEq, reduceCtorEq, or_false] at h
          obtain ⟨rfl, rfl⟩ := h
          refine ⟨rfl, fun hrange => ?_⟩
          unfold maxSlong at hlong
          unfold stored minSint64 minSlong sint64 slong
          split_ifs <;> omega
        · by_cases hmin : s₁.sign = -1 ∧ sint64 (-s₁.value) = minSlong
          · rw [if_neg hlong, if_pos hmin] at h
            simp only [Except.ok.injEq, reduceCtorEq, or_false] at h
            obtain ⟨rfl, rfl⟩ := h
            refine ⟨rfl, fun hrange => ?_⟩
            have hsigned : (if s₁.sign = -1 ∧ s₁.value ≠ minSint64 then sint64 (-s₁.value)
                else s₁.value) = minSlong := by
              unfold minSlong minSint64 sint64 at *
              split_ifs <;> omega
            rw [hsigned, stored, if_pos rfl]
            rfl
          · rw [if_neg hlong, if_neg hmin] at h
            simp only [Except.ok.injEq, reduceCtorEq, false_or] at h
            obtain ⟨rfl, rfl⟩ := h
            refine ⟨rfl, fun hrange => ?_⟩
            unfold minSlong sint64 at hmin
            unfold maxSlong at hlong
            unfold stored minSint64 minSlong sint64
            split_ifs <;> omega

theorem Tracks.value_range (h : Tracks .int64 s.sign n s.value) :
    minSint64 ≤ s.value ∧ s.value ≤ maxSint64 := by
  simp only [Tracks, upperLimit, minSint64, maxSint64] at h ⊢
  omega

theorem getNumeric_spec {δ : Type} {getDouble : List UInt8 → Except Error δ}
    {m s : Int} (hlen : string.length < 2 ^ 16) (h : getNumeric getDouble string = .ok (.long m s) ∨
      getNumeric getDouble string = .ok (.int64 m s)) :
    ∃ (lit : Literal) (value : Int), string.filter (· ≠ blank) = lit.text ∧ m = stored value ∧
      Converts lit value s := by
  obtain ⟨s₁, hn, hdigits, rfl, hm⟩ := getNumeric_eq h
  obtain ⟨sign, whole, fraction, tail, hcs, hrest, hpush⟩ := mantissa_spec (numeric_eq_mantissa hn)
  obtain ⟨-, hseen, hscale, htracks⟩ := hpush.spec
  have htail : tail = [] := by
    obtain ⟨⟨n, rfl⟩, -⟩ | ⟨-, e, es, h, -⟩ := hrest
    · have hnot : blank ∉ string.filter (· ≠ blank) := by simp
      rw [hcs] at hnot
      cases n with
      | zero => rfl
      | succ n => simp [blanks] at hnot
    · cases h
  have hne : whole ++ fraction.getD [] ≠ [] := by
    rw [hdigits] at hseen
    simpa using hseen
  let lit : Literal := ⟨sign, whole, fraction, none, hne⟩
  have htext : string.filter (· ≠ blank) = lit.text := by
    rw [hcs, htail]
    simp [Literal.text, Literal.exponentText, lit]
  have hscale' : s₁.scale = sshort lit.scale := by
    rw [hscale]
    congr 1
    simp [Literal.scale, Literal.exponentValue, Literal.fractionDigits, lit]
  refine ⟨lit, _, htext, hm htracks.value_range, ?_⟩
  rw [hscale']
  have hexp : -shortLimit < (0 : Int) ∧ (0 : Int) < shortLimit := by decide
  refine hpush.converts hexp ?_
  rw [← htext]
  exact (length_filter_le _ _).trans_lt hlen

theorem Converts.stored_iff {lit : Literal} {value m s : Int} (h : Converts lit value s)
    (hm : m = stored value) :
    ((m : ℚ) * 10 ^ s = lit.value ↔
      FitsSint64 lit ∧ (FitsSshort lit ∨ lit.mantissa = 0) ∧ lit.mantissa ≠ minSlong) ∧
    (m = lit.mantissa ∧ s = lit.scale ↔
      FitsSint64 lit ∧ FitsSshort lit ∧ lit.mantissa ≠ minSlong) := by
  by_cases hmin : value = minSlong
  · have hne : FitsSint64 lit → lit.mantissa = minSlong := fun hfits =>
      (h.mantissa hfits).symm.trans hmin
    -- Zero is stored, and the mantissa of the literal is not zero.
    have hzero : lit.mantissa ≠ 0 := by
      intro hz
      have hfits : FitsSint64 lit := by
        unfold FitsSint64
        rw [hz]
        decide
      rw [hne hfits] at hz
      cases hz
    rw [stored, if_pos hmin] at hm
    subst hm
    refine ⟨iff_of_false ?_ fun hr => hr.2.2 (hne hr.1),
      iff_of_false (fun hl => hzero hl.1.symm) fun hr => hr.2.2 (hne hr.1)⟩
    have hvalue : lit.value ≠ 0 := by
      rw [lit.value_eq]
      exact mul_ne_zero (by exact_mod_cast hzero) (zpow_ne_zero _ (by norm_num))
    rw [Int.cast_zero, zero_mul]
    exact fun hl => hvalue hl.symm
  · rw [stored, if_neg hmin] at hm
    subst hm
    have hne : FitsSint64 lit → lit.mantissa ≠ minSlong := fun hfits => h.mantissa hfits ▸ hmin
    rw [h.value_iff, h.eq_iff]
    exact ⟨⟨fun hl => ⟨hl.1, hl.2, hne hl.1⟩, fun hr => ⟨hr.1, hr.2.1⟩⟩,
      ⟨fun hl => ⟨hl.1, hl.2, hne hl.1⟩, fun hr => ⟨hr.1, hr.2.1⟩⟩⟩

/-- What is accepted is a literal. Its value is returned if and only if the mantissa fits 64 bits
and the scale 16 bits, or the mantissa is zero; and only if both fit has no variable wrapped.
`CVT_get_numeric` does not return the least `SLONG`, either. -/
theorem decimal_conversion_exact {string : List UInt8} (hlen : string.length < 2 ^ 16) :
    (∀ dtype m s, decompose string dtype = .ok (m, s) →
      ∃ lit : Literal, (∃ a b, string = blanks a ++ lit.text ++ blanks b) ∧
        ((m : ℚ) * 10 ^ s = lit.value ↔ FitsSint64 lit ∧ (FitsSshort lit ∨ lit.mantissa = 0)) ∧
        (m = lit.mantissa ∧ s = lit.scale ↔ FitsSint64 lit ∧ FitsSshort lit)) ∧
    ∀ (δ : Type) (getDouble : List UInt8 → Except Error δ) (m s : Int),
      getNumeric getDouble string = .ok (.long m s) ∨
        getNumeric getDouble string = .ok (.int64 m s) →
      ∃ lit : Literal, string.filter (· ≠ blank) = lit.text ∧
        ((m : ℚ) * 10 ^ s = lit.value ↔
          FitsSint64 lit ∧ (FitsSshort lit ∨ lit.mantissa = 0) ∧ lit.mantissa ≠ minSlong) ∧
        (m = lit.mantissa ∧ s = lit.scale ↔
          FitsSint64 lit ∧ FitsSshort lit ∧ lit.mantissa ≠ minSlong) := by
  refine ⟨fun dtype m s h => ?_, fun δ getDouble m s h => ?_⟩
  · obtain ⟨lit, a, b, htext, hconv⟩ := decompose_spec hlen h
    exact ⟨lit, ⟨a, b, htext⟩, hconv.value_iff, hconv.eq_iff⟩
  · obtain ⟨lit, value, htext, hm, hconv⟩ := getNumeric_spec hlen h
    exact ⟨lit, htext, hconv.stored_iff hm⟩

/-- `" -12.5E3"` -/
theorem decimal_conversion_exact_exponent :
    ∃ lit : Literal, (∃ a b, [32, 45, 49, 50, 46, 53, 69, 51] = blanks a ++ lit.text ++ blanks b) ∧
      (((-125 : Int) : ℚ) * 10 ^ (2 : Int) = lit.value ↔
        FitsSint64 lit ∧ (FitsSshort lit ∨ lit.mantissa = 0)) ∧
      ((-125 : Int) = lit.mantissa ∧ (2 : Int) = lit.scale ↔ FitsSint64 lit ∧ FitsSshort lit) :=
  (decimal_conversion_exact (by decide)).1 .int64 (-125) 2 (by decide +kernel)

/-- Behind the digits of `2 ^ 63` one more digit of a negative number is taken for all of it. -/
theorem digits_lost :
    ∃ lit : Literal, decompose lit.text .int64 = .ok (-1, 0) ∧
      getNumeric (fun _ => .ok ()) lit.text = .ok (.long (-1) 0) ∧
      ((-1 : Int) : ℚ) * 10 ^ (0 : Int) ≠ lit.value := by
  refine ⟨⟨.minus, [9, 2, 2, 3, 3, 7, 2, 0, 3, 6, 8, 5, 4, 7, 7, 5, 8, 0, 8, 1], none, none,
    by decide⟩, by decide +kernel, by decide +kernel, ?_⟩
  have := Literal.mul_zpow_eq_value ⟨.minus, [9, 2, 2, 3, 3, 7, 2, 0, 3, 6, 8, 5, 4, 7, 7, 5, 8, 0,
    8, 1],
    none, none, by decide⟩ (-1) 0
  exact fun h => absurd (this.1 h) (by decide +kernel)

/-- `"-2147483648"` -/
example : getNumeric (fun _ => Except.ok ()) [45, 50, 49, 52, 55, 52, 56, 51, 54, 52, 56] =
    .ok (.long 0 0) := by decide +kernel

end Firebird.Jrd.Cvt
