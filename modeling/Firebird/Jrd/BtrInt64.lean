import Mathlib.Algebra.Order.Field.Rat
import Mathlib.Data.Int.Cast.Lemmas
import Mathlib.Tactic.FieldSimp
import Mathlib.Tactic.Linarith
import Mathlib.Tactic.Ring

/-!
# Keys for 64-bit integers

`make_int64_key` multiplies a scaled integer by the largest power of ten that a table allows, so
that different representations of one value have the same key. The part of the key that is a
`double` is taken as the exact quotient here.
-/
namespace Firebird.Jrd.Btr

/-- An entry of `int64_scale_control`. -/
structure ScaleControl where
  limit : Nat
  factor : Int
  scaleChange : Int

def int64ScaleControl : List ScaleControl :=
  [⟨922337203685470000, 1, 0⟩, ⟨92233720368547000, 10, 1⟩, ⟨9223372036854700, 100, 2⟩,
    ⟨922337203685470, 1000, 3⟩, ⟨92233720368548, 10000, 4⟩, ⟨9223372036855, 100000, 5⟩,
    ⟨922337203686, 1000000, 6⟩, ⟨92233720369, 10000000, 7⟩, ⟨9223372035, 100000000, 8⟩,
    ⟨922337204, 1000000000, 9⟩, ⟨92233721, 10000000000, 10⟩, ⟨9223373, 100000000000, 11⟩,
    ⟨922338, 1000000000000, 12⟩, ⟨92234, 10000000000000, 13⟩, ⟨9224, 100000000000000, 14⟩,
    ⟨923, 1000000000000000, 15⟩, ⟨93, 10000000000000000, 16⟩, ⟨10, 100000000000000000, 17⟩,
    ⟨1, 1000000000000000000, 18⟩, ⟨0, 0, 0⟩]

/-- The first entry whose limit is reached; the last limit is 0. -/
def scaleControl (uq : Nat) : List ScaleControl → ScaleControl
  | [] => ⟨0, 0, 0⟩
  | entry :: table => if uq < entry.limit then scaleControl uq table else entry

/-- Conversion to `SINT64`. -/
def sint64 (n : Int) : Int := n.bmod (2 ^ 64)

def pow10Table : List ℚ := (List.range 37).map (10 ^ ·)

/-- `pow10_table[i]`. What lies in front of the table or behind it is not known. -/
def pow10 (i : Int) : Option ℚ := if 0 ≤ i then pow10Table[i.toNat]? else none

/-- `powerof10`, which takes the same index for a positive scale. -/
def powerof10 (s : Int) : Option ℚ := if s ≤ 0 then pow10 (-s) else (pow10 (-s)).map (1 / ·)

/-- `INT64_KEY`; no `d_part` is known after a read beside the table. -/
structure Int64Key where
  dPart : Option ℚ
  sPart : Int

def makeInt64Key (q scale : Int) : Int64Key :=
  let control := scaleControl q.natAbs int64ScaleControl
  let q := sint64 (q * control.factor)
  let scale := scale - control.scaleChange
  { dPart := (powerof10 scale).map fun p => (q.tdiv 10000 : Int) / p
    sPart := q.tmod 10000 }

/-- The range of `SINT64`. -/
def IsSint64 (n : Int) : Prop := -2 ^ 63 ≤ n ∧ n < 2 ^ 63

def keyTop : Nat := 9223372036854700000

/-- The bounds for the numbers that are multiplied by `10 ^ n`, the greatest and the lowest of which
are given. -/
def Bounds (n high low : Nat) : Prop :=
  (1 ≤ n → high * 10 ^ n ≤ keyTop) ∧ (n < 4 → keyTop ≤ low * 10 ^ (n + 1)) ∧
    (1 ≤ n → n < 4 → high * 10 ^ n < keyTop) ∧ (4 ≤ n → high * 10 ^ 4 < keyTop)

instance (n high low : Nat) : Decidable (Bounds n high low) :=
  inferInstanceAs (Decidable (_ ∧ _ ∧ _ ∧ _))

theorem Bounds.mono {n high low u : Nat} (h : Bounds n high low) (hhigh : u ≤ high)
    (hlow : low ≤ u) :
    Bounds n u u := by
  obtain ⟨h₁, h₂, h₃, h₄⟩ := h
  refine ⟨fun hn => ?_, fun hn => ?_, fun hn hn' => ?_, fun hn => ?_⟩
  · exact (Nat.mul_le_mul_right _ hhigh).trans (h₁ hn)
  · exact (h₂ hn).trans (Nat.mul_le_mul_right _ hlow)
  · exact lt_of_le_of_lt (Nat.mul_le_mul_right _ hhigh) (h₃ hn hn')
  · exact lt_of_le_of_lt (Nat.mul_le_mul_right _ hhigh) (h₄ hn)

/-- The entries of a table from the power `n` on, for numbers below a bound. -/
def Sound : Nat → Nat → List ScaleControl → Prop
  | _, _, [] => False
  | bound, n, entry :: table =>
    bound = 1 ∨ entry.factor = 10 ^ n ∧ entry.scaleChange = n ∧
      Bounds n (bound - 1) entry.limit ∧ Sound entry.limit (n + 1) table

instance : ∀ bound n table, Decidable (Sound bound n table)
  | _, _, [] => inferInstanceAs (Decidable False)
  | _, n, entry :: table =>
    have : Decidable (Sound entry.limit (n + 1) table) := instDecidableSound _ _ _
    inferInstanceAs (Decidable (_ ∨ _ ∧ _ ∧ _ ∧ _))

theorem Sound.scaleControl {bound n u : Nat} {table : List ScaleControl} (h : Sound bound n table)
    (hpos : 0 < u) (hlt : u < bound) :
    ∃ m limit : Nat, scaleControl u table = ⟨limit, 10 ^ m, m⟩ ∧ Bounds m u u := by
  induction table generalizing bound n with
  | nil => exact h.elim
  | cons entry table ih =>
    rw [Btr.scaleControl]
    rcases h with hone | ⟨hfactor, hscale, hbounds, hrest⟩
    · omega
    · split_ifs with hlimit
      · exact ih hrest hlimit
      · refine ⟨n, entry.limit, ?_, hbounds.mono (by omega) (by omega)⟩
        rw [← hfactor, ← hscale]

theorem sound_int64ScaleControl : Sound (2 ^ 63 + 1) 0 int64ScaleControl := by decide

/-! ## Keys -/

structure ExactKey where
  dPart : ℚ
  sPart : Int

def exactKey (q scale : Int) : ExactKey :=
  let control := scaleControl q.natAbs int64ScaleControl
  let q := sint64 (q * control.factor)
  ⟨(q.tdiv 10000 : Int) * 10 ^ (scale - control.scaleChange), q.tmod 10000⟩

/-- The power of ten that is asked for is in the table. -/
def InTable (q scale : Int) : Prop :=
  (-36 : Int) ≤ scale - (scaleControl q.natAbs int64ScaleControl).scaleChange ∧
    scale - (scaleControl q.natAbs int64ScaleControl).scaleChange ≤ 0

instance (q scale : Int) : Decidable (InTable q scale) := inferInstanceAs (Decidable (_ ∧ _))

theorem powerof10_of_mem {s : Int} (h : -36 ≤ s ∧ s ≤ 0) : powerof10 s = some (10 ^ (-s)) := by
  obtain ⟨n, hn⟩ := Int.eq_ofNat_of_zero_le (by omega : 0 ≤ -s)
  rw [powerof10, if_pos h.2, pow10, if_pos (by omega), hn, Int.toNat_natCast, pow10Table,
    List.getElem?_map, List.getElem?_range (by omega), zpow_natCast]
  rfl

theorem powerof10_eq_none {s : Int} (h : ¬(-36 ≤ s ∧ s ≤ 0)) : powerof10 s = none := by
  rw [powerof10]
  split_ifs with hs
  · rw [pow10, if_pos (by omega), List.getElem?_eq_none]
    rw [pow10Table, List.length_map, List.length_range]
    omega
  · rw [pow10, if_neg (by omega), Option.map_none]

theorem makeInt64Key_of_inTable {q scale : Int} (h : InTable q scale) :
    makeInt64Key q scale = ⟨some (exactKey q scale).dPart, (exactKey q scale).sPart⟩ := by
  simp only [makeInt64Key, exactKey]
  rw [powerof10_of_mem h, Option.map_some, zpow_neg, div_inv_eq_mul]

theorem dPart_eq_none {q scale : Int} (h : ¬InTable q scale) :
    (makeInt64Key q scale).dPart = none := by
  simp only [makeInt64Key]
  rw [powerof10_eq_none h, Option.map_none]


section

variable {q q' scale scale' : Int} {n : Nat}

def Power (q : Int) (n : Nat) : Prop :=
  (∃ limit, scaleControl q.natAbs int64ScaleControl = ⟨limit, 10 ^ n, n⟩) ∧
    Bounds n q.natAbs q.natAbs

theorem exists_power (hq : IsSint64 q) (hne : q ≠ 0) : ∃ n, Power q n := by
  obtain ⟨h₁, h₂⟩ := hq
  obtain ⟨n, limit, hcontrol, hbounds⟩ :=
    sound_int64ScaleControl.scaleControl (Int.natAbs_pos.2 hne) (by omega : q.natAbs < 2 ^ 63 + 1)
  exact ⟨n, ⟨limit, hcontrol⟩, hbounds⟩

theorem Power.isSint64 (h : Power q n) (hq : IsSint64 q) : IsSint64 (q * 10 ^ n) := by
  obtain ⟨-, hle, -⟩ := h
  by_cases hn : 1 ≤ n
  · have habs : (q * 10 ^ n).natAbs ≤ keyTop := by
      rw [Int.natAbs_mul, Int.natAbs_pow]
      exact hle hn
    rw [keyTop] at habs
    rw [IsSint64]
    omega
  · rw [show n = 0 by omega, pow_zero, mul_one]
    exact hq

theorem sint64_of_isSint64 (h : IsSint64 q) : sint64 q = q :=
  Int.bmod_eq_of_le (by have := h.1; omega) (by have := h.2; omega)

theorem Power.exactKey_eq (h : Power q n) (hq : IsSint64 q) :
    exactKey q scale = ⟨((q * 10 ^ n).tdiv 10000 : Int) * 10 ^ (scale - n), (q * 10 ^ n).tmod
      10000⟩ := by
  obtain ⟨limit, hcontrol⟩ := h.1
  rw [exactKey]
  simp only [hcontrol]
  rw [sint64_of_isSint64 (h.isSint64 hq)]

theorem Power.exactKey_of_dvd (h : Power q n) (hq : IsSint64 q)
    (hdvd : (10000 : Int) ∣ q * 10 ^ n) :
    exactKey q scale = ⟨q * 10 ^ scale / 10000, 0⟩ := by
  rw [h.exactKey_eq hq, Int.tmod_eq_zero_of_dvd hdvd]
  congr 1
  have hcast : ((q * 10 ^ n).tdiv 10000 : Int) * (10000 : ℚ) = q * 10 ^ n := by
    have := Int.tdiv_mul_cancel hdvd
    exact_mod_cast this
  rw [eq_div_iff (by norm_num), mul_right_comm, hcast, zpow_sub₀ (by norm_num), zpow_natCast]
  field_simp

theorem Power.dvd_mul_of_le {m : Nat} (hm : 4 ≤ m) : (10000 : Int) ∣ q * 10 ^ m := by
  obtain ⟨j, rfl⟩ : ∃ j, m = 4 + j := ⟨m - 4, by omega⟩
  rw [pow_add]
  exact Dvd.dvd.mul_left (Dvd.intro _ rfl) q

theorem mul_pow_le_mul_pow {u a b : Nat} (h : a ≤ b) : u * 10 ^ a ≤ u * 10 ^ b :=
  Nat.mul_le_mul_left _ (Nat.pow_le_pow_right (by omega) h)

variable {k n' : Nat}

theorem Power.eq_add (h : Power q n) (h' : Power (q * 10 ^ k) n') (hn : n < 4)
    (hk : k ≤ n) : n = k + n' := by
  obtain ⟨-, -, hlow, hhigh, -⟩ := h
  obtain ⟨-, -, hlow', hhigh', hfour'⟩ := h'
  rw [Int.natAbs_mul, Int.natAbs_pow, show Int.natAbs 10 = 10 from rfl] at hlow' hhigh' hfour'
  simp only [Nat.mul_assoc, ← Nat.pow_add] at hlow' hhigh' hfour'
  have hn' : n' < 4 := by
    by_contra hge
    have hle := mul_pow_le_mul_pow (u := q.natAbs) (by omega : n + 1 ≤ k + 4)
    omega
  rcases lt_trichotomy n (k + n') with hlt | heq | hgt
  · have hlt' := hhigh' (by omega) hn'
    have hle := mul_pow_le_mul_pow (u := q.natAbs) (by omega : n + 1 ≤ k + n')
    omega
  · exact heq
  · have hlt' := hhigh (by omega) hn
    have hle := mul_pow_le_mul_pow (u := q.natAbs) (by omega : k + (n' + 1) ≤ n)
    omega

theorem Power.eq_zero (h : Power q n) (h' : Power (q * 10 ^ k) n')
    (hq' : IsSint64 (q * 10 ^ k)) (hn : n < 4) (hk : n < k) :
    k = n + 1 ∧ n' = 0 ∧ keyTop ≤ (q * 10 ^ k).natAbs := by
  obtain ⟨-, -, hlow, -⟩ := h
  obtain ⟨-, hle', -⟩ := h'
  obtain ⟨hmin, hmax⟩ := hq'
  have habs : (q * 10 ^ k).natAbs ≤ 2 ^ 63 := by omega
  rw [Int.natAbs_mul, Int.natAbs_pow, show Int.natAbs 10 = 10 from rfl] at habs hle' ⊢
  have hge := mul_pow_le_mul_pow (u := q.natAbs) (by omega : n + 1 ≤ k)
  have hk' : k = n + 1 := by
    by_contra hne
    have hge' := mul_pow_le_mul_pow (u := q.natAbs) (by omega : n + 1 + 1 ≤ k)
    rw [pow_succ, ← Nat.mul_assoc] at hge'
    rw [keyTop] at hlow
    omega
  refine ⟨hk', ?_, by omega⟩
  by_contra hne
  have hle := hle' (by omega)
  have hten : q.natAbs * 10 ^ k * 10 ^ 1 ≤ q.natAbs * 10 ^ k * 10 ^ n' :=
    mul_pow_le_mul_pow (by omega)
  rw [keyTop] at hle hlow
  omega

theorem Power.dvd_mul_pow (h : Power q n) (h' : Power (q * 10 ^ k) n') (hn : 4 ≤ n) :
    (10000 : Int) ∣ q * 10 ^ k * 10 ^ n' := by
  by_cases hn' : 4 ≤ n'
  · exact Power.dvd_mul_of_le hn'
  · obtain ⟨-, -, -, -, hfour⟩ := h
    obtain ⟨-, -, hlow', -⟩ := h'
    rw [Int.natAbs_mul, Int.natAbs_pow, show Int.natAbs 10 = 10 from rfl, Nat.mul_assoc,
      ← Nat.pow_add] at hlow'
    have hge : 4 ≤ k + n' := by
      by_contra hlt
      have hle := mul_pow_le_mul_pow (u := q.natAbs) (by omega : k + (n' + 1) ≤ 4)
      omega
    rw [mul_assoc, ← pow_add]
    exact Power.dvd_mul_of_le hge

theorem Power.exactKey_mul_pow (h : Power q n) (h' : Power (q * 10 ^ k) n')
    (hq : IsSint64 q) (hq' : IsSint64 (q * 10 ^ k)) (hdvd : (10000 : Int) ∣ q * 10 ^ n)
    (hdvd' : (10000 : Int) ∣ q * 10 ^ k * 10 ^ n') :
    exactKey q scale = exactKey (q * 10 ^ k) (scale - k) := by
  rw [h.exactKey_of_dvd hq hdvd, h'.exactKey_of_dvd hq' hdvd']
  congr 2
  rw [zpow_sub₀ (by norm_num), zpow_natCast]
  push_cast
  field_simp

theorem dvd_of_tmod_eq {m : Int} (h : m.tmod 10000 = (10 * m).tmod 10000) : (10000 : Int) ∣ m := by
  have hm := Int.mul_tdiv_add_tmod m 10000
  have hten := Int.mul_tdiv_add_tmod (10 * m) 10000
  omega

def HasValueKey (q : Int) : Prop := keyTop ≤ q.natAbs → (10 : Int) ^ 5 ∣ q

theorem hasValueKey_of_mul (hk : 1 ≤ k) (hq' : IsSint64 (q * 10 ^ k)) : HasValueKey q := by
  intro htop
  obtain ⟨hmin, hmax⟩ := hq'
  have habs : (q * 10 ^ k).natAbs ≤ 2 ^ 63 := by omega
  rw [Int.natAbs_mul, Int.natAbs_pow, show Int.natAbs 10 = 10 from rfl] at habs
  have hle := mul_pow_le_mul_pow (u := q.natAbs) hk
  rw [keyTop] at htop
  omega

theorem exactKey_zero : exactKey 0 scale = ⟨0, 0⟩ := by
  simp [exactKey, sint64]

theorem exactKey_mul_pow_eq_iff (hq : IsSint64 q) (hq' : IsSint64 (q * 10 ^ k)) (hk : 1 ≤ k) :
    exactKey q scale = exactKey (q * 10 ^ k) (scale - k) ↔ HasValueKey (q * 10 ^ k) := by
  by_cases hzero : q = 0
  · subst hzero
    simp [exactKey_zero, HasValueKey]
  have hzero' : q * 10 ^ k ≠ 0 := mul_ne_zero hzero (by positivity)
  obtain ⟨n, h⟩ := exists_power hq hzero
  obtain ⟨n', h'⟩ := exists_power hq' hzero'
  by_cases hn : 4 ≤ n
  · refine iff_of_true ?_ fun htop => ?_
    · exact h.exactKey_mul_pow h' hq hq' (Power.dvd_mul_of_le hn) (h.dvd_mul_pow h' hn)
    · rw [Int.natAbs_mul, Int.natAbs_pow, show Int.natAbs 10 = 10 from rfl] at htop
      have hfour := h.2.2.2.2 hn
      have hlt : 5 ≤ k := by
        by_contra hle
        have hle := mul_pow_le_mul_pow (u := q.natAbs) (by omega : k ≤ 4)
        omega
      exact Dvd.dvd.mul_left (pow_dvd_pow 10 hlt) q
  · by_cases hkn : k ≤ n
    · -- the products are the same
      obtain rfl := h.eq_add h' (by omega) hkn
      refine iff_of_true ?_ fun htop => ?_
      · rw [h.exactKey_eq hq, h'.exactKey_eq hq', mul_assoc, ← pow_add]
        congr 3
        push_cast
        ring
      · rw [Int.natAbs_mul, Int.natAbs_pow, show Int.natAbs 10 = 10 from rfl] at htop
        have hlt := h.2.2.2.1 (by omega) (by omega)
        have hle := mul_pow_le_mul_pow (u := q.natAbs) hkn
        omega
    · -- the greater number stays as it is and the product of the lower one is a tenth of it
      obtain ⟨rfl, rfl, htop⟩ := h.eq_zero h' hq' (by omega) (by omega)
      have hten : q * 10 ^ (n + 1) = 10 * (q * 10 ^ n) := by ring
      constructor
      · intro heq htop
        rw [h.exactKey_eq hq, h'.exactKey_eq hq', pow_zero, mul_one, hten] at heq
        have hdvd := dvd_of_tmod_eq (congrArg ExactKey.sPart heq)
        omega
      · intro hkey
        have hdvd := hkey htop
        refine h.exactKey_mul_pow h' hq hq' ?_ ?_
        · omega
        · rw [pow_zero, mul_one]
          omega

/-- What is asked of a call: no overflow, and a remainder of 16 bits. -/
def KeyInRange (q scale : Int) : Prop :=
  IsSint64 (q * (scaleControl q.natAbs int64ScaleControl).factor) ∧
    -2 ^ 15 ≤ (makeInt64Key q scale).sPart ∧ (makeInt64Key q scale).sPart < 2 ^ 15

theorem keyInRange (hq : IsSint64 q) : KeyInRange q scale := by
  refine ⟨?_, ?_, ?_⟩
  · by_cases hzero : q = 0
    · rw [hzero, zero_mul]
      constructor <;> decide
    · obtain ⟨n, h⟩ := exists_power hq hzero
      obtain ⟨limit, hcontrol⟩ := h.1
      rw [hcontrol]
      exact h.isSint64 hq
  · have := Int.lt_tmod_of_pos
      (sint64 (q * (scaleControl q.natAbs int64ScaleControl).factor))
        (by decide : (0 : Int) < 10000)
    rw [makeInt64Key]
    simp only
    omega
  · have := Int.tmod_lt_of_pos
      (sint64 (q * (scaleControl q.natAbs int64ScaleControl).factor))
        (by decide : (0 : Int) < 10000)
    rw [makeInt64Key]
    simp only
    omega

theorem eq_mul_pow_of_value_eq (heq : (q : ℚ) * 10 ^ scale = q' * 10 ^ scale')
    (hle : scale' ≤ scale) :
    ∃ k : Nat, scale' = scale - k ∧ q' = q * 10 ^ k := by
  refine ⟨(scale - scale').toNat, by omega, ?_⟩
  obtain ⟨k, hk⟩ := Int.eq_ofNat_of_zero_le (by omega : 0 ≤ scale - scale')
  rw [hk, Int.toNat_natCast]
  obtain rfl : scale = scale' + k := by omega
  rw [zpow_add₀ (by norm_num), zpow_natCast, mul_comm (10 ^ scale' : ℚ), ← mul_assoc] at heq
  have hq' := mul_right_cancel₀ (zpow_ne_zero _ (by norm_num)) heq
  exact_mod_cast hq'.symm

theorem exactKey_eq_iff_of_lt (hq : IsSint64 q) (hq' : IsSint64 q')
    (heq : (q : ℚ) * 10 ^ scale = q' * 10 ^ scale') (hlt : scale' < scale) :
    exactKey q scale = exactKey q' scale' ↔ HasValueKey q ∧ HasValueKey q' := by
  obtain ⟨k, rfl, rfl⟩ := eq_mul_pow_of_value_eq heq hlt.le
  have hk : 1 ≤ k := by omega
  rw [exactKey_mul_pow_eq_iff hq hq' hk]
  exact (and_iff_right (hasValueKey_of_mul hk hq')).symm

end

/-- Two calls have one key, with a `d_part` that is known. -/
def SameKey (q q' scale scale' : Int) : Prop :=
  makeInt64Key q scale = makeInt64Key q' scale' ∧ (makeInt64Key q scale).dPart ≠ none

theorem sameKey_iff {q q' scale scale' : Int} :
    SameKey q q' scale scale' ↔
      InTable q scale ∧ InTable q' scale' ∧ exactKey q scale = exactKey q' scale' := by
  constructor
  · rintro ⟨heq, hsome⟩
    have hin : InTable q scale := by_contra fun h => hsome (dPart_eq_none h)
    have hin' : InTable q' scale' := by_contra fun h => hsome (heq ▸ dPart_eq_none h)
    rw [makeInt64Key_of_inTable hin, makeInt64Key_of_inTable hin', Int64Key.mk.injEq,
      Option.some.injEq] at heq
    exact ⟨hin, hin', by cases h : exactKey q scale; cases h' : exactKey q' scale'; simp_all⟩
  · rintro ⟨hin, hin', heq⟩
    rw [SameKey, makeInt64Key_of_inTable hin, makeInt64Key_of_inTable hin', heq]
    exact ⟨rfl, Option.some_ne_none _⟩

/-- With the scale 1 a number that is not multiplied has no key: the table is read in front of its
first entry. -/
example : (makeInt64Key 922337203685470000 1).dPart = none := dPart_eq_none (by decide)

end Firebird.Jrd.Btr
