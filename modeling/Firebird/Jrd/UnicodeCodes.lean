import Firebird.Lib.Blocks
import Firebird.Lib.Encoding
import Firebird.Jrd.UnicodeUtil

/-!
# The Unicode encoding forms as codes

A character is a Unicode scalar value. The macros of ICU are what the standard says.
-/
namespace Firebird.Jrd.UnicodeUtil

open Lib.Encoding List

theorem char_range (c : Char) : c.toNat < 0xd800 ∨ 0xdfff < c.toNat ∧ c.toNat < 0x110000 := by
  have h := c.valid
  simpa [UInt32.isValidChar] using h

theorem exists_char {n : Nat} (h : n < 0xd800 ∨ 0xdfff < n ∧ n < 0x110000) : ∃ c :
    Char, c.toNat = n :=
  ⟨Char.ofNatAux n h, rfl⟩

def utf16Word (c : Char) : List UInt16 :=
  if c.toNat ≤ 0xffff then [UInt16.ofNat c.toNat]
  else [UInt16.ofNat (c.toNat / 1024 + 0xd7c0), UInt16.ofNat (c.toNat % 1024 + 0xdc00)]

theorem toNat_ofNat16 {n : Nat} (h : n < 65536) : (UInt16.ofNat n).toNat = n := by
  simpa using Nat.mod_eq_of_lt h

theorem utf16Word_unique {c d : Char} {x y : List UInt16}
    (h : utf16Word c ++ x = utf16Word d ++ y) : c = d := by
  have hc := char_range c
  have hd := char_range d
  have hval : c.toNat = d.toNat := by
    unfold utf16Word at h
    split_ifs at h with hc' hd' hd' <;>
      simp only [cons_append, List.cons.injEq] at h
    · have := congrArg UInt16.toNat h.1
      rwa [toNat_ofNat16 (by omega), toNat_ofNat16 (by omega)] at this
    · have := congrArg UInt16.toNat h.1
      rw [toNat_ofNat16 (by omega), toNat_ofNat16 (by omega)] at this
      omega
    · have := congrArg UInt16.toNat h.1
      rw [toNat_ofNat16 (by omega), toNat_ofNat16 (by omega)] at this
      omega
    · have hlead := congrArg UInt16.toNat h.1
      have htrail := congrArg UInt16.toNat h.2.1
      rw [toNat_ofNat16 (by omega), toNat_ofNat16 (by omega)] at hlead htrail
      omega
  exact Char.toNat_inj.1 hval

def utf16 : Code Char UInt16 where
  word := utf16Word
  ne_nil c := by unfold utf16Word; split_ifs <;> simp
  unique := utf16Word_unique

def utf32 : Code Char UInt32 where
  word c := [c.val]
  ne_nil _ := cons_ne_nil _ _
  unique h := Char.ext (List.cons.inj h).1

theorem utf8Word_unique {c d : Char} {x y : List UInt8}
    (h : String.utf8EncodeChar c ++ x = String.utf8EncodeChar d ++ y) : c = d := by
  have hdecode : ∀ (c : Char) (x : List UInt8),
      ((String.utf8EncodeChar c ++ x).toByteArray).utf8DecodeChar? 0 = some c := by
    intro c x
    rw [toByteArray_append]
    exact ByteArray.utf8DecodeChar?_utf8EncodeChar_append
  exact Option.some.inj ((hdecode c x).symm.trans (h ▸ hdecode d y))

def utf8 : Code Char UInt8 where
  word := String.utf8EncodeChar
  ne_nil _ := String.utf8EncodeChar_ne_nil
  unique := utf8Word_unique

theorem isSurrogate_iff {c : Nat} (h : c < 2 ^ 32) :
    isSurrogate c = true ↔ 0xd800 ≤ c ∧ c ≤ 0xdfff := by
  have := Lib.Blocks.and_sub_two_pow (k := 11) h (by decide)
  rw [isSurrogate, decide_eq_true_iff, show (0xfffff800 : Nat) = 2 ^ 32 - 2 ^ 11 by decide, this]
  omega

theorem isLead_iff {c : Nat} (h : c < 2 ^ 32) : isLead c = true ↔ 0xd800 ≤ c ∧ c ≤ 0xdbff := by
  have := Lib.Blocks.and_sub_two_pow (k := 10) h (by decide)
  rw [isLead, decide_eq_true_iff, show (0xfffffc00 : Nat) = 2 ^ 32 - 2 ^ 10 by decide, this]
  omega

theorem isTrail_iff {c : Nat} (h : c < 2 ^ 32) : isTrail c = true ↔ 0xdc00 ≤ c ∧ c ≤ 0xdfff := by
  have := Lib.Blocks.and_sub_two_pow (k := 10) h (by decide)
  rw [isTrail, decide_eq_true_iff, show (0xfffffc00 : Nat) = 2 ^ 32 - 2 ^ 10 by decide, this]
  omega

theorem isSurrogateFirst_iff {c : Nat} (h : 0xd800 ≤ c ∧ c ≤ 0xdfff) :
    isSurrogateFirst c = true ↔ c ≤ 0xdbff := by
  rw [isSurrogateFirst, decide_eq_true_iff, show (0x400 : Nat) = 2 ^ 10 by decide, Nat.and_two_pow,
    Nat.testBit_eq_decide_div_mod_eq]
  simp only [Nat.mul_eq_zero, Bool.toNat_eq_zero, decide_eq_false_iff_not]
  omega

theorem getPairValue_eq {c c2 : Nat} (h : 0xd800 ≤ c) (h2 : 0xdc00 ≤ c2) :
    getPairValue c c2 = 0x10000 + (c - 0xd800) * 1024 + (c2 - 0xdc00) := by
  unfold getPairValue
  simp only [Nat.shiftLeft_eq]
  omega

theorem lead_eq (c : Nat) : lead c = UInt16.ofNat (c / 1024 + 0xd7c0) := by
  rw [lead, Nat.shiftRight_eq_div_pow]

theorem or_eq_add {x k b : Nat} (hx : x < 2 ^ k) (hb : 2 ^ k ∣ b) : x ||| b = x + b := by
  obtain ⟨q, rfl⟩ := hb
  rw [Nat.or_comm, Nat.add_comm, Nat.two_pow_add_eq_or_of_lt hx]

theorem trail_eq (c : Nat) : trail c = UInt16.ofNat (c % 1024 + 0xdc00) := by
  have hmask : c &&& 0x3ff = c % 1024 := Nat.and_two_pow_sub_one_eq_mod c 10
  have hlt : c % 1024 < 2 ^ 10 := Nat.mod_lt _ (by decide)
  rw [trail, hmask, or_eq_add hlt (by decide)]

theorem u8AppendUnsafe_toNat (c : Char) : u8AppendUnsafe c.toNat = String.utf8EncodeChar c := by
  have hc := char_range c
  have hmask : ∀ n, n &&& 0x3f = n % 64 := fun n => Nat.and_two_pow_sub_one_eq_mod n 6
  have htrail : ∀ n, n % 64 ||| 0x80 = n % 64 + 0x80 := fun n =>
    or_eq_add (k := 6) (Nat.mod_lt _ (by decide)) (by decide)
  rw [String.utf8EncodeChar, u8AppendUnsafe]
  simp only [Nat.shiftRight_eq_div_pow, hmask, htrail, show c.val.toNat = c.toNat from rfl]
  split_ifs with h1 h2 h3
  · rfl
  · rw [or_eq_add (k := 5) (by omega) (by decide), Nat.mod_eq_of_lt (b := 0x20) (by omega)]
    rfl
  · rw [or_eq_add (k := 4) (by omega) (by decide), Nat.mod_eq_of_lt (b := 0x10) (by omega)]
    rfl
  · rw [or_eq_add (k := 3) (by omega) (by decide), Nat.mod_eq_of_lt (b := 0x08) (by omega)]
    rfl

theorem u8Length_toNat (c : Char) : u8Length c.toNat = (String.utf8EncodeChar c).length := by
  have hc := char_range c
  rw [String.utf8EncodeChar, u8Length]
  simp only [show c.val.toNat = c.toNat from rfl]
  split_ifs <;> first | rfl | omega

end Firebird.Jrd.UnicodeUtil
