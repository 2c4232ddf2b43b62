import Mathlib.Algebra.Order.Group.Nat
import Mathlib.Algebra.Order.BigOperators.Group.List
import Firebird.Jrd.UnicodeCodes

/-!
# Substrings of UTF-16

`utf16Substring` of `unicode_util.cpp`. It counts a surrogate pair as one character, and looks at
the end of the destination once for each character: if one unit is left and a pair comes, the
second unit of the pair is stored behind the destination. The end of the range is computed in 32
bits: if it wraps around, nothing is copied. Otherwise the result is the range of characters.
-/
namespace Firebird.Jrd.UnicodeUtil

open Lib.Encoding List

/-- The loop that goes to `startPos`. It has the unit to continue at, and the number of it. -/
def skipLoop (capacity startPos : Nat) : List UInt16 → Nat → List UInt16 × Nat
  | [], pos => ([], pos)
  | ch :: src, pos =>
    if 0 < capacity ∧ pos < startPos then
      match src with
      | [] => ([], pos + 1)
      | ch2 :: src =>
        if isLead ch.toNat && isTrail ch2.toNat then skipLoop capacity startPos src (pos + 1)
        else skipLoop capacity startPos (ch2 :: src) (pos + 1)
    else (ch :: src, pos)

/-- The loop that copies up to `stop`. -/
def copyLoop (capacity stop : Nat) : List UInt16 → Nat → List UInt16 → List UInt16
  | [], _, dst => dst
  | ch :: src, pos, dst =>
    if dst.length < capacity ∧ pos < stop then
      match src with
      | [] => dst ++ [ch]
      | ch2 :: src =>
        if isLead ch.toNat && isTrail ch2.toNat then
          copyLoop capacity stop src (pos + 1) (dst ++ [ch, ch2])
        else copyLoop capacity stop (ch2 :: src) (pos + 1) (dst ++ [ch])
    else dst

/-- The units that `utf16Substring` stores from the start of the destination on. It returns their
size in bytes. -/
def utf16Substring (src : List UInt16) (dstLen startPos length : UInt32) : List UInt16 :=
  if length = 0 then []
  else
    let (src, pos) := skipLoop (dstLen.toNat / 2) startPos.toNat src 0
    copyLoop (dstLen.toNat / 2) (startPos + length).toNat src pos []

/-- The characters of a string, well-formed or not: a lead with the trail behind it is one
character, as is each other unit. -/
def chars : List UInt16 → List (List UInt16)
  | [] => []
  | [ch] => [[ch]]
  | ch :: ch2 :: src =>
    if isLead ch.toNat && isTrail ch2.toNat then [ch, ch2] :: chars src
    else [ch] :: chars (ch2 :: src)

theorem chars_flatten (src : List UInt16) : (chars src).flatten = src := by
  fun_induction chars src with
  | case1 => rfl
  | case2 ch => rfl
  | case3 ch ch2 src h ih => simp [ih]
  | case4 ch ch2 src h ih => simp [ih]

variable {src : List UInt16}

theorem length_of_mem_chars {w : List UInt16} (h : w ∈ chars src) :
    w.length = 1 ∨ w.length = 2 := by
  fun_induction chars src with
  | case1 => cases h
  | case2 ch => exact .inl (by rw [mem_singleton.1 h]; rfl)
  | case3 ch ch2 src hpair ih =>
    obtain rfl | h := mem_cons.1 h
    · exact .inr rfl
    · exact ih h
  | case4 ch ch2 src hpair ih =>
    obtain rfl | h := mem_cons.1 h
    · exact .inl rfl
    · exact ih h

theorem chars_encode (cs : List Char) : chars (utf16.encode cs) = cs.map utf16.word := by
  induction cs with
  | nil => rfl
  | cons c cs ih =>
    have hc := char_range c
    rw [Code.encode_cons, map_cons, ← ih]
    by_cases hbmp : c.toNat ≤ 0xffff
    · have hword : utf16.word c = [UInt16.ofNat c.toNat] := if_pos hbmp
      have hlead : isLead (UInt16.ofNat c.toNat).toNat = false := by
        rw [toNat_ofNat16 (by omega), Bool.eq_false_iff, ne_eq, isLead_iff (by omega)]
        omega
      rw [hword]
      cases utf16.encode cs with
      | nil => rfl
      | cons u src =>
        rw [singleton_append, chars, hlead]
        rfl
    · have hword : utf16.word c =
          [UInt16.ofNat (c.toNat / 1024 + 0xd7c0), UInt16.ofNat (c.toNat % 1024 + 0xdc00)] :=
        if_neg hbmp
      have hlead : isLead (UInt16.ofNat (c.toNat / 1024 + 0xd7c0)).toNat = true := by
        rw [toNat_ofNat16 (by omega), isLead_iff (by omega)]
        omega
      have htrail : isTrail (UInt16.ofNat (c.toNat % 1024 + 0xdc00)).toNat = true := by
        rw [toNat_ofNat16 (by omega), isTrail_iff (by omega)]
        omega
      rw [hword, cons_append, singleton_append, chars, hlead, htrail]
      rfl

/-- The words that are copied if the end of the room is looked at once for each word. -/
def fill {α : Type*} : Nat → List (List α) → List (List α)
  | _, [] => []
  | room, w :: ws => if 0 < room then w :: fill (room - w.length) ws else []

variable {α : Type*}

theorem fill_zero (ws : List (List α)) : fill 0 ws = [] := by
  cases ws <;> rfl

theorem fill_eq_self {room : Nat} {ws : List (List α)} (hne : ∀ w ∈ ws, w ≠ [])
    (h : ws.flatten.length ≤ room) : fill room ws = ws := by
  induction ws generalizing room with
  | nil => rfl
  | cons w ws ih =>
    rw [flatten_cons, length_append] at h
    have hpos := length_pos_iff.2 (hne w mem_cons_self)
    rw [fill, if_pos (by omega), ih (fun v hv => hne v (mem_cons_of_mem w hv)) (by omega)]

/-- A word of two units comes where the room is for one more unit. -/
def Torn {α : Type*} (room : Nat) (ws : List (List α)) : Prop :=
  ∃ before after, ∃ c d, ws = before ++ [c, d] :: after ∧ before.flatten.length + 1 = room

theorem length_fill_le_iff {room : Nat} {ws : List (List α)}
    (hlen : ∀ w ∈ ws, w.length = 1 ∨ w.length = 2) :
    (fill room ws).flatten.length ≤ room ↔ ¬Torn room ws := by
  induction ws generalizing room with
  | nil => simp [fill, Torn]
  | cons w ws ih =>
    have ih : (fill (room - w.length) ws).flatten.length ≤ room - w.length ↔
        ¬Torn (room - w.length) ws := ih fun v hv => hlen v (mem_cons_of_mem w hv)
    by_cases hroom : 0 < room
    · rw [fill, if_pos hroom, flatten_cons, length_append]
      by_cases hfits : w.length ≤ room
      · rw [show w.length + (fill (room - w.length) ws).flatten.length ≤ room ↔
          (fill (room - w.length) ws).flatten.length ≤ room - w.length by omega, ih, not_iff_not]
        constructor
        · rintro ⟨before, after, c, d, rfl, h⟩
          refine ⟨w :: before, after, c, d, rfl, ?_⟩
          rw [flatten_cons, length_append]
          omega
        · rintro ⟨before, after, c, d, h, hroom'⟩
          obtain ⟨rfl, hw⟩ | ⟨before', rfl, rfl⟩ := cons_eq_append_iff.1 h
          · obtain ⟨rfl, -⟩ := List.cons.inj hw
            exact absurd hfits (by simp at hroom' ⊢; omega)
          · rw [flatten_cons, length_append] at hroom'
            exact ⟨before', after, c, d, rfl, by omega⟩
      · refine iff_of_false (by omega) (not_not_intro ?_)
        have htwo : w.length = 2 := by
          have := hlen w mem_cons_self
          omega
        obtain ⟨c, d, rfl⟩ := length_eq_two.1 htwo
        exact ⟨[], ws, c, d, rfl, by simp at hfits ⊢; omega⟩
    · obtain rfl : room = 0 := by omega
      refine iff_of_true (Nat.zero_le _) ?_
      rintro ⟨before, after, c, d, -, h⟩
      omega

theorem chars_skipLoop {capacity : Nat} (hcap : 0 < capacity) (startPos : Nat) (src : List UInt16)
    (pos : Nat) : chars (skipLoop capacity startPos src pos).1 = (chars src).drop (startPos - pos) ∧
      (skipLoop capacity startPos src pos).2 = pos + min (startPos - pos) (chars src).length := by
  fun_induction skipLoop capacity startPos src pos with
  | case1 pos => simp [chars]
  | case2 ch pos h =>
    have : startPos - pos = startPos - (pos + 1) + 1 := by omega
    rw [this]
    simp [chars]
  | case3 ch pos h ch2 src hpair ih =>
    have : startPos - pos = startPos - (pos + 1) + 1 := by omega
    rw [this, ih.1, ih.2, chars, if_pos hpair]
    simp only [drop_succ_cons, length_cons, true_and]
    omega
  | case4 ch pos h ch2 src hpair ih =>
    have : startPos - pos = startPos - (pos + 1) + 1 := by omega
    rw [this, ih.1, ih.2, chars, if_neg hpair]
    simp only [drop_succ_cons, length_cons, true_and]
    omega
  | case5 ch src pos h =>
    have : startPos - pos = 0 := by omega
    simp [this]

theorem copyLoop_eq (capacity stop : Nat) (src : List UInt16) (pos : Nat) (dst : List UInt16) :
    copyLoop capacity stop src pos dst =
      dst ++ (fill (capacity - dst.length) ((chars src).take (stop - pos))).flatten := by
  fun_induction copyLoop capacity stop src pos dst with
  | case1 pos dst => simp [chars, fill]
  | case2 ch pos dst h =>
    have : stop - pos = stop - (pos + 1) + 1 := by omega
    rw [this, chars, take_succ_cons, fill, if_pos (by omega)]
    simp [fill]
  | case3 ch pos dst h ch2 src hpair ih =>
    have : stop - pos = stop - (pos + 1) + 1 := by omega
    rw [ih, this, chars, if_pos hpair, take_succ_cons, fill, if_pos (by omega), length_append,
      Nat.sub_add_eq, flatten_cons, append_assoc]
  | case4 ch pos dst h ch2 src hpair ih =>
    have : stop - pos = stop - (pos + 1) + 1 := by omega
    rw [ih, this, chars, if_neg hpair, take_succ_cons, fill, if_pos (by omega), length_append,
      Nat.sub_add_eq, flatten_cons, append_assoc]
  | case5 ch src pos dst h =>
    by_cases hroom : dst.length < capacity
    · have : stop - pos = 0 := by omega
      simp [this, fill]
    · have : capacity - dst.length = 0 := by omega
      simp [this, fill_zero]

/-- The characters from `startPos` on, at most `length` of them. -/
def range (src : List UInt16) (startPos length : UInt32) : List (List UInt16) :=
  ((chars src).drop startPos.toNat).take length.toNat

variable {dstLen startPos length : UInt32}

theorem utf16Substring_eq (h : startPos.toNat + length.toNat < 2 ^ 32) :
    utf16Substring src dstLen startPos length =
      (fill (dstLen.toNat / 2) (range src startPos length)).flatten := by
  unfold utf16Substring range
  by_cases hlength : length = 0
  · subst hlength
    simp [fill]
  rw [if_neg hlength]
  by_cases hcap : 0 < dstLen.toNat / 2
  · obtain ⟨hsrc, hpos⟩ := chars_skipLoop hcap startPos.toNat src 0
    dsimp only
    rw [copyLoop_eq, hsrc, hpos, UInt32.toNat_add, Nat.mod_eq_of_lt h, Nat.sub_zero, nil_append,
      Nat.zero_add, length_nil, Nat.sub_zero]
    by_cases hn : startPos.toNat ≤ (chars src).length
    · rw [Nat.min_eq_left hn, Nat.add_sub_cancel_left]
    · rw [drop_of_length_le (by omega), take_nil, take_nil]
  · have hzero : dstLen.toNat / 2 = 0 := by omega
    dsimp only
    rw [copyLoop_eq, hzero, length_nil, fill_zero, fill_zero]
    rfl

theorem utf16Substring_wrap (h : 2 ^ 32 ≤ startPos.toNat + length.toNat) :
    utf16Substring src dstLen startPos length = [] := by
  unfold utf16Substring
  have hstart := startPos.toNat_lt
  have hlength := length.toNat_lt
  have hne : length ≠ 0 := by
    rintro rfl
    rw [UInt32.toNat_zero] at h
    omega
  rw [if_neg hne]
  by_cases hcap : 0 < dstLen.toNat / 2
  · obtain ⟨hsrc, hpos⟩ := chars_skipLoop hcap startPos.toNat src 0
    dsimp only
    rw [copyLoop_eq, hsrc, hpos, UInt32.toNat_add]
    by_cases hn : startPos.toNat ≤ (chars src).length
    · rw [show (startPos.toNat + length.toNat) % 2 ^ 32 -
        (0 + min (startPos.toNat - 0) (chars src).length) = 0 by omega, take_zero]
      rfl
    · rw [drop_of_length_le (by omega), take_nil]
      rfl
  · have hzero : dstLen.toNat / 2 = 0 := by omega
    dsimp only
    rw [copyLoop_eq, hzero, length_nil, fill_zero]
    rfl

theorem length_of_mem_range {w : List UInt16}
    (h : w ∈ range src startPos length) : w.length = 1 ∨ w.length = 2 :=
  length_of_mem_chars (mem_of_mem_drop (mem_of_mem_take h))

theorem length_range_le (src : List UInt16) (startPos length : UInt32) :
    (range src startPos length).flatten.length ≤ src.length := by
  have hsub : (range src startPos length).Sublist (chars src) :=
    (take_sublist ..).trans (drop_sublist ..)
  calc (range src startPos length).flatten.length
      ≤ (chars src).flatten.length := by
        rw [length_flatten, length_flatten]
        exact (hsub.map _).sum_le_sum fun _ _ => Nat.zero_le _
    _ = src.length := by rw [chars_flatten]

def WellFormed (src : List UInt16) : Prop := ∃ cs, src = utf16.encode cs

theorem wellFormed_range (startPos length : UInt32) (h : WellFormed src) :
    WellFormed (range src startPos length).flatten := by
  obtain ⟨cs, rfl⟩ := h
  refine ⟨(cs.drop startPos.toNat).take length.toNat, ?_⟩
  rw [range, chars_encode, ← map_drop, ← map_take]
  rfl

/-- What a call of `utf16Substring` has to do: it stays within the destination and, if there is
room for the range, gives the range. So it keeps a string well-formed, and a string is the one up
to a position with the one from there on behind it. -/
structure Cuts (src : List UInt16) (dstLen startPos length : UInt32) : Prop where
  within : (utf16Substring src dstLen startPos length).length ≤ dstLen.toNat / 2
  exact : (range src startPos length).flatten.length ≤ dstLen.toNat / 2 →
    utf16Substring src dstLen startPos length = (range src startPos length).flatten
  wellFormed : (range src startPos length).flatten.length ≤ dstLen.toNat / 2 → WellFormed src →
    WellFormed (utf16Substring src dstLen startPos length)
  splits : src.length ≤ dstLen.toNat / 2 → (chars src).length ≤ startPos.toNat + length.toNat →
    utf16Substring src dstLen 0 startPos ++ utf16Substring src dstLen startPos length = src

theorem utf16Substring_of_room (h : startPos.toNat + length.toNat < 2 ^ 32)
    (hroom : (range src startPos length).flatten.length ≤ dstLen.toNat / 2) :
    utf16Substring src dstLen startPos length = (range src startPos length).flatten := by
  rw [utf16Substring_eq h, fill_eq_self _ hroom]
  rintro w hw rfl
  simpa using length_of_mem_range hw

theorem cuts_of_exact
    (hwithin : (utf16Substring src dstLen startPos length).length ≤ dstLen.toNat / 2)
    (hexact : (range src startPos length).flatten.length ≤ dstLen.toNat / 2 →
      utf16Substring src dstLen startPos length = (range src startPos length).flatten) :
    Cuts src dstLen startPos length where
  within := hwithin
  exact := hexact
  wellFormed hroom hsrc := by
    rw [hexact hroom]
    exact wellFormed_range startPos length hsrc
  splits hroom hrest := by
    have hfirst : utf16Substring src dstLen 0 startPos = (range src 0 startPos).flatten :=
      utf16Substring_of_room (by
        rw [UInt32.toNat_zero, Nat.zero_add]
        exact startPos.toNat_lt) ((length_range_le ..).trans hroom)
    rw [hfirst, hexact ((length_range_le ..).trans hroom), range, range, UInt32.toNat_zero,
      drop_zero, take_of_length_le (l := (chars src).drop _) (by simp; omega),
      ← flatten_append, take_append_drop, chars_flatten]

/-- A call does what it has to do if the end of its range does not wrap around and no pair of the
range is torn by the end of the destination, or if the end wraps around but nothing is to be copied
or the destination is too short. -/
theorem cuts_iff (src : List UInt16) (dstLen startPos length : UInt32) :
    Cuts src dstLen startPos length ↔
      if startPos.toNat + length.toNat < 2 ^ 32 then
        ¬Torn (dstLen.toNat / 2) (range src startPos length)
      else (chars src).length ≤ startPos.toNat ∨
        dstLen.toNat / 2 < (range src startPos length).flatten.length := by
  split_ifs with h
  · rw [← length_fill_le_iff fun w => length_of_mem_range, ← utf16Substring_eq h]
    exact ⟨Cuts.within, fun hwithin => cuts_of_exact hwithin (utf16Substring_of_room h)⟩
  · have hnil : utf16Substring src dstLen startPos length = [] :=
      utf16Substring_wrap (not_lt.1 h)
    constructor
    · intro hcuts
      by_contra! hcon
      obtain ⟨hn, hroom⟩ := hcon
      have hempty := hcuts.exact hroom
      rw [hnil] at hempty
      have hlength : 0 < length.toNat := by
        have := startPos.toNat_lt
        omega
      have hrange : range src startPos length ≠ [] := by
        rw [← length_pos_iff, range, length_take, length_drop]
        omega
      obtain ⟨w, ws, hw⟩ := exists_cons_of_ne_nil hrange
      have hword := length_of_mem_range (hw ▸ mem_cons_self : w ∈ range src startPos length)
      have := congrArg List.length hempty
      rw [hw, flatten_cons, length_append, length_nil] at this
      omega
    · intro hcond
      refine cuts_of_exact (by rw [hnil]; exact Nat.zero_le _) fun hroom => ?_
      obtain hn | hroom' := hcond
      · rw [hnil, range, drop_of_length_le hn, take_nil]
        rfl
      · omega

/-- Room for one unit, and a pair: its second unit is stored behind the destination. -/
theorem not_forall_cuts : ¬∀ src dstLen startPos length, Cuts src dstLen startPos length := by
  intro h
  have hwithin := (h [0xd800, 0xdc00] 2 0 1).within
  revert hwithin
  decide

end Firebird.Jrd.UnicodeUtil
