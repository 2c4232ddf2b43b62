import Firebird.Jrd.UnicodeCodes

/-!
# Exactness of the Unicode conversions

Each conversion goes through the characters of its source until the source ends, a character is bad
or does not fit.
-/
namespace Firebird.Jrd.UnicodeUtil

open Lib.Encoding Lib.Encoding.Code List

theorem utf16_word (ch : Char) : utf16.word ch =
    if ch.toNat ≤ 0xffff then [UInt16.ofNat ch.toNat] else [lead ch.toNat, trail ch.toNat] := by
  rw [lead_eq, trail_eq]
  rfl

theorem toNat_lt32 (c : UInt16) : c.toNat < 2 ^ 32 := by
  have := c.toNat_lt
  omega

variable {c : UInt16}

theorem unit_word (h : ¬(0xd800 ≤ c.toNat ∧ c.toNat ≤ 0xdfff)) :
    ∃ ch : Char, ch.toNat = c.toNat ∧ utf16.word ch = [c] := by
  have hlt := c.toNat_lt
  obtain ⟨ch, hch⟩ := exists_char (show c.toNat < 0xd800 ∨ _ by omega)
  refine ⟨ch, hch, ?_⟩
  rw [utf16_word, if_pos (by omega), hch, UInt16.ofNat_toNat]

theorem pair_word {c2 : UInt16} (h : 0xd800 ≤ c.toNat ∧ c.toNat ≤ 0xdbff)
    (h2 : 0xdc00 ≤ c2.toNat ∧ c2.toNat ≤ 0xdfff) :
    ∃ ch : Char, ch.toNat = getPairValue c.toNat c2.toNat ∧ utf16.word ch = [c, c2] := by
  have hpair := getPairValue_eq h.1 h2.1
  obtain ⟨ch, hch⟩ := exists_char (show getPairValue c.toNat c2.toNat < 0xd800 ∨ _ by omega)
  refine ⟨ch, hch, ?_⟩
  rw [utf16_word, if_neg (by omega), lead_eq, trail_eq, hch, hpair]
  rw [show (0x10000 + (c.toNat - 0xd800) * 1024 + (c2.toNat - 0xdc00)) / 1024 + 0xd7c0 =
    c.toNat by omega,
    show (0x10000 + (c.toNat - 0xd800) * 1024 + (c2.toNat - 0xdc00)) % 1024 + 0xdc00 =
      c2.toNat by omega,
    UInt16.ofNat_toNat, UInt16.ofNat_toNat]

variable {src : List UInt16}

theorem word_cases {ch : Char} (h : utf16.word ch <+: c :: src) :
    ¬(0xd800 ≤ c.toNat ∧ c.toNat ≤ 0xdfff) ∨ (0xd800 ≤ c.toNat ∧ c.toNat ≤ 0xdbff) ∧
      ∃ c2 src', src = c2 :: src' ∧ 0xdc00 ≤ c2.toNat ∧ c2.toNat ≤ 0xdfff := by
  have hch := char_range ch
  obtain ⟨x, hx⟩ := h
  rw [utf16_word] at hx
  split_ifs at hx with hbmp
  · obtain rfl := (List.cons.inj hx).1
    rw [toNat_ofNat16 (by omega)]
    exact .inl (by omega)
  · obtain ⟨rfl, hsrc⟩ := List.cons.inj hx
    refine .inr ⟨?_, trail ch.toNat, x, hsrc.symm, ?_⟩
    · rw [lead_eq, toNat_ofNat16 (by omega)]
      omega
    · rw [trail_eq, toNat_ofNat16 (by omega)]
      omega

section Converted

variable {α β : Type} {A : Code Char α} {B : Code Char β} {room : Nat}

structure Converted (A : Code Char α) (B : Code Char β) (room : Nat) (src : List α) (s s' : Conv β)
    (cs : List Char) (rest : List α) (status : Status) : Prop where
  stops : Stops A B src (room - s.dst.length) cs rest status
  i : s'.i = s.i + (A.encode cs).length
  dst : s'.dst = s.dst ++ B.encode cs
  stored : s'.stored = s.stored + (B.encode cs).length

theorem converted_stop {src : List α} {s s' : Conv β} {status : Status}
    (h : Stops A B src (room - s.dst.length) [] src status) (hi : s'.i = s.i)
    (hdst : s'.dst = s.dst)
    (hstored : s'.stored = s.stored) : Converted A B room src s s' [] src status :=
  ⟨h, hi, by simp [hdst], hstored⟩

theorem Converted.put {src rest word : List α} {s t s' : Conv β} {units : List β} {ch : Char}
    {cs : List Char} {status : Status} (h : Converted A B room src t s' cs rest status)
    (hword : A.word ch = word) (hunits : B.word ch = units) (hi : t.i = s.i + word.length)
    (hdst : t.dst = s.dst ++ units) (hstored : t.stored = s.stored + units.length)
    (hroom : units.length ≤ room - s.dst.length) :
    Converted A B room (word ++ src) s s' (ch :: cs) rest status := by
  subst hunits hword
  have hstops := h.stops
  rw [hdst, length_append] at hstops
  refine ⟨Stops.cons hroom (by rwa [Nat.sub_sub]), ?_, ?_, ?_⟩
  · rw [h.i, hi, encode_cons, length_append, Nat.add_assoc]
  · rw [h.dst, hdst, encode_cons, append_assoc]
  · rw [h.stored, hstored, encode_cons, length_append, Nat.add_assoc]

end Converted

def errCodeOf : Status → Nat
  | .ok => 0
  | .bad => csBadInput
  | .truncated => csTruncationError

theorem utf8_word (ch : Char) : utf8.word ch = u8AppendUnsafe ch.toNat :=
    (u8AppendUnsafe_toNat ch).symm

theorem length_utf8_word (ch : Char) : (utf8.word ch).length = u8Length ch.toNat :=
  (u8Length_toNat ch).symm

theorem length_u8AppendUnsafe {ch : Char} {n : Nat} (h : ch.toNat = n) :
    (u8AppendUnsafe n).length = u8Length n := by
  rw [← h, ← utf8_word, length_utf8_word]

theorem pair_word_of {c2 : UInt16} (hrange : 0xd800 ≤ c.toNat ∧ c.toNat ≤ 0xdfff)
    (hpair : (isSurrogateFirst c.toNat && isTrail c2.toNat) = true) :
    ∃ ch : Char, ch.toNat = getPairValue c.toNat c2.toNat ∧ utf16.word ch = [c, c2] := by
  obtain ⟨hfirst, htrail⟩ := Bool.and_eq_true_iff.1 hpair
  exact pair_word ⟨hrange.1, (isSurrogateFirst_iff hrange).1 hfirst⟩
    ((isTrail_iff (toNat_lt32 c2)).1 htrail)

theorem stops_surrogate {room : Nat} {β : Type} {B : Code Char β}
    (h : 0xd800 ≤ c.toNat ∧ c.toNat ≤ 0xdfff)
    (hpair : c.toNat ≤ 0xdbff → ∀ c2 ∈ src.head?, ¬(0xdc00 ≤ c2.toNat ∧ c2.toNat ≤ 0xdfff)) :
    Stops utf16 B (c :: src) room [] (c :: src) .bad := by
  refine stops_bad (cons_ne_nil c src) fun ch hch => ?_
  obtain hno | ⟨hlead, c2, src', rfl, htrail⟩ := word_cases hch
  · exact hno h
  · exact hpair hlead.2 c2 rfl htrail

theorem utf16ToUtf8Loop_spec (dstLen : Nat) (src : List UInt16) (s : Conv UInt8)
    (hcode : s.errCode = 0) :
    ∃ cs rest status, Converted utf16 utf8 dstLen src s (utf16ToUtf8Loop dstLen src s) cs rest
      status ∧
      (utf16ToUtf8Loop dstLen src s).errCode = errCodeOf status ∧
      (status ≠ .ok → (utf16ToUtf8Loop dstLen src s).errPosition =
        some ((utf16ToUtf8Loop dstLen src s).i * 2)) := by
  fun_induction utf16ToUtf8Loop dstLen src s with
  | case1 s => exact ⟨[], [], .ok, converted_stop stops_nil rfl rfl rfl, hcode,
      fun h => absurd rfl h⟩
  | case2 c src s hfull =>
    refine ⟨[], _, .truncated, converted_stop ?_ rfl rfl rfl, rfl, fun _ => rfl⟩
    rw [hfull]
    exact stops_full (cons_ne_nil c src)
  | case3 c src s hroom hascii ih =>
    obtain ⟨ch, hch, hword⟩ := unit_word (c := c) (by omega)
    obtain ⟨cs, rest, status, hconv, hrest⟩ := ih hcode
    have hbytes : utf8.word ch = [UInt8.ofNat c.toNat] := by
      rw [utf8_word, hch, u8AppendUnsafe, if_pos hascii]
    exact ⟨ch :: cs, rest, status,
      hconv.put hword hbytes rfl rfl rfl (Nat.pos_of_ne_zero hroom), hrest⟩
  | case4 c s hroom hascii s₁ hsurrogate =>
    have hrange := (isSurrogate_iff (toNat_lt32 c)).1 hsurrogate
    exact ⟨[], _, .bad, converted_stop (stops_surrogate hrange fun _ _ hc2 => by cases hc2) rfl rfl
      rfl, rfl, fun _ => rfl⟩
  | case5 c s hroom hascii s₁ hsurrogate c2 src hpair c' hfits ih =>
    have hrange := (isSurrogate_iff (toNat_lt32 c)).1 hsurrogate
    obtain ⟨ch, hch, hword⟩ := pair_word_of hrange hpair
    obtain ⟨cs, rest, status, hconv, hrest⟩ := ih hcode
    have hbytes := utf8_word ch
    rw [hch] at hbytes
    exact ⟨ch :: cs, rest, status, hconv.put hword hbytes rfl rfl rfl
      (by rw [length_u8AppendUnsafe hch]; exact hfits), hrest⟩
  | case6 c s hroom hascii s₁ hsurrogate c2 src hpair c' hlong =>
    have hrange := (isSurrogate_iff (toNat_lt32 c)).1 hsurrogate
    obtain ⟨ch, hch, hword⟩ := pair_word_of hrange hpair
    refine ⟨[], _, .truncated, converted_stop (stops_long (c := ch) ?_ ?_) rfl rfl rfl, rfl,
      fun _ => rfl⟩
    · rw [hword]
      exact prefix_append [c, c2] src
    · rw [length_utf8_word, hch]
      exact Nat.not_le.1 hlong
  | case7 c s hroom hascii s₁ hsurrogate c2 src hpair =>
    have hrange := (isSurrogate_iff (toNat_lt32 c)).1 hsurrogate
    refine ⟨[], _, .bad, converted_stop (stops_surrogate hrange ?_) rfl rfl rfl, rfl, fun _ => rfl⟩
    rintro hlead _ ⟨⟩ htrail
    exact hpair (Bool.and_eq_true_iff.2 ⟨(isSurrogateFirst_iff hrange).2 hlead,
      (isTrail_iff (toNat_lt32 c2)).2 htrail⟩)
  | case8 c src s hroom hascii s₁ hsurrogate hfits ih =>
    have hrange := mt (isSurrogate_iff (toNat_lt32 c)).2 hsurrogate
    obtain ⟨ch, hch, hword⟩ := unit_word hrange
    obtain ⟨cs, rest, status, hconv, hrest⟩ := ih hcode
    have hbytes := utf8_word ch
    rw [hch] at hbytes
    exact ⟨ch :: cs, rest, status, hconv.put hword hbytes rfl rfl rfl
      (by rw [length_u8AppendUnsafe hch]; exact hfits), hrest⟩
  | case9 c src s hroom hascii s₁ hsurrogate hlong =>
    have hrange := mt (isSurrogate_iff (toNat_lt32 c)).2 hsurrogate
    obtain ⟨ch, hch, hword⟩ := unit_word hrange
    refine ⟨[], _, .truncated, converted_stop (stops_long (c := ch) ?_ ?_) rfl rfl rfl, rfl,
      fun _ => rfl⟩
    · rw [hword]
      exact prefix_append [c] src
    · rw [length_utf8_word, hch]
      exact Nat.not_le.1 hlong

/-- What the standard says about the next character behind a byte that is no ASCII character. -/
structure FollowsUnicode (nextChar : UInt8 → List UInt8 → Int × Nat) : Prop where
  char : ∀ (ch : Char) (b : UInt8) (src rest : List UInt8), 0x7f < b.toNat →
    b :: src = utf8.word ch ++ rest → nextChar b src = ((ch.toNat : Int), (utf8.word ch).length - 1)
  bad : ∀ (b : UInt8) (src : List UInt8), 0x7f < b.toNat → (∀ ch, ¬utf8.word ch <+: b :: src) →
    (nextChar b src).1 < 0

theorem FollowsUnicode.cases {nextChar : UInt8 → List UInt8 → Int × Nat}
    (h : FollowsUnicode nextChar)
    {b : UInt8} (hb : 0x7f < b.toNat) (src : List UInt8) :
    (nextChar b src).1 < 0 ∧ (∀ ch, ¬utf8.word ch <+: b :: src) ∨
      ∃ ch : Char, (nextChar b src).1 = ch.toNat ∧ (utf8.word ch).length = (nextChar b src).2 + 1 ∧
        b :: src = utf8.word ch ++ src.drop (nextChar b src).2 := by
  by_cases hword : ∃ ch, utf8.word ch <+: b :: src
  · obtain ⟨ch, rest, hrest⟩ := hword
    have hlen : (utf8.word ch).length - 1 + 1 = (utf8.word ch).length :=
      Nat.sub_add_cancel (utf8.length_pos ch)
    refine .inr ⟨ch, ?_⟩
    rw [h.char ch b src rest hb hrest.symm]
    refine ⟨rfl, hlen.symm, ?_⟩
    have hdrop : src.drop ((utf8.word ch).length - 1) = (b :: src).drop (utf8.word ch).length := by
      rw [← hlen, drop_succ_cons, Nat.add_sub_cancel]
    rw [hdrop, ← hrest, drop_left]
  · have hno := not_exists.1 hword
    exact .inl ⟨h.bad b src hb hno, hno⟩

theorem FollowsUnicode.next {nextChar : UInt8 → List UInt8 → Int × Nat}
    (h : FollowsUnicode nextChar) {b : UInt8} {src : List UInt8} {c : Int} {n : Nat}
    (hb : ¬b.toNat ≤ 0x7f) (hnext : nextChar b src = (c, n)) (hpos : ¬c < 0) :
    ∃ (ch : Char) (bytes : List UInt8), ch.toNat = c.toNat ∧ utf8.word ch = bytes ∧
      bytes.length = n + 1 ∧ b :: src = bytes ++ src.drop n := by
  obtain ⟨hneg, -⟩ | ⟨ch, hch, hlen, hsrc⟩ := h.cases (Nat.not_le.1 hb) src
  · rw [hnext] at hneg
    exact absurd hneg hpos
  · rw [hnext] at hch hlen hsrc
    obtain rfl : c = ch.toNat := hch
    exact ⟨ch, _, (Int.toNat_natCast _).symm, rfl, hlen, hsrc⟩

theorem utf8ToUtf16Loop_spec {nextChar : UInt8 → List UInt8 → Int × Nat}
    (h : FollowsUnicode nextChar)
    (dstLen : Nat) (src : List UInt8) (s : Conv UInt16) (hcode : s.errCode = 0) :
    ∃ cs rest status,
      Converted utf8 utf16 (dstLen / 2) src s (utf8ToUtf16Loop nextChar dstLen src s) cs rest
        status ∧
      (utf8ToUtf16Loop nextChar dstLen src s).errCode = errCodeOf status ∧
      (status ≠ .ok → (utf8ToUtf16Loop nextChar dstLen src s).errPosition =
        some (utf8ToUtf16Loop nextChar dstLen src s).i) := by
  fun_induction utf8ToUtf16Loop nextChar dstLen src s with
  | case1 s => exact ⟨[], [], .ok, converted_stop stops_nil rfl rfl rfl, hcode, nofun⟩
  | case2 s c src hfull =>
    refine ⟨[], _, .truncated, converted_stop ?_ rfl rfl rfl, rfl, fun _ => rfl⟩
    rw [hfull]
    exact stops_full (cons_ne_nil c src)
  | case3 s c src hroom hascii ih =>
    obtain ⟨ch, hch⟩ := exists_char (n := c.toNat) (by omega)
    obtain ⟨cs, rest, status, hconv, hrest⟩ := ih hcode
    have hbytes : utf8.word ch = [c] := by
      rw [utf8_word, hch, u8AppendUnsafe, if_pos hascii, UInt8.ofNat_toNat]
    have hunits : utf16.word ch = [UInt16.ofNat c.toNat] := by
      rw [utf16_word, hch, if_pos (by omega)]
    exact ⟨ch :: cs, rest, status,
      hconv.put hbytes hunits rfl rfl rfl (Nat.pos_of_ne_zero hroom), hrest⟩
  | case4 s c src hroom hascii s₁ c' n hnext hneg =>
    obtain ⟨-, hno⟩ | ⟨ch, hch, -⟩ := h.cases (Nat.not_le.1 hascii) src
    · exact ⟨[], _, .bad, converted_stop (stops_bad (cons_ne_nil c src) hno) rfl rfl rfl, rfl,
        fun _ => rfl⟩
    · rw [hnext] at hch
      omega
  | case5 s c src hroom hascii s₁ c' n hnext hneg hbmp ih =>
    obtain ⟨ch, bytes, hch, hbytes, hlen, hsrc⟩ := h.next hascii hnext hneg
    obtain ⟨cs, rest, status, hconv, hrest⟩ := ih hcode
    have hunits : utf16.word ch = [UInt16.ofNat c'.toNat] := by
      rw [utf16_word, if_pos (by omega), hch]
    rw [hsrc]
    exact ⟨ch :: cs, rest, status, hconv.put hbytes hunits (by rw [hlen]; rfl) rfl rfl
      (Nat.pos_of_ne_zero hroom), hrest⟩
  | case6 s c src hroom hascii s₁ c' n hnext hneg hbmp hfits ih =>
    obtain ⟨ch, bytes, hch, hbytes, hlen, hsrc⟩ := h.next hascii hnext hneg
    obtain ⟨cs, rest, status, hconv, hrest⟩ := ih hcode
    have hunits : utf16.word ch = [lead c'.toNat, trail c'.toNat] := by
      rw [utf16_word, if_neg (by omega), hch]
    rw [hsrc]
    exact ⟨ch :: cs, rest, status, hconv.put hbytes hunits (by rw [hlen]; rfl) rfl rfl hfits, hrest⟩
  | case7 s c src hroom hascii s₁ c' n hnext hneg hbmp hlong =>
    obtain ⟨ch, bytes, hch, hbytes, hlen, hsrc⟩ := h.next hascii hnext hneg
    refine ⟨[], _, .truncated, converted_stop (stops_long (c := ch) ?_ ?_) rfl rfl rfl, rfl,
      fun _ => rfl⟩
    · rw [hsrc, hbytes]
      exact prefix_append _ _
    · rw [utf16_word, if_neg (by omega)]
      exact Nat.lt_succ_of_le (Nat.not_lt.1 hlong)

/-- A trail surrogate behind whole characters, that is reached while there is room. -/
def LoneTrail (src : List UInt16) (room : Nat) : Prop :=
  ∃ cs t rest, src = utf16.encode cs ++ t :: rest ∧ (0xdc00 ≤ t.toNat ∧ t.toNat ≤ 0xdfff) ∧
    (utf32.encode cs).length < room

theorem utf32_word (ch : Char) : utf32.word ch = [UInt32.ofNat ch.toNat] := by
  show [ch.val] = [UInt32.ofNat ch.val.toNat]
  rw [UInt32.ofNat_toNat]

theorem LoneTrail.cons {c : Char} {room : Nat} (h : LoneTrail src (room - 1)) :
    LoneTrail (utf16.word c ++ src) room := by
  obtain ⟨cs, t, rest, rfl, ht, hroom⟩ := h
  refine ⟨c :: cs, t, rest, by simp, ht, ?_⟩
  rw [encode_cons, length_append]
  have : (utf32.word c).length = 1 := rfl
  omega

def loopCode : Status → Nat
  | .bad => csBadInput
  | _ => 0

theorem utf16ToUtf32Loop_spec (dstLen : Nat) (src : List UInt16) (s : Conv UInt32)
    (hcode : s.errCode = 0) (hlone : ¬LoneTrail src (dstLen / 4 - s.dst.length)) :
    ∃ cs rest status,
      Converted utf16 utf32 (dstLen / 4) src s (utf16ToUtf32Loop dstLen src s) cs rest status ∧
      (utf16ToUtf32Loop dstLen src s).errCode = loopCode status := by
  fun_induction utf16ToUtf32Loop dstLen src s with
  | case1 s => exact ⟨[], [], .ok, converted_stop stops_nil rfl rfl rfl, hcode⟩
  | case2 ch s hroom hlead =>
    have hrange := (isLead_iff (toNat_lt32 ch)).1 hlead
    exact ⟨[], _, .bad, converted_stop (stops_surrogate (by omega) nofun) rfl rfl rfl, rfl⟩
  | case3 ch s hroom hlead ch2 src htrail ih =>
    obtain ⟨c, hc, hword⟩ := pair_word ((isLead_iff (toNat_lt32 ch)).1 hlead)
      ((isTrail_iff (toNat_lt32 ch2)).1 htrail)
    obtain ⟨cs, rest, status, hconv, hrest⟩ := ih hcode fun h => hlone (by
      rw [Conv.put, length_append, ← Nat.sub_sub] at h
      have := h.cons (c := c)
      rwa [hword] at this)
    have hunits := utf32_word c
    rw [hc] at hunits
    exact ⟨c :: cs, rest, status,
      hconv.put hword hunits rfl rfl rfl (Nat.sub_pos_of_lt hroom), hrest⟩
  | case4 ch s hroom hlead ch2 src htrail =>
    have hrange := (isLead_iff (toNat_lt32 ch)).1 hlead
    refine ⟨[], _, .bad, converted_stop (stops_surrogate (by omega) ?_) rfl rfl rfl, rfl⟩
    rintro - _ ⟨⟩ htrail'
    exact htrail ((isTrail_iff (toNat_lt32 ch2)).2 htrail')
  | case5 ch src s hroom hlead ih =>
    have hrange := mt (isLead_iff (toNat_lt32 ch)).2 hlead
    have htrail : ¬(0xdc00 ≤ ch.toNat ∧ ch.toNat ≤ 0xdfff) := fun h =>
      hlone ⟨[], ch, src, rfl, h, Nat.sub_pos_of_lt hroom⟩
    obtain ⟨c, hc, hword⟩ := unit_word (c := ch) (by omega)
    obtain ⟨cs, rest, status, hconv, hrest⟩ := ih hcode fun h => hlone (by
      rw [Conv.put, length_append, ← Nat.sub_sub] at h
      have := h.cons (c := c)
      rwa [hword] at this)
    have hunits := utf32_word c
    rw [hc] at hunits
    exact ⟨c :: cs, rest, status,
      hconv.put hword hunits rfl rfl rfl (Nat.sub_pos_of_lt hroom), hrest⟩
  | case6 ch src s hroom =>
    refine ⟨[], _, .truncated, converted_stop ?_ rfl rfl rfl, hcode⟩
    rw [Nat.sub_eq_zero_of_le (Nat.not_lt.1 hroom)]
    exact stops_full (cons_ne_nil ch src)

theorem prefix_utf16ToUtf32Loop (dstLen : Nat) (src : List UInt16) (s : Conv UInt32) :
    s.dst <+: (utf16ToUtf32Loop dstLen src s).dst := by
  fun_induction utf16ToUtf32Loop dstLen src s with
  | case3 ch s _ _ ch2 src _ ih => exact (prefix_append _ _).trans ih
  | case5 ch src s _ _ ih => exact (prefix_append _ _).trans ih
  | _ => exact prefix_rfl

theorem utf16ToUtf32Loop_word {dstLen : Nat} {s : Conv UInt32} (h : s.dst.length < dstLen / 4)
    (c : Char)
    (src : List UInt16) : utf16ToUtf32Loop dstLen (utf16.word c ++ src) s =
      utf16ToUtf32Loop dstLen src (s.put (utf16.word c).length (utf32.word c)) := by
  have hc := char_range c
  rw [utf16_word, utf32_word]
  split_ifs with hbmp
  · have hval : (UInt16.ofNat c.toNat).toNat = c.toNat := toNat_ofNat16 (by omega)
    have hlead : isLead c.toNat = false := by
      rw [Bool.eq_false_iff, ne_eq, isLead_iff (by omega)]
      omega
    rw [cons_append, nil_append, utf16ToUtf32Loop.eq_def]
    simp only [if_pos h, hval, hlead]
    rfl
  · have hval : (lead c.toNat).toNat = c.toNat / 1024 + 0xd7c0 := by
      rw [lead_eq, toNat_ofNat16 (by omega)]
    have hval' : (trail c.toNat).toNat = c.toNat % 1024 + 0xdc00 := by
      rw [trail_eq, toNat_ofNat16 (by omega)]
    have hlead : isLead (lead c.toNat).toNat = true := by
      rw [isLead_iff (by omega)]
      omega
    have htrail : isTrail (trail c.toNat).toNat = true := by
      rw [isTrail_iff (by omega)]
      omega
    have hpair : getPairValue (lead c.toNat).toNat (trail c.toNat).toNat = c.toNat := by
      rw [getPairValue_eq (by omega) (by omega)]
      omega
    rw [cons_append, cons_append, nil_append, utf16ToUtf32Loop.eq_def]
    simp only [if_pos h, hlead, htrail, hpair]
    rfl

theorem LoneTrail.mem_dst {dstLen : Nat} {s : Conv UInt32}
    (h : LoneTrail src (dstLen / 4 - s.dst.length)) :
    ∃ t : UInt32, (0xdc00 ≤ t.toNat ∧ t.toNat ≤ 0xdfff) ∧ t ∈
      (utf16ToUtf32Loop dstLen src s).dst := by
  obtain ⟨cs, t, rest, rfl, ht, hroom⟩ := h
  induction cs generalizing s with
  | nil =>
    have hlead : isLead t.toNat = false := by
      rw [Bool.eq_false_iff, ne_eq, isLead_iff (toNat_lt32 t)]
      omega
    have hval : (UInt32.ofNat t.toNat).toNat = t.toNat := Nat.mod_eq_of_lt (toNat_lt32 t)
    refine ⟨UInt32.ofNat t.toNat, by rwa [hval], ?_⟩
    rw [encode_nil, nil_append, utf16ToUtf32Loop.eq_def]
    simp only [if_pos (show s.dst.length < dstLen / 4 by omega), hlead]
    exact (prefix_utf16ToUtf32Loop dstLen rest _).subset (by simp [Conv.put])
  | cons c cs ih =>
    have hlen : (utf32.word c).length = 1 := rfl
    rw [encode_cons, length_append, hlen] at hroom
    rw [encode_cons, append_assoc, utf16ToUtf32Loop_word (by omega)]
    refine ih ?_
    rw [Conv.put, length_append, hlen]
    omega

end Firebird.Jrd.UnicodeUtil
