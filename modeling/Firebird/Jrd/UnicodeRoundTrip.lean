import Firebird.Jrd.UnicodeExact

/-!
# When the Unicode conversions are exact

The conversions between UTF-8 and UTF-16 always are. Those between UTF-16 and UTF-32 take a
surrogate that belongs to no pair for a character, and the one to UTF-16 counts a character whose
second half does not fit.
-/
namespace Firebird.Jrd.UnicodeUtil

open Lib.Encoding Lib.Encoding.Code List

def LoneSurrogate (src : List UInt32) (room : Nat) : Prop :=
  ∃ cs t rest, src = utf32.encode cs ++ t :: rest ∧ (0xd800 ≤ t.toNat ∧ t.toNat ≤ 0xdfff) ∧
    (utf16.encode cs).length < room

/-- A character that needs two units, behind others that leave room for one. -/
def Split (src : List UInt32) (room : Nat) : Prop :=
  ∃ (cs : List Char) (c : Char) (rest : List UInt32), src = utf32.encode (cs ++ [c]) ++ rest ∧
    0xffff < c.toNat ∧ (utf16.encode cs).length + 1 = room

theorem Conv.put_put {β : Type} (s : Conv β) (n m : Nat) (xs ys : List β) :
    (s.put n xs).put m ys = s.put (n + m) (xs ++ ys) := by
  simp [Conv.put, Nat.add_assoc]

section Utf32

variable {c : Char} {src : List UInt32} {room dstLen : Nat} {s : Conv UInt16}

theorem LoneSurrogate.cons (h : LoneSurrogate src (room - (utf16.word c).length)) :
    LoneSurrogate (utf32.word c ++ src) room := by
  obtain ⟨cs, t, rest, rfl, ht, hroom⟩ := h
  refine ⟨c :: cs, t, rest, by simp, ht, ?_⟩
  rw [encode_cons, length_append]
  omega

theorem Split.cons (h : Split src (room - (utf16.word c).length)) :
    Split (utf32.word c ++ src) room := by
  obtain ⟨cs, d, rest, rfl, hd, hroom⟩ := h
  refine ⟨c :: cs, d, rest, by simp, hd, ?_⟩
  rw [encode_cons, length_append]
  omega

theorem length_utf16_word_of_lt (h : 0xffff < c.toNat) : (utf16.word c).length = 2 := by
  rw [utf16_word, if_neg (by omega)]
  rfl

theorem unit_word32 {ch : UInt32} (h : ¬(0xd800 ≤ ch.toNat ∧ ch.toNat ≤ 0xdfff))
    (hmax : ch.toNat ≤ 0x10ffff) : ∃ c : Char, c.toNat = ch.toNat ∧ utf32.word c = [ch] := by
  obtain ⟨c, hc⟩ := exists_char (n := ch.toNat) (by omega)
  exact ⟨c, hc, by rw [utf32_word, hc, UInt32.ofNat_toNat]⟩

theorem utf32ToUtf16Loop_spec (dstLen : Nat) (src : List UInt32) (s : Conv UInt16)
    (hcode : s.errCode = 0) (hlone : ¬LoneSurrogate src (dstLen / 2 - s.dst.length))
    (hsplit : ¬Split src (dstLen / 2 - s.dst.length)) :
    ∃ cs rest status,
      Converted utf32 utf16 (dstLen / 2) src s (utf32ToUtf16Loop dstLen src s) cs rest status ∧
      (utf32ToUtf16Loop dstLen src s).errCode = loopCode status := by
  fun_induction utf32ToUtf16Loop dstLen src s with
  | case1 s => exact ⟨[], [], .ok, converted_stop stops_nil rfl rfl rfl, hcode⟩
  | case2 ch src s hroom hbmp ih =>
    have hno : ¬(0xd800 ≤ ch.toNat ∧ ch.toNat ≤ 0xdfff) := fun h =>
      hlone ⟨[], ch, src, rfl, h, Nat.sub_pos_of_lt hroom⟩
    obtain ⟨c, hc, hword⟩ := unit_word32 hno (by omega)
    have hunits : utf16.word c = [UInt16.ofNat ch.toNat] := by
      rw [utf16_word, if_pos (by omega), hc]
    have hsub : dstLen / 2 - (s.put 1 [UInt16.ofNat ch.toNat]).dst.length =
        dstLen / 2 - s.dst.length - (utf16.word c).length := by
      rw [Conv.put, length_append, hunits, Nat.sub_sub]
    have hsrc : ch :: src = utf32.word c ++ src := by rw [hword]; rfl
    rw [hsub] at ih
    rw [hsrc] at hlone hsplit
    obtain ⟨cs, rest, status, hconv, hrest⟩ := ih hcode (fun h => hlone h.cons) fun h =>
      hsplit h.cons
    exact ⟨c :: cs, rest, status,
      hconv.put hword hunits rfl rfl rfl (Nat.sub_pos_of_lt hroom), hrest⟩
  | case3 ch src s hroom hbmp hmax hfits ih =>
    obtain ⟨c, hc, hword⟩ := unit_word32 (by omega : ¬(0xd800 ≤ ch.toNat ∧ ch.toNat ≤ 0xdfff)) hmax
    have hunits : utf16.word c = [lead ch.toNat, trail ch.toNat] := by
      rw [utf16_word, if_neg (by omega), hc]
    have hsub : dstLen / 2 - (s.put 1 [lead ch.toNat, trail ch.toNat]).dst.length =
        dstLen / 2 - s.dst.length - (utf16.word c).length := by
      rw [Conv.put, length_append, hunits, Nat.sub_sub]
    have hsrc : ch :: src = utf32.word c ++ src := by rw [hword]; rfl
    rw [hsub] at ih
    rw [hsrc] at hlone hsplit
    obtain ⟨cs, rest, status, hconv, hrest⟩ := ih hcode (fun h => hlone h.cons) fun h =>
      hsplit h.cons
    have hle : [lead ch.toNat, trail ch.toNat].length ≤ dstLen / 2 - s.dst.length := by
      simp only [length_cons, length_nil]
      omega
    exact ⟨c :: cs, rest, status, hconv.put hword hunits rfl rfl rfl hle, hrest⟩
  | case4 ch src s hroom hbmp hmax hlong =>
    obtain ⟨c, hc, hword⟩ := unit_word32 (by omega : ¬(0xd800 ≤ ch.toNat ∧ ch.toNat ≤ 0xdfff)) hmax
    refine absurd ⟨[], c, src, ?_, by omega, ?_⟩ hsplit
    · simp [hword]
    · simp only [encode_nil, length_nil]
      omega
  | case5 ch src s hroom hbmp hmax =>
    refine ⟨[], _, .bad, converted_stop (stops_bad (cons_ne_nil ch src) fun c hc => ?_) rfl rfl rfl,
      rfl⟩
    obtain ⟨x, hx⟩ := hc
    rw [utf32_word] at hx
    obtain rfl := (List.cons.inj hx).1
    have hrange := char_range c
    have : (UInt32.ofNat c.toNat).toNat = c.toNat := Nat.mod_eq_of_lt (by omega)
    omega
  | case6 ch src s hroom =>
    refine ⟨[], _, .truncated, converted_stop ?_ rfl rfl rfl, hcode⟩
    rw [Nat.sub_eq_zero_of_le (Nat.not_lt.1 hroom)]
    exact stops_full (cons_ne_nil ch src)

theorem le_i_utf32ToUtf16Loop (dstLen : Nat) (src : List UInt32) (s : Conv UInt16) :
    s.i ≤ (utf32ToUtf16Loop dstLen src s).i := by
  fun_induction utf32ToUtf16Loop dstLen src s with
  | case2 ch src s _ _ ih => exact Nat.le_of_succ_le ih
  | case3 ch src s _ _ _ _ ih => exact Nat.le_of_succ_le ih
  | case4 => exact Nat.le_succ _
  | _ => exact Nat.le_refl _

theorem utf32ToUtf16Loop_word (h : s.dst.length + (utf16.word c).length ≤ dstLen / 2)
    (src : List UInt32) : utf32ToUtf16Loop dstLen (utf32.word c ++ src) s =
      utf32ToUtf16Loop dstLen src (s.put 1 (utf16.word c)) := by
  have hc := char_range c
  have hval : (UInt32.ofNat c.toNat).toNat = c.toNat := Nat.mod_eq_of_lt (by omega)
  rw [utf32_word, cons_append, nil_append, utf32ToUtf16Loop.eq_def]
  generalize UInt32.ofNat c.toNat = x at hval ⊢
  rw [utf16_word] at h ⊢
  split_ifs at h ⊢ with hbmp
  · simp only [length_cons] at h
    simp [if_pos (show s.dst.length < dstLen / 2 by omega), hval, if_pos hbmp]
  · simp only [length_cons] at h
    simp [if_pos (show s.dst.length < dstLen / 2 by omega), hval, if_neg hbmp, if_pos
      (show c.toNat ≤ 0x10ffff by omega), if_pos (show s.dst.length + 1 < dstLen / 2 by omega)]

theorem utf32ToUtf16Loop_encode (cs : List Char)
    (h : s.dst.length + (utf16.encode cs).length ≤ dstLen / 2) (src : List UInt32) :
    utf32ToUtf16Loop dstLen (utf32.encode cs ++ src) s =
      utf32ToUtf16Loop dstLen src (s.put cs.length (utf16.encode cs)) := by
  induction cs generalizing s with
  | nil => simp [Conv.put]
  | cons c cs ih =>
    rw [encode_cons, length_append] at h
    rw [encode_cons, append_assoc, utf32ToUtf16Loop_word (by omega), ih (by simp [Conv.put]; omega),
      Conv.put_put, Nat.add_comm 1]
    rfl

end Utf32

section Exact

variable {α β : Type} {A : Code Char α} {B : Code Char β} {size room : Nat} {src : List α}
    {r : Conv β}

/-- A conversion stays within the room, finds out if the source is well-formed and fits, and
otherwise has converted the characters in front of the position that it returns. -/
structure Exact (A : Code Char α) (B : Code Char β) (size : Nat) (src : List α) (room : Nat)
    (r : Conv β) : Prop where
  stored_le : r.stored ≤ room
  length_le : r.dst.length ≤ r.stored
  ok_iff : r.errCode = 0 ↔ ∃ cs, src = A.encode cs ∧ (B.encode cs).length ≤ room
  ok : r.errCode = 0 → ∃ cs, src = A.encode cs ∧ r.dst = B.encode cs
  error : r.errCode ≠ 0 → ∃ cs rest, src = A.encode cs ++ rest ∧ r.dst = B.encode cs ∧
    r.errPosition = some ((A.encode cs).length * size)

theorem errCodeOf_eq_zero {status : Status} : errCodeOf status = 0 ↔ status = .ok := by
  cases status <;> simp [errCodeOf, csBadInput, csTruncationError]

theorem Converted.exact {cs : List Char} {rest : List α} {status : Status}
    (h : Converted A B room src (.start β) r cs rest status) (hcode : r.errCode = errCodeOf status)
    (hpos : status ≠ .ok → r.errPosition = some ((A.encode cs).length * size)) :
    Exact A B size src room r := by
  have hstops := h.stops
  have hdst := h.dst
  have hstored := h.stored
  simp only [Conv.start, nil_append, Nat.zero_add]
    at hstops hdst hstored
  refine ⟨?_, ?_, ?_, fun hok => ?_, fun herr => ?_⟩
  · rw [hstored]
    exact hstops.fits
  · rw [hstored, hdst]
  · rw [hcode, errCodeOf_eq_zero]
    exact hstops.ok_iff
  · rw [hcode, errCodeOf_eq_zero] at hok
    subst hok
    obtain rfl : rest = [] := hstops.ends
    exact ⟨cs, by simpa using hstops.src_eq, hdst⟩
  · rw [hcode, ne_eq, errCodeOf_eq_zero] at herr
    exact ⟨cs, rest, hstops.src_eq, hdst, hpos herr⟩

theorem Converted.finish {cs : List Char} {rest : List α} {status : Status}
    (h : Converted A B room src (.start β) r cs rest status) (hcode : r.errCode = loopCode status) :
    Exact A B size src room (UnicodeUtil.finish src size r) := by
  have hi := h.i
  have hsrc := congrArg List.length h.stops.src_eq
  have hends := h.stops.ends
  rw [length_append] at hsrc
  simp only [Conv.start, Nat.zero_add] at hi
  refine Converted.exact ⟨h.stops, h.i, h.dst, h.stored⟩ ?_ fun _ => ?_
  · unfold UnicodeUtil.finish
    rw [hcode]
    cases status with
    | ok =>
      obtain rfl : rest = [] := hends
      rw [if_neg (by simp at hsrc; omega)]
      rfl
    | bad => rfl
    | truncated =>
      have := length_pos_iff.2 hends.1
      rw [if_pos ⟨rfl, by omega⟩]
      rfl
  · rw [← hi]
    rfl

theorem Exact.dst_eq (h : Exact A B size src room r) {cs : List Char} (hsrc : src = A.encode cs)
    (hfits : (B.encode cs).length ≤ room) : r.dst = B.encode cs := by
  obtain ⟨ds, hds, hdst⟩ := h.ok (h.ok_iff.2 ⟨cs, hsrc, hfits⟩)
  rw [hdst, A.encode_injective (hds.symm.trans hsrc)]

end Exact

theorem utf16ToUtf8_exact (src : List UInt16) (dstLen : Nat) :
    Exact utf16 utf8 2 src dstLen (utf16ToUtf8 src dstLen) := by
  obtain ⟨cs, rest, status, hconv, hcode, hpos⟩ :=
    utf16ToUtf8Loop_spec dstLen src (.start UInt8) rfl
  refine hconv.exact hcode fun h => ?_
  have hi := hconv.i
  rw [Conv.start, Nat.zero_add] at hi
  rw [← hi]
  exact hpos h

theorem utf8ToUtf16_exact {nextChar : UInt8 → List UInt8 → Int × Nat} (h : FollowsUnicode nextChar)
    (src : List UInt8) (dstLen : Nat) :
    Exact utf8 utf16 1 src (dstLen / 2) (utf8ToUtf16 nextChar src dstLen) := by
  obtain ⟨cs, rest, status, hconv, hcode, hpos⟩ :=
    utf8ToUtf16Loop_spec h dstLen src (.start UInt16) rfl
  refine hconv.exact hcode fun h => ?_
  have hi := hconv.i
  rw [Conv.start, Nat.zero_add] at hi
  rw [← hi, Nat.mul_one]
  exact hpos h

theorem utf16ToUtf32_exact_iff (src : List UInt16) (dstLen : Nat) :
    Exact utf16 utf32 2 src (dstLen / 4) (utf16ToUtf32 src dstLen) ↔ ¬LoneTrail src
      (dstLen / 4) := by
  constructor
  · intro h hlone
    obtain ⟨t, ht, hmem⟩ := LoneTrail.mem_dst (s := .start UInt32) hlone
    -- whatever the conversion says, what it has stored are characters
    obtain ⟨cs, hcs⟩ : ∃ cs, (utf16ToUtf32 src dstLen).dst = utf32.encode cs := by
      by_cases herr : (utf16ToUtf32 src dstLen).errCode = 0
      · obtain ⟨cs, -, hdst⟩ := h.ok herr
        exact ⟨cs, hdst⟩
      · obtain ⟨cs, -, -, hdst, -⟩ := h.error herr
        exact ⟨cs, hdst⟩
    have hmem' : t ∈ utf32.encode cs := hcs ▸ hmem
    obtain ⟨c, -, hc⟩ := mem_flatMap.1 hmem'
    rw [mem_singleton.1 hc] at ht
    have := char_range c
    have : c.val.toNat = c.toNat := rfl
    omega
  · intro hlone
    obtain ⟨cs, rest, status, hconv, hcode⟩ :=
      utf16ToUtf32Loop_spec dstLen src (.start UInt32) rfl hlone
    exact hconv.finish hcode

theorem encode_utf32 (cs : List Char) : utf32.encode cs = cs.map Char.val := by
  induction cs with
  | nil => rfl
  | cons c cs ih => rw [encode_cons, ih]; rfl

theorem LoneSurrogate.not_exact {src : List UInt32} {dstLen : Nat}
    (h : LoneSurrogate src (dstLen / 2)) :
    ¬Exact utf32 utf16 4 src (dstLen / 2) (utf32ToUtf16 src dstLen) := by
  intro hexact
  obtain ⟨cs, t, rest, rfl, ht, hroom⟩ := h
  -- the surrogate is read
  have hi : cs.length < (utf32ToUtf16 (utf32.encode cs ++ t :: rest) dstLen).i := by
    have hstart : (Conv.start UInt16).dst.length = 0 := rfl
    show cs.length < (utf32ToUtf16Loop dstLen (utf32.encode cs ++ t :: rest) (.start UInt16)).i
    rw [utf32ToUtf16Loop_encode cs (by omega), utf32ToUtf16Loop.eq_def]
    dsimp only
    rw [if_pos (by simp [Conv.put]; omega), if_pos (by omega)]
    refine Nat.lt_of_lt_of_le ?_ (le_i_utf32ToUtf16Loop _ _ _)
    simp [Conv.put, Conv.start]
  -- so it would have to be a character
  obtain ⟨ds, rest', hds, hlt⟩ : ∃ ds rest', utf32.encode cs ++ t :: rest = utf32.encode ds ++
    rest' ∧
      cs.length < ds.length := by
    by_cases herr : (utf32ToUtf16 (utf32.encode cs ++ t :: rest) dstLen).errCode = 0
    · obtain ⟨ds, hds, -⟩ := hexact.ok herr
      refine ⟨ds, [], by simpa using hds, ?_⟩
      have := congrArg List.length hds
      simp only [encode_utf32, length_append, length_map, length_cons] at this
      omega
    · obtain ⟨ds, rest', hds, -, hpos⟩ := hexact.error herr
      refine ⟨ds, rest', hds, ?_⟩
      have hpos' : (utf32ToUtf16 (utf32.encode cs ++ t :: rest) dstLen).i * 4 =
        (utf32.encode ds).length * 4 := Option.some.inj hpos
      rw [encode_utf32 ds, length_map] at hpos'
      omega
  have hget := congrArg (·[cs.length]?) hds
  simp only [encode_utf32] at hget
  rw [getElem?_append_right (by simp), getElem?_append_left (by simpa using hlt)] at hget
  simp only [length_map, Nat.sub_self, getElem?_cons_zero, getElem?_map,
    getElem?_eq_getElem hlt, Option.map_some, Option.some.injEq] at hget
  have := char_range ds[cs.length]
  have : ds[cs.length].val.toNat = ds[cs.length].toNat := rfl
  rw [hget] at ht
  omega

theorem Split.not_exact {src : List UInt32} {dstLen : Nat} (h : Split src (dstLen / 2)) :
    ¬Exact utf32 utf16 4 src (dstLen / 2) (utf32ToUtf16 src dstLen) := by
  intro hexact
  obtain ⟨cs, c, rest, rfl, hc, hroom⟩ := h
  have hrange := char_range c
  have hval : (UInt32.ofNat c.toNat).toNat = c.toNat := Nat.mod_eq_of_lt (by omega)
  have hstart : (Conv.start UInt16).dst.length = 0 := rfl
  have hstop : utf32ToUtf16Loop dstLen (utf32.encode (cs ++ [c]) ++ rest) (.start UInt16) =
      ⟨cs.length + 1, utf16.encode cs, (utf16.encode cs).length + 1, csTruncationError, none⟩ := by
    rw [encode_append, append_assoc, utf32ToUtf16Loop_encode cs (by omega), encode_cons, encode_nil,
      append_nil, utf32_word, cons_append, nil_append, utf32ToUtf16Loop.eq_def]
    simp only [hval, if_neg (Nat.not_le.2 hc), if_pos (show c.toNat ≤ 0x10ffff by omega)]
    simp only [Conv.put, Conv.start, nil_append, Nat.zero_add]
    rw [if_pos (by omega), if_neg (by omega)]
  obtain ⟨ds, rest', hds, hdst, hpos⟩ := hexact.error (by
    rw [utf32ToUtf16, hstop]
    simp [finish, csTruncationError])
  rw [utf32ToUtf16, hstop] at hdst hpos
  have hlen : (cs.length + 1) * 4 = (utf32.encode ds).length * 4 := Option.some.inj hpos
  have heq : utf32.encode (cs ++ [c]) = utf32.encode ds := by
    refine (append_inj hds ?_).1
    rw [encode_utf32, encode_utf32 ds, length_map] at *
    simp only [length_append, length_map, length_singleton] at *
    omega
  have hcs : utf16.encode cs = utf16.encode (cs ++ [c]) := by
    rw [utf32.encode_injective heq]
    exact hdst
  have := congrArg List.length hcs
  have := utf16.length_pos c
  simp only [encode_append, encode_cons, length_append] at *
  omega

theorem utf32ToUtf16_exact_iff (src : List UInt32) (dstLen : Nat) :
    Exact utf32 utf16 4 src (dstLen / 2) (utf32ToUtf16 src dstLen) ↔
      ¬LoneSurrogate src (dstLen / 2) ∧ ¬Split src (dstLen / 2) := by
  constructor
  · exact fun h => ⟨fun hlone => hlone.not_exact h, fun hsplit => hsplit.not_exact h⟩
  · rintro ⟨hlone, hsplit⟩
    obtain ⟨cs, rest, status, hconv, hcode⟩ :=
      utf32ToUtf16Loop_spec dstLen src (.start UInt16) rfl hlone hsplit
    exact hconv.finish hcode

section WellFormed

variable (cs : List Char) (room : Nat)

theorem not_loneTrail : ¬LoneTrail (utf16.encode cs) room := by
  rintro ⟨ds, t, rest, h, ht, -⟩
  obtain ⟨es, -, hes⟩ := utf16.encode_append_eq h.symm
  cases es with
  | nil => cases hes
  | cons e es =>
    have hword : utf16.word e <+: t :: rest := hes ▸ prefix_append _ _
    obtain hno | ⟨hlead, -⟩ := word_cases hword
    · exact hno (by omega)
    · omega

theorem not_loneSurrogate : ¬LoneSurrogate (utf32.encode cs) room := by
  rintro ⟨ds, t, rest, h, ht, -⟩
  obtain ⟨es, -, hes⟩ := utf32.encode_append_eq h.symm
  cases es with
  | nil => cases hes
  | cons e es =>
    obtain rfl : t = e.val := (List.cons.inj hes).1
    have := char_range e
    have : e.val.toNat = e.toNat := rfl
    omega

theorem not_split (h : (utf16.encode cs).length ≤ room) : ¬Split (utf32.encode cs) room := by
  rintro ⟨ds, c, rest, hds, hc, hroom⟩
  obtain ⟨es, rfl, -⟩ := utf32.encode_append_eq hds.symm
  have := length_utf16_word_of_lt hc
  simp only [encode_append, encode_cons, length_append] at h
  omega

end WellFormed

/-- The conversions between UTF-8 and UTF-16 are exact. The one to UTF-32 is exact if and only if
it does not come to a trail surrogate without a lead, and the one from UTF-32 if and only if it
does not come to a surrogate and no character is cut in two. What is well-formed comes back as it
was. -/
theorem unicode_conversion_exact {nextChar : UInt8 → List UInt8 → Int × Nat}
    (h : FollowsUnicode nextChar) :
    (∀ src dstLen, Exact utf16 utf8 2 src dstLen (utf16ToUtf8 src dstLen)) ∧
    (∀ src dstLen, Exact utf8 utf16 1 src (dstLen / 2) (utf8ToUtf16 nextChar src dstLen)) ∧
    (∀ src dstLen, Exact utf16 utf32 2 src (dstLen / 4) (utf16ToUtf32 src dstLen) ↔
      ¬LoneTrail src (dstLen / 4)) ∧
    (∀ src dstLen, Exact utf32 utf16 4 src (dstLen / 2) (utf32ToUtf16 src dstLen) ↔
      ¬LoneSurrogate src (dstLen / 2) ∧ ¬Split src (dstLen / 2)) ∧
    (∀ cs n m, (utf8.encode cs).length ≤ n → (utf16.encode cs).length ≤ m / 2 →
      (utf8ToUtf16 nextChar (utf16ToUtf8 (utf16.encode cs) n).dst m).dst = utf16.encode cs ∧
      (utf16ToUtf8 (utf8ToUtf16 nextChar (utf8.encode cs) m).dst n).dst = utf8.encode cs) ∧
    ∀ cs n m, (utf32.encode cs).length ≤ n / 4 → (utf16.encode cs).length ≤ m / 2 →
      (utf32ToUtf16 (utf16ToUtf32 (utf16.encode cs) n).dst m).dst = utf16.encode cs ∧
      (utf16ToUtf32 (utf32ToUtf16 (utf32.encode cs) m).dst n).dst = utf32.encode cs := by
  refine ⟨utf16ToUtf8_exact, utf8ToUtf16_exact h, utf16ToUtf32_exact_iff, utf32ToUtf16_exact_iff,
    fun cs n m hn hm => ?_, fun cs n m hn hm => ?_⟩
  · have hto := (utf16ToUtf8_exact (utf16.encode cs) n).dst_eq rfl hn
    have hfrom := (utf8ToUtf16_exact h (utf8.encode cs) m).dst_eq rfl hm
    exact ⟨by rw [hto, hfrom], by rw [hfrom, hto]⟩
  · have hto := ((utf16ToUtf32_exact_iff _ n).2 (not_loneTrail cs _)).dst_eq rfl hn
    have hfrom := ((utf32ToUtf16_exact_iff _ m).2
      ⟨not_loneSurrogate cs _, not_split cs _ hm⟩).dst_eq rfl hm
    exact ⟨by rw [hto, hfrom], by rw [hfrom, hto]⟩

def decodeChar (b : UInt8) (src : List UInt8) : Int × Nat :=
  match (b :: src).toByteArray.utf8DecodeChar? 0 with
  | some ch => (ch.toNat, ch.utf8Size - 1)
  | none => (-1, 0)

theorem followsUnicode_decodeChar : FollowsUnicode decodeChar := by
  constructor
  · intro ch b src rest _ hsrc
    have hdecode : (b :: src).toByteArray.utf8DecodeChar? 0 = some ch := by
      rw [hsrc, toByteArray_append]
      exact ByteArray.utf8DecodeChar?_utf8EncodeChar_append
    have hlen : (utf8.word ch).length = ch.utf8Size := String.length_utf8EncodeChar ch
    rw [decodeChar, hdecode, hlen]
  · intro b src _ hno
    unfold decodeChar
    split
    · rename_i ch hdecode
      have hword : String.utf8EncodeChar ch = (b :: src).take ch.utf8Size := by
        simpa using congrArg (·.data.toList)
          (String.toByteArray_utf8EncodeChar_of_utf8DecodeChar?_eq_some hdecode)
      refine absurd ?_ (hno ch)
      rw [show utf8.word ch = _ from hword]
      exact take_prefix _ _
    · decide

/-- With a decoder that follows the standard. -/
theorem unicode_conversion_exact_decodeChar :
    (∀ src dstLen, Exact utf8 utf16 1 src (dstLen / 2) (utf8ToUtf16 decodeChar src dstLen)) ∧
    (utf32ToUtf16 (utf16ToUtf32 (utf16.encode ['a', '𐀀']) 8).dst 6).dst = utf16.encode
      ['a', '𐀀'] := by
  obtain ⟨-, hexact, -, -, -, hround⟩ := unicode_conversion_exact followsUnicode_decodeChar
  exact ⟨hexact, (hround ['a', '𐀀'] 8 6 (by decide) (by decide)).1⟩

/-- A trail surrogate alone is taken for a character, and a character that is cut in two is
counted. -/
theorem unicode_conversion_inexact :
    (utf16ToUtf32 [0xdc00] 4).errCode = 0 ∧ (¬∃ cs, [0xdc00] = utf16.encode cs) ∧
    (utf32ToUtf16 [0x10000] 2).dst = [] ∧ (utf32ToUtf16 [0x10000] 2).errPosition = some 4 ∧
    ¬Exact utf16 utf32 2 [0xdc00] 1 (utf16ToUtf32 [0xdc00] 4) ∧
    ¬Exact utf32 utf16 4 [0x10000] 1 (utf32ToUtf16 [0x10000] 2) := by
  refine ⟨by decide, ?_, by decide, by decide, ?_, ?_⟩
  · rintro ⟨cs, hcs⟩
    exact not_loneTrail cs 1 ⟨[], 0xdc00, [], hcs.symm, by decide, by decide⟩
  · intro h
    exact (utf16ToUtf32_exact_iff [0xdc00] 4).1 h ⟨[], 0xdc00, [], rfl, by decide, by decide⟩
  · intro h
    exact ((utf32ToUtf16_exact_iff [0x10000] 2).1 h).2 ⟨[], '𐀀', [], rfl, by decide, by decide⟩

end Firebird.Jrd.UnicodeUtil
