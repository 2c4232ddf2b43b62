import Firebird.Jrd.CvtText

/-!
# Formatted integers

The text of `integer_to_text` is the literal of the number, and it is written if it fits. The
scratch buffer is long enough but for the least scale.
-/
namespace Firebird.Jrd.Cvt

open Lib Lib.Decimal List
open Literal (leadingDigits lt_length_leadingDigits ofScaled)

theorem inside_bind {α β : Type} (a : Option α) (f : α → Option β) :
    inside (a.bind f) = inside a >>= fun a => inside (f a) := by
  cases a <;> rfl

theorem map_digitByte_zeros (k : Nat) :
    (replicate k (0 : Fin 10)).map digitByte = replicate k 48 := by
  rw [map_replicate]
  rfl

theorem Temp.push_eq {temp : Temp} (h : temp.chars.length < 128) (c : UInt8) :
    temp.push c = .ok ⟨c :: temp.chars, h⟩ := dif_pos h

theorem digitLoop_spec {u : Nat} {temp : Temp} (h : (digits u).length + temp.chars.length ≤ 128) :
    ∃ temp', digitLoop temp u = .ok temp' ∧ temp'.chars = (digits u).map digitByte ++
      temp.chars := by
  induction u using digits.induct generalizing temp with
  | case1 u hu =>
    rw [digits, dif_pos hu] at h ⊢
    simp only [length_singleton] at h
    rw [digitLoop, Temp.push_eq (by omega)]
    dsimp only
    rw [if_pos (Nat.div_eq_of_lt hu), Nat.mod_eq_of_lt hu]
    exact ⟨_, rfl, rfl⟩
  | case2 u hu ih =>
    rw [digits, dif_neg hu] at h ⊢
    simp only [length_append, length_singleton] at h
    have hlt : temp.chars.length < 128 := by omega
    obtain ⟨temp', hloop, hchars⟩ := @ih ⟨UInt8.ofNat (48 + u % 10) :: temp.chars, hlt⟩
      (by simp only [length_cons]; omega)
    rw [digitLoop, Temp.push_eq hlt]
    dsimp only
    rw [if_neg (by omega), hloop]
    refine ⟨temp', rfl, ?_⟩
    rw [hchars, map_append, append_assoc]
    rfl

theorem zeroLoop_spec {scale : Int} {temp : Temp} (hscale : -127 ≤ scale) (h : temp.chars ≠ []) :
    ∃ temp', zeroLoop scale temp = .ok temp' ∧
      temp'.chars = replicate ((-scale).toNat + 1 - temp.chars.length) 48 ++ temp.chars := by
  fun_induction zeroLoop scale temp with
  | case1 temp hle hlt ih =>
    obtain ⟨temp', hloop, hchars⟩ := ih (cons_ne_nil _ _)
    refine ⟨temp', hloop, ?_⟩
    have hcount : (-scale).toNat + 1 - temp.chars.length =
        (-scale).toNat + 1 - (temp.chars.length + 1) + 1 := by omega
    rw [hchars, hcount, replicate_succ', append_assoc]
    rfl
  | case2 temp hle hlt =>
    omega
  | case3 temp hgt =>
    have := length_pos_of_ne_nil h
    refine ⟨temp, rfl, ?_⟩
    rw [show (-scale).toNat + 1 - temp.chars.length = 0 by omega]
    rfl

theorem zeroLoop_outside (temp : Temp) : zeroLoop (-128) temp = .error .outside := by
  generalize hscale : (-128 : Int) = scale
  fun_induction zeroLoop scale temp with
  | case1 temp hle hlt ih => exact ih
  | case2 => rfl
  | case3 temp hgt =>
    have := temp.length_le
    omega

theorem copyLoop_eq (cs p : List UInt8) (q : Cursor UInt8) :
    copyLoop cs.length q (cs ++ p) = inside (q.puts cs) >>= fun q => .ok (q, p) := by
  induction cs generalizing q with
  | nil => rfl
  | cons c cs ih =>
    rw [Cursor.puts, inside_bind, bind_assoc, cons_append, length_cons, copyLoop]
    simp [ih]

theorem padLoop_eq (k : Nat) (q : Cursor UInt8) :
    padLoop k q = inside (q.puts (replicate k 48)) := by
  induction k generalizing q with
  | zero => rfl
  | succ k ih =>
    rw [replicate_succ, Cursor.puts, inside_bind, padLoop]
    simp [ih]

theorem formatNumber_eq {scale : Int} {temp : Temp} (h : scale < 0 → 0 ≤ temp.chars.length + scale)
    (q : Cursor UInt8) :
    formatNumber scale temp q = inside (q.puts
      (temp.chars.take (temp.chars.length - (-scale).toNat) ++
      if scale < 0 then point :: temp.chars.drop (temp.chars.length - (-scale).toNat) else
        [])) := by
  have hone : ∀ (q : Cursor UInt8) cs p, copyLoop cs.length q (cs ++ p) >>= (fun r => pure r.1) =
      inside (q.puts cs) := fun q cs p => by
    rw [copyLoop_eq]
    cases q.puts cs <;> rfl
  unfold formatNumber
  split_ifs with hneg hlt hlt
  · omega
  · have := hone q temp.chars []
    rw [append_nil] at this
    rw [show (-scale).toNat = 0 by omega, Nat.sub_zero, take_length, append_nil]
    exact this
  · have hcount := h hlt
    generalize hk : temp.chars.length - (-scale).toNat = k
    have htake : (temp.chars.length + scale).toNat = (temp.chars.take k).length := by
      rw [length_take]
      omega
    have hdrop : (-scale).toNat = (temp.chars.drop k).length := by
      rw [length_drop]
      omega
    have hcopy := copyLoop_eq (temp.chars.take k) (temp.chars.drop k) q
    have hrest := fun q => hone q (temp.chars.drop k) []
    rw [take_append_drop] at hcopy
    simp only [append_nil] at hrest
    rw [Cursor.puts_append, inside_bind, htake, hdrop, hcopy, bind_assoc]
    congr 1
    funext q
    change (inside (q.put point) >>= _) = _
    rw [Cursor.puts, inside_bind]
    congr 1
    funext q
    exact hrest q
  · omega

def Dsc.Fits (dst : Dsc) (length : Nat) : Prop :=
  match dst.dtype with
  | .text => length ≤ dst.length
  | .cstring => length + 1 ≤ dst.length
  | .varying => length + 2 ≤ dst.length

instance (dst : Dsc) (length : Nat) : Decidable (dst.Fits length) := by
  unfold Dsc.Fits
  split <;> infer_instance

def Dsc.stored (dst : Dsc) (text : List UInt8) : List UInt8 :=
  match dst.dtype with
  | .text => text ++ List.replicate (dst.length - text.length) dst.pad
  | .cstring => text ++ 0 :: dst.address.drop (text.length + 1)
  | .varying => [UInt8.ofNat text.length, UInt8.ofNat (text.length / 2 ^ 8)] ++ text ++
      dst.address.drop (2 + text.length)

def Dsc.HasCount (dst : Dsc) : Prop := dst.dtype = .varying → 2 ≤ dst.length

def Dsc.start (dst : Dsc) : Nat := if dst.dtype = .varying then 2 else 0

section Destination

variable {dst : Dsc} {text : List UInt8}

theorem refuses_iff (hdst : dst.HasCount) : dst.refuses text.length = true ↔ ¬dst.Fits
    text.length := by
  have hlt : dst.length < 2 ^ 16 := dst.length_lt
  unfold Dsc.refuses Dsc.Fits
  cases hdtype : dst.dtype with
  | text => simp
  | cstring =>
    simp only [decide_eq_true_eq]
    omega
  | varying =>
    have hle := hdst hdtype
    have hwrap : dst.varyingLength = dst.length - 2 := by
      unfold Dsc.varyingLength
      omega
    simp
    omega

theorem Dsc.Fits.start_add_le (h : dst.Fits text.length) :
    dst.start + text.length ≤ dst.address.length := by
  unfold Dsc.Fits at h
  unfold Dsc.start
  cases hdtype : dst.dtype <;> rw [hdtype] at h <;> simp [Dsc.length] at h ⊢ <;> omega

theorem finish_eq (h : dst.Fits text.length) :
    (inside ((Cursor.mk dst.address dst.start).puts text) >>= finish dst text.length) =
      .ok (dst.stored text) := by
  have hle := h.start_add_le
  rw [Cursor.puts_eq_some hle]
  change finish dst text.length _ = _
  unfold Dsc.Fits Dsc.length at h
  unfold finish Dsc.stored Dsc.start
  cases hdtype : dst.dtype with
  | text =>
    simp only [reduceCtorEq, if_false, take_zero, nil_append, Nat.zero_add]
    rw [Cursor.puts_eq_some (by simp [Dsc.length])]
    simp only [inside, pure, Except.pure, bind, Except.bind]
    rw [take_left, drop_of_length_le (by simp [Dsc.length]), append_nil]
  | cstring =>
    rw [hdtype] at h
    dsimp only at h ⊢
    rw [← Cursor.puts_singleton, Cursor.puts_eq_some (by simp; omega)]
    simp only [inside, pure, Except.pure, bind, Except.bind]
    simp
  | varying =>
    rw [hdtype] at h
    dsimp only at h ⊢
    rw [Cursor.puts_eq_some (by simp; omega)]
    simp only [inside, pure, Except.pure, bind, Except.bind]
    obtain ⟨a, b, rest, haddress⟩ : ∃ a b rest, dst.address = a :: b :: rest := by
      match hd : dst.address with
      | [] => simp [hd] at h
      | [_] => simp [hd] at h
      | a :: b :: rest => exact ⟨a, b, rest, rfl⟩
    simp [haddress]

end Destination

section Text

variable {n scale : Int}

theorem magnitude_eq (h : minSint64 ≤ n) (h' : n ≤ maxSint64) : magnitude n = n.natAbs := by
  unfold minSint64 at h
  unfold maxSint64 at h'
  unfold magnitude sint64
  split_ifs <;> omega

theorem zeroLoop_digitLoop (hscale : -127 ≤ scale) (h : minSint64 ≤ n) (h' : n ≤ maxSint64) :
    ∃ temp, (digitLoop .empty (magnitude n) >>= zeroLoop scale) = .ok temp ∧
      temp.chars = (leadingDigits n.natAbs (-scale).toNat).map digitByte := by
  have hlen : (digits n.natAbs).length ≤ 18 + 1 := length_digits_le (by
    unfold minSint64 at h
    unfold maxSint64 at h'
    omega)
  rw [magnitude_eq h h']
  obtain ⟨temp, hdigits, hchars⟩ := @digitLoop_spec n.natAbs .empty (by simp [Temp.empty]; omega)
  have hne : temp.chars ≠ [] := by
    rw [hchars]
    simp [digits_ne_nil]
  obtain ⟨temp', hzeros, hchars'⟩ := zeroLoop_spec hscale hne
  refine ⟨temp', by rw [hdigits]; exact hzeros, ?_⟩
  rw [hchars', hchars, leadingDigits, map_append, map_digitByte_zeros]
  simp [Temp.empty]

theorem text_ofScaled (n scale : Int) {cs : List UInt8}
    (hcs : cs = (leadingDigits n.natAbs (-scale).toNat).map digitByte) :
    (ofScaled n scale).text = (if n < 0 then [minus] else []) ++
      (cs.take (cs.length - (-scale).toNat) ++
        if scale < 0 then point :: cs.drop (cs.length - (-scale).toNat) else []) ++
      replicate scale.toNat 48 := by
  have hsign : (ofScaled n scale).sign.text = if n < 0 then [minus] else [] := by
    unfold ofScaled
    split_ifs <;> rfl
  rw [Literal.text, hsign]
  simp only [append_assoc]
  congr 1
  unfold ofScaled Literal.exponentText
  dsimp only
  by_cases hneg : scale < 0
  · rw [if_pos hneg, if_pos hneg, show scale.toNat = 0 by omega]
    simp [hcs, Literal.fractionText, point]
  · rw [if_neg hneg, if_neg hneg, show (-scale).toNat = 0 by omega]
    simp only [Nat.sub_zero, take_length, Literal.fractionText, append_nil, hcs,
      nil_append, map_append, map_digitByte_zeros, show (-scale).toNat = 0 by omega]

theorem length_text_ofScaled {cs : List UInt8}
    (hcs : cs = (leadingDigits n.natAbs (-scale).toNat).map digitByte) :
    (ofScaled n scale).text.length =
      cs.length + (if n ≥ 0 then 0 else 1) + (if scale < 0 then 1 else 0) + scale.toNat := by
  rw [text_ofScaled n scale hcs]
  split_ifs <;> simp <;> omega

theorem integerToText_eq_ite (dst : Dsc) (hscale : -127 ≤ scale) (h : minSint64 ≤ n)
    (h' : n ≤ maxSint64) :
    integerToText n scale dst = if dst.refuses (ofScaled n scale).text.length
      then .error .conversionError
      else inside ((Cursor.mk dst.address dst.start).puts (ofScaled n scale).text) >>=
        finish dst (ofScaled n scale).text.length := by
  obtain ⟨temp, htemp, hcs⟩ := zeroLoop_digitLoop hscale h h'
  have hlen := length_text_ofScaled hcs
  have htext := text_ofScaled n scale hcs
  have hpos : scale < 0 → 0 ≤ temp.chars.length + scale := by
    have := lt_length_leadingDigits n.natAbs (-scale).toNat
    rw [hcs, length_map]
    omega
  have hsign : ∀ (q : Cursor UInt8) (k : Cursor UInt8 → Except Fault (List UInt8)),
      (inside (q.puts (if n < 0 then [minus] else [])) >>= k) =
        if (if n ≥ 0 then 0 else 1) = 1 then inside (q.put minus) >>= k else pure q >>= k := by
    intro q k
    by_cases hneg : n < 0
    · rw [if_pos hneg, if_neg (by omega : ¬n ≥ 0), if_pos rfl, Cursor.puts_singleton]
    · rw [if_neg hneg, if_pos (by omega : n ≥ 0), if_neg (by decide)]
      rfl
  unfold integerToText
  rw [← bind_assoc, htemp]
  change (if dst.refuses _ then _ else _) = _
  rw [← hlen]
  congr 1
  rw [htext, Cursor.puts_append, Cursor.puts_append, inside_bind, inside_bind, bind_assoc,
    bind_assoc, hsign, ← htext]
  simp only [formatNumber_eq hpos, padLoop_eq]
  rfl

theorem integerToText_eq {dst : Dsc} (hdst : dst.HasCount) (hscale : -127 ≤ scale)
    (h : minSint64 ≤ n) (h' : n ≤ maxSint64) :
    integerToText n scale dst = if dst.Fits (ofScaled n scale).text.length
      then .ok (dst.stored (ofScaled n scale).text) else .error .conversionError := by
  rw [integerToText_eq_ite dst hscale h h']
  by_cases hfits : dst.Fits (ofScaled n scale).text.length
  · rw [if_neg (fun hrefuses => (refuses_iff hdst).1 hrefuses hfits), if_pos hfits, finish_eq hfits]
  · rw [if_pos ((refuses_iff hdst).2 hfits), if_neg hfits]

theorem length_text_ofScaled_le (hscale : -127 ≤ scale) (hscale' : scale ≤ 127) (h : minSint64 ≤ n)
    (h' : n ≤ maxSint64) : (ofScaled n scale).text.length ≤ 256 := by
  obtain ⟨temp, -, hcs⟩ := zeroLoop_digitLoop hscale h h'
  have := temp.length_le
  rw [length_text_ofScaled hcs]
  split_ifs <;> omega

theorem integerToText_outside {dst : Dsc} (hdst : ¬dst.HasCount) (hscale : -127 ≤ scale)
    (hscale' : scale ≤ 127) (h : minSint64 ≤ n) (h' : n ≤ maxSint64) :
    integerToText n scale dst = .error .outside := by
  obtain ⟨hdtype, hlt⟩ := Classical.not_imp.1 hdst
  have hle := length_text_ofScaled_le hscale hscale' h h'
  have hne : (ofScaled n scale).text ≠ [] := by
    have hpos := lt_length_leadingDigits n.natAbs (-scale).toNat
    rw [text_ofScaled n scale rfl]
    intro hnil
    have hlen := congrArg List.length hnil
    simp only [length_append, length_take, length_map, length_nil] at hlen
    omega
  have hwrap : dst.refuses (ofScaled n scale).text.length = false := by
    simp only [Dsc.refuses, hdtype]
    refine decide_eq_false ?_
    unfold Dsc.varyingLength
    omega
  have hshort : dst.address.length < dst.start + (ofScaled n scale).text.length := by
    simp only [Dsc.start, hdtype, if_true]
    unfold Dsc.length at hlt
    omega
  rw [integerToText_eq_ite dst hscale h h', hwrap, if_neg Bool.false_ne_true,
    Cursor.puts_eq_none hne hshort]
  rfl

theorem integerToText_least (dst : Dsc) (h : minSint64 ≤ n) (h' : n ≤ maxSint64) :
    integerToText n (-128) dst = .error .outside := by
  have hlen : (digits n.natAbs).length ≤ 18 + 1 := length_digits_le (by
    unfold minSint64 at h
    unfold maxSint64 at h'
    omega)
  obtain ⟨temp, hdigits, -⟩ := @digitLoop_spec n.natAbs .empty (by simp [Temp.empty]; omega)
  unfold integerToText
  rw [magnitude_eq h h', hdigits]
  change (zeroLoop (-128) temp >>= _) = _
  rw [zeroLoop_outside]
  rfl

end Text

end Firebird.Jrd.Cvt
