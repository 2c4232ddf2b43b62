import Firebird.Jrd.SortKey

/-!
# Keys in their mangled form

What `diddle_key` makes of the bytes of one key: the mangled form can be taken back, and has the
order of the key as longwords. Only a `SKD_quad` has not, since its halves stay where they are.
-/
namespace Firebird.Jrd.Sort

open Lib Memory Words List

variable {p q : List UInt8} {i : Nat} {key : SortKeyDef}

@[simp]
theorem length_flipBit (i : Nat) (p : List UInt8) : (flipBit i p).length = p.length :=
  length_modify _ _ _

theorem flipBit_flipBit (i : Nat) (p : List UInt8) : flipBit i (flipBit i p) = p := by
  rw [flipBit, flipBit, modify_modify_eq]
  have hid : (fun x : UInt8 => x ^^^ 0x80) ∘ (fun x : UInt8 => x ^^^ 0x80) = id := by
    funext x
    exact (UInt8.xor_assoc x 0x80 0x80).trans (by rw [UInt8.xor_self, UInt8.xor_zero]; rfl)
  rw [hid, modify_id]

theorem not_xor (x : UInt8) : ~~~ (x ^^^ 0x80) = ~~~ x ^^^ 0x80 := by
  have h : ∀ n : Fin 256, ~~~ (UInt8.ofFin n ^^^ 0x80) = ~~~ (UInt8.ofFin n) ^^^ 0x80 := by
    decide +kernel
  exact h x.toFin

theorem flipBit_complement (i : Nat) (p : List UInt8) :
    flipBit i (complement p) = complement (flipBit i p) := by
  rw [flipBit, flipBit, complement, complement]
  apply ext_getElem?
  intro j
  simp only [getElem?_modify, getElem?_map]
  cases p[j]? with
  | none => rfl
  | some x =>
    simp only [Option.map_some]
    split
    · exact congrArg some (not_xor x).symm
    · rfl

@[simp]
theorem length_swapLongs (p : List UInt8) : (swapLongs p).length = p.length := by
  simp only [swapLongs, length_append, length_drop, length_take]
  omega

theorem swapLongs_swapLongs (h : p.length = 8) : swapLongs (swapLongs p) = p := by
  have hlen : (p.drop 4).length = 4 := by simp [h]
  rw [swapLongs, swapLongs, drop_left' hlen, take_left' hlen, take_append_drop]

theorem swapLongs_complement (p : List UInt8) :
    swapLongs (complement p) = complement (swapLongs p) := by
  simp [swapLongs, complement]

theorem reverseLongs_complement (p : List UInt8) :
    reverseLongs (complement p) = complement (reverseLongs p) := by
  fun_induction reverseLongs p with
  | case1 a b c d p ih =>
    rw [complement] at ih ⊢
    simp only [map_cons, reverseLongs, ih]
    rfl
  | case2 p h =>
    rw [reverseLongs.eq_2]
    intro a b c d r heq
    obtain ⟨a', p₁, rfl, rfl, h₁⟩ := map_eq_cons_iff.1 heq
    obtain ⟨b', p₂, rfl, rfl, h₂⟩ := map_eq_cons_iff.1 h₁
    obtain ⟨c', p₃, rfl, rfl, h₃⟩ := map_eq_cons_iff.1 h₂
    obtain ⟨d', p₄, rfl, rfl, h₄⟩ := map_eq_cons_iff.1 h₃
    exact h a' b' c' d' p₄ rfl

/-! ## There and back -/

def complemented (r : List UInt8 × Bool) : List UInt8 := if r.2 then complement r.1 else r.1

def negative (i : Nat) (p : List UInt8) : Bool := p.getD i 0 >>> 7 == 1

theorem mangleFloat_eq (direction descending : Bool) (i : Nat) (p : List UInt8) :
    mangleFloat direction descending i p =
      if xor (if direction || !descending then direction else true) (negative i p) then
        (flipBit i p, descending)
      else (p, !descending) := rfl

theorem shiftRight_flip (x : UInt8) : (x ^^^ 0x80) >>> 7 == 1 ↔ ¬ (x >>> 7 == 1) := by
  have h : ∀ n : Fin 256, (UInt8.ofFin n ^^^ 0x80) >>> 7 == 1 ↔ ¬ (UInt8.ofFin n >>> 7 == 1) := by
    decide +kernel
  exact h x.toFin

theorem shiftRight_not (x : UInt8) : (~~~ x) >>> 7 == 1 ↔ ¬ (x >>> 7 == 1) := by
  have h : ∀ n : Fin 256, (~~~ UInt8.ofFin n) >>> 7 == 1 ↔ ¬ (UInt8.ofFin n >>> 7 == 1) := by
    decide +kernel
  exact h x.toFin

theorem negative_flipBit (h : i < p.length) : negative i (flipBit i p) = !negative i p := by
  rw [Bool.eq_iff_iff, Bool.not_eq_true']
  simp only [negative, flipBit, getD_eq_getElem?_getD, getElem?_modify_eq, getElem?_eq_getElem h]
  rw [← Bool.not_eq_true]
  exact shiftRight_flip p[i]

theorem negative_complement (h : i < p.length) : negative i (complement p) = !negative i p := by
  rw [Bool.eq_iff_iff, Bool.not_eq_true']
  simp only [negative, complement, getD_eq_getElem?_getD, getElem?_map, getElem?_eq_getElem h]
  rw [← Bool.not_eq_true]
  exact shiftRight_not p[i]

theorem mangleFloat_true (descending : Bool) (i : Nat) (p : List UInt8) :
    mangleFloat true descending i p =
      if negative i p then (p, !descending) else (flipBit i p, descending) := by
  rw [mangleFloat_eq]
  cases negative i p <;> rfl

theorem mangleFloat_false (descending : Bool) (i : Nat) (p : List UInt8) :
    mangleFloat false descending i p =
      if negative i p = descending then (p, !descending) else (flipBit i p, descending) := by
  rw [mangleFloat_eq]
  cases negative i p <;> cases descending <;> rfl

theorem mangleFloat_mangleFloat (descending : Bool) (h : i < p.length) :
    complemented (mangleFloat false descending i (complemented (mangleFloat true descending i p))) =
      p := by
  have hflip : i < (flipBit i p).length := by simpa using h
  rw [mangleFloat_true]
  cases hneg : negative i p with
  | true =>
    cases descending with
    | true => simp [complemented, mangleFloat_false, hneg]
    | false => simp [complemented, mangleFloat_false, negative_complement h, hneg]
  | false =>
    cases descending with
    | true =>
      simp [complemented, mangleFloat_false, negative_complement hflip, negative_flipBit h, hneg,
        flipBit_complement, flipBit_flipBit]
    | false =>
      simp [complemented, mangleFloat_false, negative_flipBit h, hneg, flipBit_flipBit]

theorem length_complemented (r : List UInt8 × Bool) : (complemented r).length = r.1.length := by
  rw [complemented]
  split
  · exact length_complement r.1
  · rfl

theorem length_mangleFloat (direction descending : Bool) (i : Nat) (p : List UInt8) :
    (mangleFloat direction descending i p).1.length = p.length := by
  rw [mangleFloat_eq]
  split_ifs <;> simp

theorem SkdType.length_mangle (dtype : SkdType) (direction descending : Bool) (p : List UInt8) :
    (dtype.mangle direction descending p).1.length = p.length := by
  cases dtype <;> cases direction <;>
    simp [SkdType.mangle, length_mangleFloat, length_reverseLongs]

/-- The types of eight bytes, and of four, that look at more than one byte at once. -/
def SkdType.Fits (dtype : SkdType) (p : List UInt8) : Prop :=
  match dtype with
  | .int64 | .double => p.length = 8
  | .float => p.length = 4
  | _ => True

theorem SkdType.mangle_mangle (dtype : SkdType) (descending : Bool) (h : dtype.Fits p) :
    complemented (dtype.mangle false descending (complemented (dtype.mangle true descending p))) =
      p := by
  have hflip : ∀ j, complemented (flipBit j (complemented (flipBit j p, descending)), descending) =
      p := by
    intro j
    cases descending <;> simp [complemented, flipBit_complement, flipBit_flipBit]
  have hreverse : complemented (reverseLongs (complemented (reverseLongs p, descending)),
      descending) = p := by
    cases descending <;> simp [complemented, reverseLongs_complement]
  have hsame : complemented (complemented (p, descending), descending) = p := by
    cases descending <;> simp [complemented]
  cases dtype with
  | long => exact hflip 3
  | ulong => exact hsame
  | short => exact hflip 1
  | ushort => exact hsame
  | text => exact hreverse
  | float =>
    have hlen : p.length = 4 := h
    exact mangleFloat_mangleFloat descending (by omega)
  | double =>
    have hlen : p.length = 8 := h
    have hswap : ∀ r : List UInt8 × Bool, r.1.length = 8 →
        swapLongs (complemented (swapLongs r.1, r.2)) = complemented r := by
      rintro ⟨r, c⟩ hr
      cases c <;> simp [complemented, swapLongs_complement, swapLongs_swapLongs hr]
    simp only [SkdType.mangle, if_true]
    rw [hswap _ (by rw [length_mangleFloat, hlen])]
    exact mangleFloat_mangleFloat descending (by omega)
  | quad => exact hflip 7
  | timestamp1 => exact hflip 3
  | bytes => exact hreverse
  | varying => exact hreverse
  | cstring => exact hreverse
  | sqlTime => exact hflip 3
  | sqlDate => exact hflip 3
  | timestamp2 => exact hflip 3
  | int64 =>
    have hlen : (flipBit 7 p).length = 8 := by rw [length_flipBit]; exact h
    simp only [SkdType.mangle]
    cases descending <;> simp [complemented, swapLongs_complement, swapLongs_swapLongs hlen,
      flipBit_complement, flipBit_flipBit]

theorem SkdType.mangle_descending (dtype : SkdType) (p : List UInt8) :
    complemented (dtype.mangle true true p) =
      complement (complemented (dtype.mangle true false p)) := by
  cases dtype <;> simp only [SkdType.mangle]
  case float => cases h : negative 3 p <;> simp [mangleFloat_true, complemented, h]
  case double =>
    cases h : negative 7 p <;> simp [mangleFloat_true, complemented, h]
  all_goals rfl

theorem compare_of_eq_add {u v : Nat} {x y c : Int} (hu : (u : Int) = x + c)
    (hv : (v : Int) = y + c) : compare u v = compare x y := by
  rcases Int.lt_trichotomy x y with h | rfl | h
  · rw [compare_lt_iff_lt.2 h, compare_lt_iff_lt.2 (by omega)]
  · rw [compare_eq_iff_eq.2 rfl, compare_eq_iff_eq.2 (by omega)]
  · rw [compare_gt_iff_gt.2 h, compare_gt_iff_gt.2 (by omega)]

theorem exists_concat (h : p.length = i + 1) : ∃ p₀ a, p = p₀ ++ [a] ∧ p₀.length = i := by
  rcases eq_nil_or_concat p with rfl | ⟨p₀, a, rfl⟩
  · simp at h
  · rw [concat_eq_append] at h ⊢
    exact ⟨p₀, a, rfl, by simpa using h⟩

theorem flipBit_concat (p : List UInt8) (a : UInt8) :
    flipBit p.length (p ++ [a]) = p ++ [a ^^^ 0x80] := by
  induction p with
  | nil => rfl
  | cons b p ih => simpa [flipBit] using ih

theorem negative_concat (p : List UInt8) (a : UInt8) :
    negative p.length (p ++ [a]) = true ↔ ¬ a.toNat < 128 := by
  have h : ∀ n : Fin 256, (UInt8.ofFin n >>> 7 == 1) = true ↔ ¬ n.val < 128 := by
    decide +kernel
  rw [negative, getD_eq_getElem?_getD, getElem?_concat_length, Option.getD_some]
  exact h a.toFin

theorem le_flipBit (h : p.length = i + 1) :
    (le (flipBit i p) : Int) = signed p + 128 * 256 ^ i := by
  obtain ⟨p₀, a, rfl, rfl⟩ := exists_concat h
  rw [flipBit_concat, le_flip]

theorem le_mangleFloat (h : p.length = i + 1) :
    (le (complemented (mangleFloat true false i p)) : Int) = signMagnitude p + 128 * 256 ^ i := by
  obtain ⟨p₀, a, rfl, rfl⟩ := exists_concat h
  rw [← le_magnitude, mangleFloat_true]
  by_cases hneg : negative p₀.length (p₀ ++ [a]) = true
  · rw [if_pos hneg, if_neg ((negative_concat p₀ a).1 hneg)]
    rfl
  · rw [if_neg hneg, if_pos (by simpa using (negative_concat p₀ a).not.1 hneg), flipBit_concat]
    rfl

theorem compareLongs_long (hp : p.length = 4) (hq : q.length = 4) :
    compareLongs (flipBit 3 p) (flipBit 3 q) = compare (signed p) (signed q) := by
  rw [compareLongs_four (by simpa using hp) (by simpa using hq)]
  exact compare_of_eq_add (le_flipBit hp) (le_flipBit hq)

theorem compareLongs_int64 (hp : p.length = 8) (hq : q.length = 8) :
    compareLongs (swapLongs (flipBit 7 p)) (swapLongs (flipBit 7 q)) =
      compare (signed p) (signed q) := by
  rw [swapLongs, swapLongs, compareLongs_eight (by simpa using hp) (by simpa using hq)]
  exact compare_of_eq_add (le_flipBit hp) (le_flipBit hq)

theorem compareLongs_short (hp : p.length = 4) (hq : q.length = 4) (hpz : ∀ b ∈ p.drop 2, b = 0)
    (hqz : ∀ b ∈ q.drop 2, b = 0) :
    compareLongs (flipBit 1 p) (flipBit 1 q) =
      compare (signed (p.take 2)) (signed (q.take 2)) := by
  have hword : ∀ r : List UInt8, r.length = 4 → (∀ b ∈ r.drop 2, b = 0) →
      le (flipBit 1 r) = le (flipBit 1 (r.take 2)) := by
    intro r hr hz
    match r, hr with
    | [a, b, c, d], _ =>
      obtain ⟨rfl, rfl⟩ : c = 0 ∧ d = 0 := by simpa using hz
      simp [flipBit]
  rw [compareLongs_four (by simpa using hp) (by simpa using hq), hword p hp hpz, hword q hq hqz]
  exact compare_of_eq_add (le_flipBit (by simp [hp])) (le_flipBit (by simp [hq]))

theorem compareLongs_float (hp : p.length = 4) (hq : q.length = 4) :
    compareLongs (complemented (mangleFloat true false 3 p))
      (complemented (mangleFloat true false 3 q)) =
        compare (signMagnitude p) (signMagnitude q) := by
  have hlen : ∀ r : List UInt8, r.length = 4 →
      (complemented (mangleFloat true false 3 r)).length = 4 := by
    intro r hr
    rw [length_complemented, length_mangleFloat, hr]
  rw [compareLongs_four (hlen p hp) (hlen q hq)]
  exact compare_of_eq_add (le_mangleFloat hp) (le_mangleFloat hq)

theorem compareLongs_double (hp : p.length = 8) (hq : q.length = 8) :
    compareLongs (complemented (SkdType.mangle .double true false p))
      (complemented (SkdType.mangle .double true false q)) =
        compare (signMagnitude p) (signMagnitude q) := by
  have hlen : ∀ r : List UInt8, r.length = 8 →
      (complemented (mangleFloat true false 7 r)).length = 8 := by
    intro r hr
    rw [length_complemented, length_mangleFloat, hr]
  have hswap : ∀ r : List UInt8, complemented (SkdType.mangle .double true false r) =
      swapLongs (complemented (mangleFloat true false 7 r)) := by
    intro r
    simp only [SkdType.mangle, if_true, complemented]
    split
    · rw [swapLongs_complement]
    · rfl
  rw [hswap, hswap, swapLongs, swapLongs, compareLongs_eight (hlen p hp) (hlen q hq)]
  exact compare_of_eq_add (le_mangleFloat hp) (le_mangleFloat hq)

theorem compareLongs_timestamp (hp : p.length = 8) (hq : q.length = 8) :
    compareLongs (flipBit 3 p) (flipBit 3 q) =
      (compare (signed (p.take 4)) (signed (q.take 4))).then
        (compare (le (p.drop 4)) (le (q.drop 4))) := by
  have hsplit : ∀ r : List UInt8, r.length = 8 → flipBit 3 r = flipBit 3 (r.take 4) ++ r.drop
    4 := by
    intro r hr
    match r, hr with
    | [a, b, c, d, e, f, g, h], _ => rfl
  have htake : ∀ r : List UInt8, r.length = 8 → (r.take 4).length = 4 ∧ (r.drop 4).length = 4 := by
    intro r hr
    simp [hr]
  obtain ⟨htp, hdp⟩ := htake p hp
  obtain ⟨htq, hdq⟩ := htake q hq
  rw [hsplit p hp, hsplit q hq, compareLongs_append (by simp [htp]) (by rw [length_flipBit,
    length_flipBit, htp, htq]), compareLongs_long htp htq, compareLongs_four hdp hdq]

theorem compareLex_self (p : List UInt8) : List.compareLex compare p p = .eq := by
  induction p with
  | nil => exact List.compareLex_nil_nil
  | cons a p ih =>
    rw [List.compareLex_cons_cons, ih, Std.ReflOrd.compare_self]
    rfl

theorem take_strlen (p : List UInt8) : p.take (strlen p) = p.takeWhile (· ≠ 0) :=
  (prefix_iff_eq_take.1 ( takeWhile_prefix _)).symm

theorem compareLex_padding {n : Nat} (h : p.length = q.length) (hp : ∀ b ∈ p.drop n, b = 0)
    (hq : ∀ b ∈ q.drop n, b = 0) :
    List.compareLex compare p q = List.compareLex compare (p.take n) (q.take n) := by
  have hsame : p.drop n = q.drop n := by
    rw [eq_replicate_of_mem hp, eq_replicate_of_mem hq, length_drop, length_drop, h]
  conv_lhs => rw [← take_append_drop n p, ← take_append_drop n q]
  rw [compareLex_append (by simp [h]), hsame, compareLex_self]
  cases List.compareLex compare (p.take n) (q.take n) <;> rfl

theorem compareLex_fill {s t : List UInt8} {pad : UInt8} {j k : Nat}
    (h : s.length + j = t.length + k) :
    List.compareLex compare (s ++ List.replicate j pad) (t ++ List.replicate k pad) =
      Padded.padCompare pad s t := by
  rw [← @Padded.padCompare_eq_compareLex _ _ pad _ _ (by simpa using h),
    Padded.padCompare_append_left, Padded.padCompare_append_right]

namespace SortKeyDef

/-- The bytes of a key when the length of a string is zapped. -/
def stashed (key : SortKeyDef) (p : List UInt8) : List UInt8 :=
  match key.dtype with
  | .varying => 0 :: 0 :: ((p.drop 2).take (le (p.take 2)) ++
      List.replicate (key.size - 2 - le (p.take 2)) key.fillChar)
  | .cstring => p.take (strlen p) ++ List.replicate (key.size - strlen p) key.fillChar
  | _ => p

def mangled (key : SortKeyDef) (p : List UInt8) : List UInt8 :=
  complemented (key.dtype.mangle true key.descending (key.stashed p))

theorem length_le_size (key : SortKeyDef) : key.length ≤ key.size := by
  rw [size, roundup]
  omega

theorem four_dvd_size (key : SortKeyDef) : 4 ∣ key.size := by
  rw [size, roundup]
  omega

theorem size_of_emitted (hem : key.Emitted) :
    (key.dtype = .varying → 2 ≤ key.size) ∧ (key.dtype = .short → key.size = 4) ∧
      (key.dtype = .int64 ∨ key.dtype = .double ∨ key.dtype = .timestamp2 ∨ key.dtype = .quad →
        key.length = 8 ∧ key.size = 8) ∧
      (key.dtype = .long ∨ key.dtype = .float ∨ key.dtype = .sqlDate ∨ key.dtype = .sqlTime →
        key.length = 4 ∧ key.size = 4) := by
  have hle := key.length_le_size
  rw [Emitted] at hem
  rw [size, roundup] at hle ⊢
  refine ⟨fun h => ?_, fun h => ?_, fun h => ?_, fun h => ?_⟩
  · rw [h] at hem
    omega
  · rw [h] at hem
    omega
  · rcases h with h | h | h | h <;> rw [h] at hem <;> dsimp only at hem <;> omega
  · rcases h with h | h | h | h <;> rw [h] at hem <;> dsimp only at hem <;> omega

theorem length_stashed (hem : key.Emitted) (hp : p.length = key.size) :
    (key.stashed p).length = key.size := by
  have hvary := (size_of_emitted hem).1
  rw [stashed]
  split
  · rename_i hd
    have htwo := hvary hd
    simp only [length_cons, length_append, length_take, length_drop, length_replicate]
    omega
  · simp only [length_append, length_take, length_replicate]
    omega
  · exact hp

theorem length_mangled (hem : key.Emitted) (hp : p.length = key.size) :
    (key.mangled p).length = key.size := by
  rw [mangled, length_complemented, SkdType.length_mangle, length_stashed hem hp]

theorem compareLongs_ascending (hem : key.Emitted) (hquad : key.dtype ≠ .quad)
    (hp : p.length = key.size) (hq : q.length = key.size) (hpp : key.Proper p)
    (hqp : key.Proper q) :
    compareLongs (complemented (key.dtype.mangle true false (key.stashed p)))
      (complemented (key.dtype.mangle true false (key.stashed q))) = key.natural p q := by
  obtain ⟨hvary, hshort, height, hfour⟩ := size_of_emitted hem
  have hdvd := key.four_dvd_size
  cases hd : key.dtype with
  | ulong => simp [Emitted, hd] at hem
  | ushort => simp [Emitted, hd] at hem
  | bytes => simp [Emitted, hd] at hem
  | timestamp1 => simp [Emitted, hd] at hem
  | quad => exact absurd hd hquad
  | long =>
    obtain ⟨hlen, hsize⟩ := hfour (.inl hd)
    simp only [stashed, natural, hd, SkdType.mangle, complemented, Bool.false_eq_true, if_false]
    rw [compareLongs_long (by omega) (by omega), take_of_length_le (by omega),
      take_of_length_le (by omega)]
  | short =>
    have hlen : key.length = 2 := by simpa [Emitted, hd] using hem
    have hsize := hshort hd
    obtain ⟨hpz, -⟩ := hpp
    obtain ⟨hqz, -⟩ := hqp
    rw [hlen] at hpz hqz
    simp only [stashed, natural, hd, hlen]
    exact compareLongs_short (by omega) (by omega) hpz hqz
  | text =>
    simp only [stashed, natural, hd, SkdType.mangle, complemented, Bool.false_eq_true, if_false]
    rw [compareLongs_reverseLongs (hp ▸ hdvd) (by omega)]
    exact compareLex_padding (by omega) hpp.1 hqp.1
  | float =>
    obtain ⟨hlen, hsize⟩ := hfour (.inr (.inl hd))
    simp only [stashed, natural, hd]
    exact compareLongs_float (by omega) (by omega)
  | double =>
    obtain ⟨hlen, hsize⟩ := height (.inr (.inl hd))
    simp only [stashed, natural, hd]
    exact compareLongs_double (by omega) (by omega)
  | varying =>
    have hlp := length_stashed hem hp
    have hlq := length_stashed hem hq
    simp only [stashed, natural, string, hd, SkdType.mangle, complemented, Bool.false_eq_true,
      if_false] at hlp hlq ⊢
    rw [compareLongs_reverseLongs (by rw [hlp]; exact hdvd) (by omega), List.compareLex_cons_cons,
      List.compareLex_cons_cons, compareLex_fill]
    · rfl
    · simp only [length_take, length_drop]
      omega
  | cstring =>
    have hlp := length_stashed hem hp
    have hlq := length_stashed hem hq
    simp only [stashed, natural, string, hd, SkdType.mangle, complemented, Bool.false_eq_true,
      if_false] at hlp hlq ⊢
    rw [compareLongs_reverseLongs (by rw [hlp]; exact hdvd) (by omega), compareLex_fill,
      take_strlen, take_strlen]
    simp only [length_take]
    omega
  | sqlTime =>
    obtain ⟨hlen, hsize⟩ := hfour (.inr (.inr (.inr hd)))
    simp only [stashed, natural, hd, SkdType.mangle, complemented, Bool.false_eq_true, if_false]
    rw [compareLongs_long (by omega) (by omega), take_of_length_le (by omega),
      take_of_length_le (by omega)]
  | sqlDate =>
    obtain ⟨hlen, hsize⟩ := hfour (.inr (.inr (.inl hd)))
    simp only [stashed, natural, hd, SkdType.mangle, complemented, Bool.false_eq_true, if_false]
    rw [compareLongs_long (by omega) (by omega), take_of_length_le (by omega),
      take_of_length_le (by omega)]
  | timestamp2 =>
    obtain ⟨hlen, hsize⟩ := height (.inr (.inr (.inl hd)))
    simp only [stashed, natural, hd]
    exact compareLongs_timestamp (by omega) (by omega)
  | int64 =>
    obtain ⟨hlen, hsize⟩ := height (.inl hd)
    simp only [stashed, natural, hd, SkdType.mangle, complemented, Bool.false_eq_true, if_false,
      if_true]
    rw [compareLongs_int64 (by omega) (by omega), take_of_length_le (by omega),
      take_of_length_le (by omega)]

theorem compareLongs_mangled (hem : key.Emitted) (hquad : key.dtype ≠ .quad)
    (hp : p.length = key.size) (hq : q.length = key.size) (hpp : key.Proper p)
    (hqp : key.Proper q) : compareLongs (key.mangled p) (key.mangled q) = key.order p q := by
  have hasc := compareLongs_ascending hem hquad hp hq hpp hqp
  rw [order]
  cases hdesc : key.descending with
  | false =>
    rw [mangled, mangled, hdesc, hasc]
    rfl
  | true =>
    have hlen : ∀ r : List UInt8, r.length = key.size →
        (complemented (key.dtype.mangle true false (key.stashed r))).length = key.size := by
      intro r hr
      rw [length_complemented, SkdType.length_mangle, length_stashed hem hr]
    rw [mangled, mangled, hdesc, SkdType.mangle_descending, SkdType.mangle_descending,
      compareLongs_complement (by rw [hlen p hp]; exact key.four_dvd_size)
        (by rw [hlen p hp, hlen q hq]), hasc]
    rfl

theorem compareLongs_quad (hd : key.dtype = .quad) (hlen : key.length = 8) :
    compareLongs (key.mangled [1, 0, 0, 0, 0, 0, 0, 0]) (key.mangled [0, 0, 0, 0, 1, 0, 0, 0]) ≠
      key.order [1, 0, 0, 0, 0, 0, 0, 0] [0, 0, 0, 0, 1, 0, 0, 0] := by
  rw [mangled, mangled, order]
  simp only [stashed, natural, hd, hlen]
  cases key.descending <;> decide +kernel

theorem unmangle (hem : key.Emitted) (hp : p.length = key.size) :
    complemented (key.dtype.mangle false key.descending (key.mangled p)) = key.stashed p := by
  obtain ⟨-, -, height, hfour⟩ := size_of_emitted hem
  refine SkdType.mangle_mangle key.dtype key.descending ?_
  have hlen := length_stashed hem hp
  cases hd : key.dtype with
  | int64 => exact hlen.trans (height (.inl hd)).2
  | double => exact hlen.trans (height (.inr (.inl hd))).2
  | float => exact hlen.trans (hfour (.inr (.inl hd))).2
  | _ => trivial

theorem le_ushortBytes {n : Nat} (h : n < 65536) : le (ushortBytes n) = n := by
  simp only [ushortBytes, le, UInt8.toNat_ofNat']
  omega

theorem ushortBytes_le (h : p.length = 2) : ushortBytes (le p) = p := by
  match p, h with
  | [a, b], _ =>
    have ha := a.toNat_lt
    simp only [ushortBytes, le_cons, le_nil, Nat.mul_zero, Nat.add_zero]
    rw [show (a.toNat + 256 * b.toNat) / 256 = b.toNat by omega, UInt8.ofNat_toNat,
      show a.toNat + 256 * b.toNat = a.toNat + b.toNat * 256 by omega]
    congr 1
    apply UInt8.toNat_inj.1
    rw [UInt8.toNat_ofNat']
    omega

theorem getElem?_strlen (h : strlen p < p.length) : p[strlen p]? = some 0 := by
  induction p with
  | nil => simp at h
  | cons a p ih =>
    by_cases ha : a = 0
    · subst ha
      rfl
    · have hstr : strlen (a :: p) = strlen p + 1 := by simp [strlen, ha]
      rw [hstr] at h ⊢
      simpa using ih (by simpa using h)

def stringLength (key : SortKeyDef) (p : List UInt8) : Nat :=
  if key.dtype = .varying then le (p.take 2) else strlen p

theorem kept_flatter {record : Nat → UInt8} (hp : p.length = key.size)
    (hpp : key.Proper p) (hbound : key.length ≤ maxSortRecord)
    (hstash : key.dtype = .varying ∨ key.dtype = .cstring →
      load record key.varyOffset 2 = ushortBytes (key.stringLength p)) :
    key.kept (key.flatter record (key.stashed p)) = key.kept p := by
  have hle := key.length_le_size
  have hmax : maxSortRecord = 65535 := rfl
  cases hd : key.dtype with
  | varying =>
    have hpl : 2 + le (p.take 2) ≤ key.length := by simpa [hd] using hpp.2
    have hload := hstash (.inl hd)
    have hlen2 : (p.take 2).length = 2 := by
      rw [length_take]
      omega
    rw [stringLength, if_pos hd, ushortBytes_le hlen2] at hload
    simp only [kept, flatter, stashed, hd, hload, drop_succ_cons, drop_zero]
    rw [take_left' hlen2, take_add, take_left' hlen2, drop_left' hlen2, take_add]
    congr 1
    rw [take_append_of_le_length, take_of_length_le]
    · simp
    · simp only [length_take, length_drop]
      omega
  | cstring =>
    have hpl : strlen p < key.length := by simpa [hd] using hpp.2
    have hload := hstash (.inr hd)
    rw [stringLength, if_neg (by simp [hd])] at hload
    have hushort : ushortAt record key.varyOffset = strlen p := by
      rw [ushortAt, hload, le_ushortBytes (by omega)]
    have hzero := getElem?_strlen (show strlen p < p.length by omega)
    have hall : ∀ x ∈ p.take (strlen p), x ≠ 0 := by
      intro x hx
      rw [take_strlen] at hx
      simpa using mem_takeWhile_imp hx
    have htake : (p.take (strlen p)).length = strlen p := by
      rw [length_take]
      omega
    obtain ⟨m, hm⟩ : ∃ m, key.size - strlen p = m + 1 := ⟨key.size - strlen p - 1, by omega⟩
    have hflat : key.flatter record (key.stashed p) =
        p.take (strlen p) ++ 0 :: replicate m key.fillChar := by
      simp only [flatter, stashed, hd, hushort, hm, replicate_succ]
      rw [set_append_right _ _ (by omega), htake, Nat.sub_self, set_cons_zero]
    have hstrlen : strlen (p.take (strlen p) ++ 0 :: replicate m key.fillChar) = strlen p := by
      conv_lhs => rw [strlen]
      rw [takeWhile_append_of_pos (by simpa using hall)]
      simp [htake]
    simp only [kept, hd]
    rw [hflat, hstrlen, take_add, take_left' htake, drop_left' htake, take_add]
    congr 1
    rw [drop_eq_getElem?_toList_append, hzero]
    rfl
  | _ => simp only [flatter, stashed, hd]

theorem stashed_flatter (hd : ¬(key.dtype = .varying ∨ key.dtype = .cstring))
    (record : Nat → UInt8) : key.stashed p = p ∧ key.flatter record p = p := by
  obtain ⟨dtype, descending, binary, length, offset, varyOffset⟩ := key
  cases dtype <;> first | exact ⟨rfl, rfl⟩ | simp at hd

theorem stashed_kept (hd : key.dtype = .varying ∨ key.dtype = .cstring) :
    key.stashed (key.kept p) = key.stashed p ∧
      key.stringLength (key.kept p) = key.stringLength p := by
  rcases hd with hd | hd
  · have hlen : (p.take (2 + le (p.take 2))).take 2 = p.take 2 := by
      rw [take_take, min_eq_left (Nat.le_add_right 2 _)]
    simp only [stashed, stringLength, kept, hd, if_true, hlen, and_true]
    rw [drop_take, Nat.add_sub_cancel_left, take_take, min_self]
  · have hlen : strlen (p.take (strlen p + 1)) = strlen p := by
      conv_lhs => rw [strlen, ← take_takeWhile, length_take]
      exact min_eq_right (Nat.le_succ _)
    simp only [stashed, stringLength, kept, hd, reduceCtorEq, if_false, hlen, and_true]
    rw [take_take, min_eq_left (Nat.le_succ _)]

end SortKeyDef

end Firebird.Jrd.Sort
