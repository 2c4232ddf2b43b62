import Firebird.Common.Clumplet

/-!
# Reading any buffer

A clumplet that announces more data than the buffer has is refused, unless the address of its end
does not fit into a pointer. In that case it is accepted, and its data is not in the buffer.
-/
namespace Firebird.Common.Clumplet

open List

variable {s : Space} {r r' : Reader} {lengthSize dataSize size : Nat}

namespace Reader

def announced (r : Reader) : Except Error (Nat × Nat) :=
  match r.buffer.drop r.curOffset with
  | [] => .error (.usageMistake "read past EOF")
  | tag :: rest => do
    let type ← getClumpletType r.kind r.spbState tag
    sizes (tag :: rest) type

/-- The address of the end of the clumplet does not fit into a pointer. -/
def Wraps (s : Space) (r : Reader) : Prop :=
  ∃ lengthSize dataSize, r.announced = .ok (lengthSize, dataSize) ∧
    2 ^ s.bits ≤ s.address + r.curOffset + 1 + lengthSize + dataSize

theorem sizes_spec {clumplet : List UInt8} {type : ClumpletType} (hne : clumplet ≠ [])
    (h : sizes clumplet type = .ok (lengthSize, dataSize)) :
    1 + lengthSize ≤ clumplet.length ∧ dataSize < 2 ^ 32 := by
  have hbyte : ∀ b : UInt8, b.toNat < 256 := fun b => UInt8.toNat_lt b
  have hpos := length_pos_of_ne_nil hne
  cases type with
  | wide =>
    match clumplet, h with
    | _ :: b1 :: b2 :: b3 :: b4 :: _, h =>
      simp only [sizes, Except.ok.injEq, Prod.mk.injEq] at h
      have h1 := hbyte b1
      have h2 := hbyte b2
      have h3 := hbyte b3
      have h4 := hbyte b4
      simp only [length_cons]
      omega
  | traditionalDpb =>
    match clumplet, h with
    | _ :: b1 :: _, h =>
      simp only [sizes, Except.ok.injEq, Prod.mk.injEq] at h
      have h1 := hbyte b1
      simp only [length_cons]
      omega
  | stringSpb =>
    match clumplet, h with
    | _ :: b1 :: b2 :: _, h =>
      simp only [sizes, Except.ok.injEq, Prod.mk.injEq] at h
      have h1 := hbyte b1
      have h2 := hbyte b2
      simp only [length_cons]
      omega
  | singleTpb | intSpb | byteSpb =>
    simp only [sizes, Except.ok.injEq, Prod.mk.injEq] at h
    omega

theorem announced_spec (h : r.announced = .ok (lengthSize, dataSize)) :
    r.curOffset + 1 + lengthSize ≤ r.buffer.length ∧ dataSize < 2 ^ 32 := by
  rw [announced] at h
  split at h
  · cases h
  · rename_i tag rest hdrop
    cases htype : getClumpletType r.kind r.spbState tag with
    | error e =>
      rw [htype] at h
      cases h
    | ok type =>
      rw [htype] at h
      have hspec := sizes_spec (by simp) h
      have hlen := congrArg List.length hdrop
      rw [length_drop, length_cons] at hlen
      rw [length_cons] at hspec
      omega

theorem getClumpletSize_eq_bind (wTag wLength wData : Bool) :
    r.getClumpletSize s wTag wLength wData = r.announced.bind fun (lengthSize, dataSize) =>
      if (s.address + r.curOffset + (1 + lengthSize + dataSize) % 2 ^ s.bits) % 2 ^ s.bits >
          s.address + r.buffer.length then
        .error (.invalidStructure "buffer end before end of clumplet - clumplet too long")
      else
        .ok (((if wTag then 1 else 0) + (if wLength then lengthSize else 0) +
          (if wData then dataSize else 0)) % 2 ^ s.bits) := by
  rw [getClumpletSize, announced]
  cases r.buffer.drop r.curOffset with
  | nil => rfl
  | cons tag rest =>
    cases htype : getClumpletType r.kind r.spbState tag with
    | error e => simp only [htype]; rfl
    | ok type => simp only [htype]; rfl

theorem getClumpletSize_error {e : Error} (h : r.announced = .error e) (wTag wLength wData : Bool) :
    r.getClumpletSize s wTag wLength wData = .error e := by
  rw [getClumpletSize_eq_bind, h]
  rfl

theorem getClumpletSize_of_not_wraps
    (h : r.announced = .ok (lengthSize, dataSize)) (hwraps : ¬r.Wraps s)
    (wTag wLength wData : Bool) :
    r.getClumpletSize s wTag wLength wData =
      if r.curOffset + (1 + lengthSize + dataSize) > r.buffer.length then
        .error (.invalidStructure "buffer end before end of clumplet - clumplet too long")
      else
        .ok ((if wTag then 1 else 0) + (if wLength then lengthSize else 0) +
          (if wData then dataSize else 0)) := by
  have hlt : s.address + r.curOffset + (1 + lengthSize + dataSize) < 2 ^ s.bits := by
    by_contra hge
    exact hwraps ⟨lengthSize, dataSize, h, by omega⟩
  rw [getClumpletSize_eq_bind, h, Except.bind]
  simp only
  rw [Nat.mod_eq_of_lt (by omega : 1 + lengthSize + dataSize < 2 ^ s.bits), Nat.mod_eq_of_lt hlt]
  have hsum : (if wTag then 1 else 0) + (if wLength then lengthSize else 0) +
      (if wData then dataSize else 0) ≤ 1 + lengthSize + dataSize := by
    split_ifs <;> omega
  rw [Nat.mod_eq_of_lt (by omega)]
  by_cases hin : r.curOffset + (1 + lengthSize + dataSize) > r.buffer.length
  · rw [if_pos hin, if_pos (by omega)]
  · rw [if_neg hin, if_neg (by omega)]

theorem getClumpletSize_of_wraps (hs : s.Holds r.buffer.length)
    (h : r.announced = .ok (lengthSize, dataSize))
    (hwraps : 2 ^ s.bits ≤ s.address + r.curOffset + 1 + lengthSize + dataSize)
    (wTag wLength wData : Bool) :
    r.getClumpletSize s wTag wLength wData =
      .ok (((if wTag then 1 else 0) + (if wLength then lengthSize else 0) +
        (if wData then dataSize else 0)) % 2 ^ s.bits) := by
  obtain ⟨hin, hdata⟩ := announced_spec h
  have hpow : 2 ^ 32 ≤ 2 ^ s.bits := Nat.pow_le_pow_right (by omega) hs.bits
  have hfits := hs.fits
  have hmod : (s.address + r.curOffset + (1 + lengthSize + dataSize)) % 2 ^ s.bits =
      s.address + r.curOffset + (1 + lengthSize + dataSize) - 2 ^ s.bits := by
    rw [Nat.mod_eq_sub_mod (by omega), Nat.mod_eq_of_lt (by omega)]
  rw [getClumpletSize_eq_bind, h, Except.bind]
  simp only
  rw [Nat.add_mod_mod, hmod, if_neg (by omega)]

/-- So many calls of `moveNext`. -/
def run (s : Space) : Nat → Reader → Except Error Reader
  | 0, r => .ok r
  | n + 1, r => do
    let r ← r.moveNext s
    run s n r

/-- Reading from here on is safe: every clumplet is in the buffer, every step goes forward, and
after as many steps as the buffer has bytes there is an error or the end. -/
structure Safe (s : Space) (r : Reader) : Prop where
  inside : ∀ n r', r.run s n = .ok r' → r'.isEof = false → ∀ ptr length, r'.getBytes s = .ok ptr →
    r'.getClumpLength s = .ok length → ptr + length ≤ r'.buffer.length
  forward : ∀ n r' r'', r.run s n = .ok r' → r'.isEof = false → r'.moveNext s = .ok r'' →
    r'.curOffset < r''.curOffset
  ends : (∃ e, r.run s r.buffer.length = .error e) ∨
    ∃ r', r.run s r.buffer.length = .ok r' ∧ r'.isEof = true

theorem adjustSpbState_spec (h : r.adjustSpbState = .ok r') :
    r'.kind = r.kind ∧ r'.buffer = r.buffer ∧ r'.curOffset = r.curOffset := by
  rw [adjustSpbState] at h
  split_ifs at h
  · cases htag : r.getClumpTag with
    | error e =>
      rw [htag] at h
      cases h
    | ok tag =>
      rw [htag] at h
      cases h
      exact ⟨rfl, rfl, rfl⟩
  · cases h
    exact ⟨rfl, rfl, rfl⟩

theorem moveNext_of_isEof (h : r.isEof = true) : r.moveNext s = .ok r := by
  rw [moveNext, if_pos h]

theorem moveNext_same (h : r.moveNext s = .ok r') : r'.buffer = r.buffer := by
  rw [moveNext] at h
  split at h
  · cases h
    rfl
  · cases hsize : r.getClumpletSize s true true true with
    | error e =>
      rw [hsize] at h
      cases h
    | ok cs =>
      rw [hsize] at h
      cases hadjust : r.adjustSpbState with
      | error e =>
        simp only [hadjust] at h
        cases h
      | ok r₁ =>
        simp only [hadjust] at h
        cases h
        exact (adjustSpbState_spec hadjust).2.1

theorem moveNext_lt (hs : s.Holds r.buffer.length) (heof : r.isEof = false) (hwraps : ¬r.Wraps s)
    (h : r.moveNext s = .ok r') : r.curOffset < r'.curOffset := by
  rw [moveNext, if_neg (by simp [heof])] at h
  cases hann : r.announced with
  | error e =>
    rw [getClumpletSize_error hann] at h
    cases h
  | ok sizes =>
    obtain ⟨lengthSize, dataSize⟩ := sizes
    rw [getClumpletSize_of_not_wraps hann hwraps] at h
    by_cases hin : r.curOffset + (1 + lengthSize + dataSize) > r.buffer.length
    · rw [if_pos hin] at h
      cases h
    · rw [if_neg hin] at h
      cases hadjust : r.adjustSpbState with
      | error e =>
        simp only [hadjust] at h
        cases h
      | ok r₁ =>
        simp only [hadjust, if_true] at h
        cases h
        have hfits := hs.fits
        simp only [(adjustSpbState_spec hadjust).2.2]
        rw [Nat.mod_eq_of_lt (by omega)]
        omega

theorem run_one : r.run s 1 = r.moveNext s := by
  rw [run]
  cases r.moveNext s <;> rfl

theorem run_add (m n : Nat) : r.run s (m + n) = (r.run s m).bind (·.run s n) := by
  induction m generalizing r with
  | zero => rw [Nat.zero_add]; rfl
  | succ m ih =>
    rw [Nat.succ_add, run, run]
    cases r.moveNext s with
    | error e => rfl
    | ok r₁ => exact ih

theorem run_succ {n : Nat} (h : r.run s (n + 1) = .ok r') :
    ∃ r₁, r.run s n = .ok r₁ ∧ r₁.moveNext s = .ok r' := by
  rw [run_add n 1] at h
  cases hrun : r.run s n with
  | error e =>
    rw [hrun] at h
    cases h
  | ok r₁ =>
    rw [hrun] at h
    exact ⟨r₁, rfl, by rw [← run_one]; exact h⟩

theorem run_same {n : Nat} (h : r.run s n = .ok r') : r'.buffer = r.buffer := by
  induction n generalizing r' with
  | zero =>
    cases h
    rfl
  | succ n ih =>
    obtain ⟨r₁, hrun, hnext⟩ := run_succ h
    rw [moveNext_same hnext, ih hrun]

theorem run_forward {n : Nat} (hs : s.Holds r.buffer.length)
    (hwraps : ∀ n r', r.run s n = .ok r' → r'.isEof = false → ¬r'.Wraps s)
    (h : r.run s n = .ok r') : r'.isEof = true ∨ n ≤ r'.curOffset := by
  induction n generalizing r' with
  | zero => exact .inr (Nat.zero_le _)
  | succ n ih =>
    obtain ⟨r₁, hrun, hnext⟩ := run_succ h
    cases heof : r₁.isEof with
    | true =>
      rw [moveNext_of_isEof heof] at hnext
      cases hnext
      exact .inl heof
    | false =>
      have hlt := moveNext_lt (run_same hrun ▸ hs) heof (hwraps n r₁ hrun heof) hnext
      have hle := (ih hrun).resolve_left (by simp [heof])
      exact .inr (by omega)

theorem getBufferLength_le : r.getBufferLength ≤ r.buffer.length := by
  rw [getBufferLength]
  split_ifs <;> omega

theorem bytes_inside {ptr length : Nat} (hwraps : ¬r.Wraps s)
    (hptr : r.getBytes s = .ok ptr) (hlength : r.getClumpLength s = .ok length) :
    ptr + length ≤ r.buffer.length := by
  rw [getBytes] at hptr
  rw [getClumpLength] at hlength
  cases hann : r.announced with
  | error e =>
    rw [getClumpletSize_error hann] at hlength
    cases hlength
  | ok sizes =>
    obtain ⟨lengthSize, dataSize⟩ := sizes
    rw [getClumpletSize_of_not_wraps hann hwraps] at hptr hlength
    by_cases hin : r.curOffset + (1 + lengthSize + dataSize) > r.buffer.length
    · rw [if_pos hin] at hlength
      cases hlength
    · rw [if_neg hin] at hptr hlength
      cases hptr
      cases hlength
      simp only [if_true, Bool.false_eq_true, if_false]
      omega

theorem bytes_outside (hs : s.Holds r.buffer.length) (hwraps : r.Wraps s) :
    ∃ ptr length, r.getBytes s = .ok ptr ∧ r.getClumpLength s = .ok length ∧
      r.buffer.length < ptr + length := by
  obtain ⟨lengthSize, dataSize, hann, hle⟩ := hwraps
  obtain ⟨hin, hdata⟩ := announced_spec hann
  have hpow : 2 ^ 32 ≤ 2 ^ s.bits := Nat.pow_le_pow_right (by omega) hs.bits
  have hfits := hs.fits
  refine ⟨r.curOffset + (1 + lengthSize), dataSize, ?_, ?_, by omega⟩
  · rw [getBytes, getClumpletSize_of_wraps hs hann hle]
    simp only [if_true, Bool.false_eq_true, if_false]
    rw [Nat.mod_eq_of_lt (by omega)]
    rfl
  · rw [getClumpLength, getClumpletSize_of_wraps hs hann hle]
    simp only [if_true, Bool.false_eq_true, if_false, Nat.zero_add]
    rw [Nat.mod_eq_of_lt (by omega)]

theorem safe_iff (hs : s.Holds r.buffer.length) :
    r.Safe s ↔ ∀ n r', r.run s n = .ok r' → r'.isEof = false → ¬r'.Wraps s := by
  constructor
  · intro hsafe n r' hrun heof hwraps
    have hs' : s.Holds r'.buffer.length := run_same hrun ▸ hs
    obtain ⟨ptr, length, hptr, hlength, hout⟩ := bytes_outside hs' hwraps
    have hin := hsafe.inside n r' hrun heof ptr length hptr hlength
    omega
  · intro hwraps
    refine ⟨?_, ?_, ?_⟩
    · intro n r' hrun heof ptr length hptr hlength
      exact bytes_inside (hwraps n r' hrun heof) hptr hlength
    · intro n r' r'' hrun heof hnext
      exact moveNext_lt (run_same hrun ▸ hs) heof (hwraps n r' hrun heof) hnext
    · cases hrun : r.run s r.buffer.length with
      | error e => exact .inl ⟨e, rfl⟩
      | ok r' =>
        refine .inr ⟨r', rfl, ?_⟩
        rcases run_forward hs hwraps hrun with heof | hle
        · exact heof
        · have hlen := getBufferLength_le (r := r')
          rw [run_same hrun] at hlen
          exact decide_eq_true (by omega : r'.curOffset ≥ r'.getBufferLength)

theorem rewind_buffer : (r.rewind s).buffer = r.buffer := by
  rw [rewind]
  split_ifs <;> rfl

theorem not_wraps_of_room (hroom : s.address + r.buffer.length + 2 ^ 32 ≤ 2 ^ s.bits) :
    ¬r.Wraps s := by
  rintro ⟨lengthSize, dataSize, hann, hle⟩
  obtain ⟨hin, hdata⟩ := announced_spec hann
  omega

/-- Reading any buffer of any kind from `rewind` on is safe if and only if no clumplet on the way
wraps around. -/
theorem rewind_safe_iff (kind : Kind) (buffer : List UInt8) (hs : s.Holds buffer.length) :
    (rewind s ⟨kind, buffer, 0, 0⟩).Safe s ↔
      ∀ n r, (rewind s ⟨kind, buffer, 0, 0⟩).run s n = .ok r → r.isEof = false → ¬r.Wraps s :=
  safe_iff (by rwa [rewind_buffer])

theorem rewind_safe_iff_wide :
    (rewind ⟨64, 4096⟩ ⟨.wideUnTagged, [1, 1, 0, 0, 0, 7], 0, 0⟩).Safe ⟨64, 4096⟩ := by
  refine (rewind_safe_iff _ _ ⟨by decide, by decide, by decide⟩).2 fun n r hrun _ => ?_
  exact not_wraps_of_room (by rw [run_same hrun, rewind_buffer]; decide)

/-- With 32 bits, a clumplet may announce so much data that the reader stays where it is. -/
theorem wide_not_safe :
    Space.Holds ⟨32, 4096⟩ 5 ∧
      ¬(rewind ⟨32, 4096⟩ ⟨.wideUnTagged, [1, 251, 255, 255, 255], 0, 0⟩).Safe ⟨32, 4096⟩ := by
  refine ⟨⟨by decide, by decide, by decide⟩, fun hsafe => ?_⟩
  have hlt := hsafe.forward 0 _ ⟨.wideUnTagged, [1, 251, 255, 255, 255], 0, 0⟩ rfl (by decide)
    (by decide)
  exact absurd hlt (by decide)

end Reader

end Firebird.Common.Clumplet
