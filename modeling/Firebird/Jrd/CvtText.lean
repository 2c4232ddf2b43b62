import Firebird.Lib.Cursor
import Firebird.Jrd.CvtExact

/-!
# Integers to text

`integer_to_text` of `cvt.cpp`. The scratch buffer is filled from its start and emptied from its
end, so it is a stack. The source has been converted to `SINT64` with its own scale.
-/
namespace Firebird.Jrd.Cvt

open Lib Lib.Decimal

inductive Fault
  /-- A byte outside a buffer is written. -/
  | outside
  /-- The conversion error is posted. -/
  | conversionError
  deriving DecidableEq

def inside {α : Type} : Option α → Except Fault α
  | some a => .ok a
  | none => .error .outside

/-- `temp[128]` up to `p`, the last character in front. -/
structure Temp where
  chars : List UInt8
  length_le : chars.length ≤ 128
  deriving DecidableEq

def Temp.empty : Temp := ⟨[], Nat.zero_le _⟩

/-- `*p++ = c` -/
def Temp.push (temp : Temp) (c : UInt8) : Except Fault Temp :=
  if h : temp.chars.length < 128 then .ok ⟨c :: temp.chars, h⟩ else .error .outside

inductive TextDtype
  | text
  | cstring
  | varying
  deriving DecidableEq

/-- A descriptor of a text, with the bytes at its address. -/
structure Dsc where
  dtype : TextDtype
  /-- The character set is `ttype_binary`. -/
  binary : Bool
  address : List UInt8
  length_lt : address.length < 2 ^ 16

def Dsc.length (dsc : Dsc) : Nat := dsc.address.length

def Dsc.pad (dsc : Dsc) : UInt8 := if dsc.binary then 0 else blank

/-- `dsc_length - sizeof(USHORT)`, which is unsigned. -/
def Dsc.varyingLength (dsc : Dsc) : Nat := (dsc.length + (2 ^ 64 - 2)) % 2 ^ 64

def Dsc.refuses (dst : Dsc) (length : Nat) : Bool :=
  match dst.dtype with
  | .text => dst.length < length
  | .cstring => dst.length ≤ length
  | .varying => dst.varyingLength < length

def digitLoop (temp : Temp) (u : Nat) : Except Fault Temp :=
  match temp.push (UInt8.ofNat (48 + u % 10)) with
  | .error fault => .error fault
  | .ok temp => if u / 10 = 0 then .ok temp else digitLoop temp (u / 10)
termination_by u
decreasing_by omega

def zeroLoop (scale : Int) (temp : Temp) : Except Fault Temp :=
  if temp.chars.length + scale ≤ 0 then
    if h : temp.chars.length < 128 then zeroLoop scale ⟨48 :: temp.chars, h⟩ else .error .outside
  else .ok temp
termination_by 128 - temp.chars.length
decreasing_by simp only [List.length_cons]; omega

/-- `do *q++ = *--p; while (--count);` The characters are taken from the end of the scratch buffer.
-/
def copyLoop : Nat → Cursor UInt8 → List UInt8 → Except Fault (Cursor UInt8 × List UInt8)
  | 0, q, p => .ok (q, p)
  | _ + 1, _, [] => .error .outside
  | count + 1, q, c :: p => do
    let q ← inside (q.put c)
    copyLoop count q p

/-- `do *q++ = '0'; while (--pad_count);` -/
def padLoop : Nat → Cursor UInt8 → Except Fault (Cursor UInt8)
  | 0, q => .ok q
  | padCount + 1, q => do
    let q ← inside (q.put 48)
    padLoop padCount q

def formatNumber (scale : Int) (temp : Temp) (q : Cursor UInt8) : Except Fault (Cursor UInt8) :=
  if scale ≥ 0 then do
    let (q, _) ← copyLoop temp.chars.length q temp.chars
    return q
  else do
    let (q, p) ← copyLoop (temp.chars.length + scale).toNat q temp.chars
    let q ← inside (q.put point)
    let (q, _) ← copyLoop (-scale).toNat q p
    return q

/-- What each type of text has behind the characters, or in front of them. -/
def finish (dst : Dsc) (length : Nat) (q : Cursor UInt8) : Except Fault (List UInt8) :=
  match dst.dtype with
  | .text => do
    let q ← inside (q.puts (List.replicate (dst.length - length) dst.pad))
    return q.cells
  | .cstring => do
    let q ← inside (q.put 0)
    return q.cells
  | .varying => do
    let count := q.place - 2
    let q ← inside ((Cursor.mk q.cells 0).puts [UInt8.ofNat count, UInt8.ofNat (count / 2 ^ 8)])
    return q.cells

/-- The absolute value in the `FB_UINT64`; the least number has wrapped to itself. -/
def magnitude (n : Int) : Nat := if n ≥ 0 then n.toNat else (sint64 (-n) % 2 ^ 64).toNat

/-- `integer_to_text`: the bytes at the address of the destination. -/
def integerToText (n scale : Int) (dst : Dsc) : Except Fault (List UInt8) := do
  let padCount := scale.toNat
  let decimal := if scale < 0 then 1 else 0
  let neg := if n ≥ 0 then 0 else 1
  let temp ← digitLoop .empty (magnitude n)
  let temp ← zeroLoop scale temp
  let length := temp.chars.length + neg + decimal + padCount
  if dst.refuses length then throw .conversionError
  let q : Cursor UInt8 := ⟨dst.address, if dst.dtype = .varying then 2 else 0⟩
  let q ← if neg = 1 then inside (q.put minus) else pure q
  let q ← formatNumber scale temp q
  let q ← padLoop padCount q
  finish dst length q

end Firebird.Jrd.Cvt
