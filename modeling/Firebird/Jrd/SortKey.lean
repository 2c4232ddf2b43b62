import Firebird.Jrd.Sort
import Firebird.Lib.Footprint
import Firebird.Lib.Memory
import Firebird.Lib.Padded
import Firebird.Lib.Words

/-!
# Sort keys

`diddle_key`, as it is on machines with the lowest byte first and IEEE numbers: it puts the keys of
a record in a form where they can be compared as longwords without a sign, and back. The lengths of
strings are stashed in another part of the record. Beside it stands the order that the keys are
meant to have.
-/
namespace Firebird.Jrd.Sort

open Lib Memory Words

/-- `skd_dtype`; `SKD_d_float` is a type of other machines. -/
inductive SkdType
  | long
  | ulong
  | short
  | ushort
  | text
  | float
  | double
  | quad
  | timestamp1
  | bytes
  | varying
  | cstring
  | sqlTime
  | sqlDate
  | timestamp2
  | int64
  deriving DecidableEq

/-- `sort_key_def`, with the flags `SKD_descending` and `SKD_binary`. -/
structure SortKeyDef where
  dtype : SkdType
  descending : Bool
  binary : Bool
  length : Nat
  offset : Nat
  varyOffset : Nat
  deriving DecidableEq

namespace SortKeyDef

/-- `n`: the length in whole longwords. -/
def size (key : SortKeyDef) : Nat := roundup key.length 4

def fillChar (key : SortKeyDef) : UInt8 := if key.binary then 0 else 32

end SortKeyDef

def ushortAt (record : Nat → UInt8) (p : Nat) : Nat := le (load record p 2)

def ushortBytes (n : Nat) : List UInt8 := [UInt8.ofNat n, UInt8.ofNat (n / 256)]

def strlen (p : List UInt8) : Nat := (p.takeWhile (· ≠ 0)).length

/-- `p[i] ^= 1 << 7` -/
def flipBit (i : Nat) (p : List UInt8) : List UInt8 := p.modify i (· ^^^ 0x80)

/-- `SWAP_LONGS(lwp[0], lwp[1])` -/
def swapLongs (p : List UInt8) : List UInt8 := p.drop 4 ++ p.take 4

/-- The cases `SKD_double` and `SKD_float`, with the place of the highest byte: the key, and
`complement`. -/
def mangleFloat (direction descending : Bool) (top : Nat) (p : List UInt8) : List UInt8 × Bool :=
  let flag := if direction || !descending then direction else true
  if xor flag (p.getD top 0 >>> 7 == 1) then (flipBit top p, descending) else (p, !descending)

/-- The cases of the type, without the stash: the key, and `complement`. -/
def SkdType.mangle (dtype : SkdType) (direction descending : Bool) (p : List UInt8) :
    List UInt8 × Bool :=
  match dtype with
  | .timestamp1 | .timestamp2 | .sqlTime | .sqlDate => (flipBit 3 p, descending)
  | .ulong | .ushort => (p, descending)
  | .text | .bytes | .cstring | .varying => (reverseLongs p, descending)
  | .short => (flipBit 1 p, descending)
  | .long => (flipBit 3 p, descending)
  | .quad => (flipBit 7 p, descending)
  | .int64 => (if direction then swapLongs (flipBit 7 p) else flipBit 7 (swapLongs p), descending)
  | .double =>
    if direction then
      let (p, complement) := mangleFloat direction descending 7 p
      (swapLongs p, complement)
    else mangleFloat direction descending 7 (swapLongs p)
  | .float => mangleFloat direction descending 3 p

/-- The length of a string is stashed and zapped, and its end is filled; once the records are sorted
it is still there. -/
def SortKeyDef.stash (key : SortKeyDef) (sorted : Bool) (record : Nat → UInt8) (p : List UInt8) :
    (Nat → UInt8) × List UInt8 :=
  match key.dtype with
  | .varying =>
    if sorted then (record, 0 :: 0 :: p.drop 2)
    else
      let l := le (p.take 2)
      (store record key.varyOffset (ushortBytes l),
        0 :: 0 :: ((p.drop 2).take l ++ List.replicate (key.size - 2 - l) key.fillChar))
  | .cstring =>
    if sorted then (record, p.set (ushortAt record key.varyOffset) key.fillChar)
    else
      let l := strlen p
      (store record key.varyOffset (ushortBytes l),
        p.take l ++ List.replicate (key.size - l) key.fillChar)
  | _ => (record, p)

def SortKeyDef.flatter (key : SortKeyDef) (record : Nat → UInt8) (p : List UInt8) : List UInt8 :=
  match key.dtype with
  | .varying => load record key.varyOffset 2 ++ p.drop 2
  | .cstring => p.set (ushortAt record key.varyOffset) 0
  | _ => p

def diddleOne (sorted direction : Bool) (record : Nat → UInt8) (key : SortKeyDef) : Nat → UInt8 :=
  let p := load record key.offset key.size
  let (record, p) := if direction then key.stash sorted record p else (record, p)
  let (p, complemented) := key.dtype.mangle direction key.descending p
  let p := if complemented then complement p else p
  store record key.offset (if direction then p else key.flatter record p)

/-- `diddle_key`; `sorted` is the flag `scb_sorted`. -/
def diddleKey (sorted direction : Bool) (keys : List SortKeyDef) (record : Nat → UInt8) :
    Nat → UInt8 :=
  keys.foldl (diddleOne sorted direction) record

namespace SortKeyDef

def string (key : SortKeyDef) (p : List UInt8) : List UInt8 :=
  match key.dtype with
  | .varying => (p.drop 2).take (le (p.take 2))
  | .cstring => p.takeWhile (· ≠ 0)
  | _ => p.take key.length

/-- What of a key has to be restored: for strings the length, or the end, and the bytes up to it. -/
def kept (key : SortKeyDef) (p : List UInt8) : List UInt8 :=
  match key.dtype with
  | .varying => p.take (2 + le (p.take 2))
  | .cstring => p.take (strlen p + 1)
  | _ => p.take key.length

def natural (key : SortKeyDef) (p q : List UInt8) : Ordering :=
  match key.dtype with
  | .text | .bytes => List.compareLex compare (p.take key.length) (q.take key.length)
  | .varying | .cstring => Padded.padCompare key.fillChar (key.string p) (key.string q)
  | .short | .long | .int64 | .quad | .sqlDate | .sqlTime =>
    compare (signed (p.take key.length)) (signed (q.take key.length))
  | .float | .double => compare (signMagnitude p) (signMagnitude q)
  | .timestamp1 | .timestamp2 =>
    (compare (signed (p.take 4)) (signed (q.take 4))).then (compare (le (p.drop 4)) (le (q.drop 4)))
  | .ulong | .ushort => compare (le (p.take key.length)) (le (q.take key.length))

def order (key : SortKeyDef) (p q : List UInt8) : Ordering :=
  if key.descending then (key.natural p q).swap else key.natural p q

def area (key : SortKeyDef) (record : Nat → UInt8) : List UInt8 := load record key.offset key.size

/-- The types that `gen_sort` emits, with their lengths. -/
def Emitted (key : SortKeyDef) : Prop :=
  match key.dtype with
  | .text => True
  | .cstring => 1 ≤ key.length
  | .varying => 2 ≤ key.length
  | .short => key.length = 2
  | .long | .float | .sqlDate | .sqlTime => key.length = 4
  | .quad | .double | .timestamp2 | .int64 => key.length = 8
  | .ulong | .ushort | .bytes | .timestamp1 => False

/-- The bytes that pad a key are zero, and a string ends inside of it. -/
def Proper (key : SortKeyDef) (p : List UInt8) : Prop :=
  (∀ b ∈ p.drop key.length, b = 0) ∧
  match key.dtype with
  | .varying => 2 + le (p.take 2) ≤ key.length
  | .cstring => strlen p < key.length
  | _ => True

def places (key : SortKeyDef) : Set Nat :=
  {i | key.offset ≤ i ∧ i < key.offset + key.size ∨
    (key.dtype = .varying ∨ key.dtype = .cstring) ∧ key.varyOffset ≤ i ∧ i < key.varyOffset + 2}

end SortKeyDef

def Follow : Nat → List SortKeyDef → Nat → Prop
  | start, [], stop => start = stop
  | start, key :: keys, stop => key.offset = start ∧ Follow (start + key.size) keys stop

/-- A description of keys as `gen_sort` makes it, up to the longword where the keys end. The lengths
of strings are behind the keys. -/
structure Described (keys : List SortKeyDef) (stop : Nat) : Prop where
  follow : Follow 0 keys stop
  emitted : ∀ key ∈ keys, key.Emitted
  behind : ∀ key ∈ keys, key.dtype = .varying ∨ key.dtype = .cstring → stop ≤ key.varyOffset
  apart : keys.Pairwise fun key other =>
    (key.dtype = .varying ∨ key.dtype = .cstring) →
      (other.dtype = .varying ∨ other.dtype = .cstring) →
      key.varyOffset + 2 ≤ other.varyOffset ∨ other.varyOffset + 2 ≤ key.varyOffset
  bound : stop ≤ maxSortRecord

/-- An item to sort by: the type of its key and the length, the directions of the value and of NULL,
and whether it is binary. -/
structure SortItem where
  dtype : SkdType
  length : Nat
  descending : Bool
  nullsFirst : Bool
  binary : Bool

def itemKeys : Nat → List SortItem → List SortKeyDef × Nat
  | mapLength, [] => ([], roundup mapLength 4)
  | mapLength, item :: items =>
    let flagOffset := roundup mapLength 4
    let offset := roundup (flagOffset + 1) 4
    let (keys, mapLength) := itemKeys (offset + item.length) items
    (⟨.text, item.nullsFirst, false, 1, flagOffset, 0⟩ ::
      ⟨item.dtype, item.descending, item.binary, item.length, offset, 0⟩ :: keys, mapLength)

def varyOffsets : Nat → List SortKeyDef → List SortKeyDef × Nat
  | mapLength, [] => ([], mapLength)
  | mapLength, key :: keys =>
    if key.dtype = .varying ∨ key.dtype = .cstring then
      let (keys, length) := varyOffsets (mapLength + 2) keys
      ({ key with varyOffset := mapLength } :: keys, length)
    else
      let (keys, length) := varyOffsets mapLength keys
      (key :: keys, length)

/-- The description that `gen_sort` makes, with `others` bytes for the other fields of the map; none
if the record would be too long. -/
def genSort (items : List SortItem) (others : Nat) : Option (List SortKeyDef × Nat) :=
  let (keys, stop) := itemKeys 0 items
  let (keys, mapLength) := varyOffsets (roundup (stop + others) 4) keys
  if mapLength > maxSortRecord then none else some (keys, stop)

def RecordOf (keys : List SortKeyDef) (record : Nat → UInt8) : Prop :=
  ∀ key ∈ keys, key.Proper (key.area record)

def orderKeys (keys : List SortKeyDef) (record other : Nat → UInt8) : Ordering :=
  keys.foldr (fun key o => (key.order (key.area record) (key.area other)).then o) .eq

def Restores (keys : List SortKeyDef) : Prop :=
  ∀ record, RecordOf keys record → ∀ key ∈ keys,
    key.kept (key.area (diddleKey false false keys (diddleKey false true keys record))) =
      key.kept (key.area record)

def Sorts (keys : List SortKeyDef) (stop : Nat) : Prop :=
  ∀ record other, RecordOf keys record → RecordOf keys other →
    compareLongs (load (diddleKey false true keys record) 0 stop)
      (load (diddleKey false true keys other) 0 stop) = orderKeys keys record other

end Firebird.Jrd.Sort
