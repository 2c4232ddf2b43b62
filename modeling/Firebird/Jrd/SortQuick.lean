import Firebird.Jrd.Sort
import Firebird.Lib.Memory
import Mathlib.Logic.Function.Basic

/-!
# Sorting in memory

The sort buffer and what `sort` does with it when no duplicates are to be found: `quick`, and the
pass after it over the pairs that `quick` leaves. The pointers grow from the low end of the buffer
and the records from the high end. They never meet, so that the two are kept apart here: `pointers`
gives the key address in each slot, and `memory` the longwords of the records and of the guards.

A slot is read only from `low_key` to `high_key`, and the stacks of `quick` have room for fifty
intervals. What goes beyond that has no result.
-/
namespace Firebird.Jrd.Sort

open Lib Memory

/-- What stays the same in a `sort_context` while the buffer is sorted. Addresses and sizes count
longwords. -/
structure SortArea where
  /-- `scb_longs` -/
  longs : Nat
  /-- `scb_memory`, which is `scb_first_pointer` too -/
  memory : Nat
  /-- `scb_size_memory` -/
  size : Nat
  lowKey : Nat
  highKey : Nat

/-- The buffer. `nextPointer` is a slot, and slot 0 is `scb_first_pointer`. -/
structure SortBuffer where
  pointers : Nat → Nat
  memory : Nat → UInt32
  nextPointer : Nat
  lastRecord : Nat

namespace SortArea

def endMemory (scb : SortArea) : Nat := scb.memory + scb.size

/-- `sr_bckptr` as it points to the slot: two longwords, the lower one first. -/
def bckptr (scb : SortArea) (slot : Nat) : List UInt32 :=
  let address := 4 * scb.memory + 8 * slot
  [UInt32.ofNat address, UInt32.ofNat (address / 2 ^ 32)]

/-- `record[BACK_OFFSET] = slot`, for the key address of a record. -/
def setBckptr (scb : SortArea) (record slot : Nat) (m : Nat → UInt32) : Nat → UInt32 :=
  store m (record - sizeofSrBckptrInLongs) (scb.bckptr slot)

end SortArea

/-- The end of `init`. -/
def initBuffer (scb : SortArea) (b : SortBuffer) : SortBuffer :=
  { b with
    pointers := Function.update b.pointers 0 scb.lowKey
    nextPointer := 1
    lastRecord := scb.endMemory }

/-- The end of `SORT_put`. The next call puts the key in the form that can be compared. -/
def putRecord (scb : SortArea) (b : SortBuffer) (longwords : List UInt32) : SortBuffer :=
  let record := b.lastRecord - scb.longs
  let key := record + sizeofSrBckptrInLongs
  { pointers := Function.update b.pointers b.nextPointer key
    memory := store (scb.setBckptr key b.nextPointer b.memory) key longwords
    nextPointer := b.nextPointer + 1
    lastRecord := record }

def fill (scb : SortArea) (b : SortBuffer) (records : List (List UInt32)) : SortBuffer :=
  records.foldl (putRecord scb) (initBuffer scb b)

def swap (scb : SortArea) (a b : Nat) (s : SortBuffer) : SortBuffer :=
  { s with
    pointers := Function.update (Function.update s.pointers a (s.pointers b)) b (s.pointers a)
    memory := scb.setBckptr (s.pointers b) a (scb.setBckptr (s.pointers a) b s.memory) }

/-- `**i` -/
def SortBuffer.first (s : SortBuffer) (i : Nat) : UInt32 := s.memory (s.pointers i)

/-- `while (tl && *p == *q)`, and the comparison that follows. -/
def compareKeys (m : Nat → UInt32) : Nat → Nat → Nat → Ordering
  | 0, _, _ => .eq
  | tl + 1, p, q =>
    if m p = m q then compareKeys m tl (p + 1) (q + 1) else if m p < m q then .lt else .gt

/-- The comparison of two slots. It takes in a longword behind the records, which belongs to the
back pointer of another one. -/
def compareSlots (scb : SortArea) (s : SortBuffer) (i j : Nat) : Ordering :=
  compareKeys s.memory (scb.longs - 1) (s.pointers i) (s.pointers j)

/-- `while (**i < key) i++` -/
def skipLower (s : SortBuffer) (size : Nat) (key : UInt32) : Nat → Nat → Option Nat
  | 0, _ => none
  | fuel + 1, i =>
    if size + 1 < i then none
    else if s.first i < key then skipLower s size key fuel (i + 1)
    else some i

/-- `while (i <= *su)` -/
def skipNotGreater (scb : SortArea) (s : SortBuffer) (size r upper : Nat) : Nat → Nat → Option Nat
  | 0, _ => none
  | fuel + 1, i =>
    if upper < i then some i
    else if size + 1 < i then none
    else if compareSlots scb s i r = .gt then some i
    else skipNotGreater scb s size r upper fuel (i + 1)

/-- The first scan, up from `i`. -/
def scanUp (scb : SortArea) (s : SortBuffer) (size r upper : Nat) (key : UInt32) (i : Nat) :
    Option Nat := do
  let i ← skipLower s size key (size + 2) i
  if s.first i = key then skipNotGreater scb s size r upper (size + 2) i else some i

/-- `while (**j > key) j--` -/
def skipHigher (s : SortBuffer) (key : UInt32) : Nat → Option Nat
  | 0 => if key < s.first 0 then none else some 0
  | j + 1 => if key < s.first (j + 1) then skipHigher s key j else some (j + 1)

/-- `while (j != r)` -/
def skipNotLess (scb : SortArea) (s : SortBuffer) (r : Nat) : Nat → Option Nat
  | 0 => if r = 0 ∨ compareSlots scb s 0 r = .lt then some 0 else none
  | j + 1 =>
    if j + 1 = r then some (j + 1)
    else if compareSlots scb s (j + 1) r = .lt then some (j + 1)
    else skipNotLess scb s r j

/-- The second scan, down from `j`. -/
def scanDown (scb : SortArea) (s : SortBuffer) (r : Nat) (key : UInt32) (j : Nat) :
    Option Nat := do
  let j ← skipHigher s key j
  if s.first j = key then skipNotLess scb s r j else some j

/-- The loop that makes the partition; `key` is `**r`. -/
def partition (scb : SortArea) (size r upper : Nat) (key : UInt32) :
    Nat → Nat → Nat → SortBuffer → Option (SortBuffer × Nat)
  | 0, _, _, _ => none
  | fuel + 1, i, j, s => do
    let i ← scanUp scb s size r upper key i
    let j ← scanDown scb s r key j
    if j ≤ i then some (s, j)
    else partition scb size r upper key fuel (i + 1) (j - 1) (swap scb i j s)

/-- The two intervals around `j` are stacked, the longest first. -/
def stackIntervals (r j upper : Nat) (stack : List (Nat × Nat)) : List (Nat × Nat) :=
  if j - r > upper - j + 1 then (j + 1, upper) :: (r, j - 1) :: stack
  else (r, j - 1) :: (j + 1, upper) :: stack

/-- The room of `stack_lower` and `stack_upper`. -/
def stackRoom : Nat := 50

/-- The loop of `quick`, with the intervals that are on the stacks. -/
def quick (scb : SortArea) (size : Nat) :
    Nat → List (Nat × Nat) → SortBuffer → Option SortBuffer
  | 0, _, _ => none
  | _ + 1, [], s => some s
  | fuel + 1, (r, upper) :: stack, s =>
    if upper - r < 2 then quick scb size fuel stack s
    else if size + 1 < upper then none
    else do
      let s := swap scb (r + (upper - r) / 2) r s
      let (s, j) ← partition scb size r upper (s.first r) (size + 2) (r + 1) upper s
      let stack := stackIntervals r j upper stack
      if stackRoom < stack.length then none else quick scb size fuel stack (swap scb r j s)

def correctPairs (scb : SortArea) : Nat → Nat → SortBuffer → SortBuffer
  | 0, _, s => s
  | count + 1, i, s =>
    correctPairs scb count (i + 1)
      (if s.first (i + 1) ≤ s.first i ∧ compareSlots scb s i (i + 1) = .gt then
        swap scb i (i + 1) s
      else s)

/-- `sort` without `scb_dup_callback`. -/
def sort (scb : SortArea) (s : SortBuffer) : Option SortBuffer := do
  let s := { s with pointers := Function.update s.pointers s.nextPointer scb.highKey }
  let n := s.nextPointer - 1
  let s ← quick scb n (2 * n + 2) [(1, n)] s
  some (correctPairs scb (n - 1) 1 s)

end Firebird.Jrd.Sort
