import Firebird.Jrd.SortQuick

/-!
# Writing a run

The two ways in which `order_and_save` writes the records of a sorted buffer: they are copied one by
one into the memory of the temporary space, or `order` brings them into their order within the
buffer, from where they are written as one block. A pointer that is `NULL` is that of a record that
has been eliminated as a duplicate.
-/
namespace Firebird.Jrd.Sort

open Lib Memory

def SortBuffer.record (scb : SortArea) (s : SortBuffer) (slot : Nat) : List UInt32 :=
  load s.memory (s.pointers slot) (scb.longs - sizeofSrBckptrInLongs)

/-- `run_records`, over the given number of slots from `ptr` on. -/
def runRecords (s : SortBuffer) : Nat → Nat → Nat
  | 0, _ => 0
  | count + 1, ptr =>
    if s.pointers ptr = 0 then runRecords s count (ptr + 1)
    else runRecords s count (ptr + 1) + 1

/-- The branch with `memcpy`: what it puts into `mem`. -/
def copyRecords (scb : SortArea) (s : SortBuffer) : Nat → Nat → List UInt32
  | 0, _ => []
  | count + 1, ptr =>
    if s.pointers ptr = 0 then copyRecords scb s count (ptr + 1)
    else s.record scb ptr ++ copyRecords scb s count (ptr + 1)

/-- `NULL` in `sr_bckptr` -/
def nullBckptr : List UInt32 := [0, 0]

/-- `*lower_limit` -/
def bckptrAt (m : Nat → UInt32) (record : Nat) : List UInt32 := load m record sizeofSrBckptrInLongs

def SortArea.slotOf (scb : SortArea) (bckptr : List UInt32) : Nat :=
  ((bckptr.getD 0 0).toNat + (bckptr.getD 1 0).toNat * 2 ^ 32 - 4 * scb.memory) / 8

/-- The variables of `order`. -/
structure OrderState where
  buffer : SortBuffer
  output : Nat
  lowerLimit : Nat

def advance (scb : SortArea) (m : Nat → UInt32) : Nat → Nat → Option Nat
  | 0, _ => none
  | fuel + 1, lowerLimit =>
    if bckptrAt m lowerLimit = nullBckptr ∧ lowerLimit < scb.endMemory then
      advance scb m fuel (lowerLimit + scb.longs)
    else some lowerLimit

/-- The body of the loop, for the key address in a slot. -/
def orderRecord (scb : SortArea) (key : Nat) (o : OrderState) : Option OrderState := do
  let record := key - sizeofSrBckptrInLongs
  let length := scb.longs - sizeofSrBckptrInLongs
  let m := o.buffer.memory
  let lowerLimit ← advance scb m (scb.size + 1) o.lowerLimit
  if key = lowerLimit then
    some
      { buffer := { o.buffer with memory := move m o.output key length }
        output := o.output + length
        lowerLimit := lowerLimit }
  else if o.output + scb.longs - 1 ≤ lowerLimit then
    some
      { buffer := { o.buffer with memory := move (store m record nullBckptr) o.output key length }
        output := o.output + length
        lowerLimit := lowerLimit }
  else
    let buffer := load m key length
    let slot := scb.slotOf (bckptrAt m lowerLimit)
    some
      { buffer :=
          { o.buffer with
            pointers := Function.update o.buffer.pointers slot key
            memory := store (move m record lowerLimit scb.longs) o.output buffer }
        output := o.output + length
        lowerLimit := lowerLimit + scb.longs }

/-- The loop, over the given number of slots from `ptr` on. -/
def orderLoop (scb : SortArea) : Nat → Nat → OrderState → Option OrderState
  | 0, _, o => some o
  | count + 1, ptr, o =>
    if o.buffer.pointers ptr = 0 then orderLoop scb count (ptr + 1) o
    else do
      let o ← orderRecord scb (o.buffer.pointers ptr) o
      orderLoop scb count (ptr + 1) o

/-- `order`: the buffer that it leaves, and the number of records. -/
def order (scb : SortArea) (s : SortBuffer) : Option (SortBuffer × Nat) := do
  let o ← orderLoop scb (s.nextPointer - 1) 1 ⟨s, s.lastRecord, s.lastRecord⟩
  some (o.buffer, (o.output - s.lastRecord) / (scb.longs - sizeofSrBckptrInLongs))

end Firebird.Jrd.Sort
