import Mathlib.Data.Int.Basic
import Mathlib.Logic.Function.Basic
import Firebird.Jrd.Event

/-!
# The region of the event table

The allocator of `event.cpp`. A block is known by its offset in the region, and a pointer to a link
is the one of `evh_free` or the one of `frb_next` in a block. All numbers are of type `SLONG`, but
the length that is asked for.
-/
namespace Firebird.Jrd.Alloc

open Event (slong)

structure Frb where
  hdrLength : Int
  hdrType : Nat
  frbNext : Int

/-- The global section, as far as the allocator knows it. -/
structure Region where
  evhLength : Int
  evhFree : Int
  block : Int → Frb

def typeFrb : Nat := 2

def sizeofFrb : Int := 12

def eventExtendSize : Int := 32768

/-- `ROUNDUP(length, sizeof(IPTR))`, as an `ULONG`. -/
def roundupIptr (length : Int) : Int := (length + 7) / 8 * 8 % 2 ^ 32

def Region.link (r : Region) : Option Int → Int
  | none => r.evhFree
  | some free => (r.block free).frbNext

def Region.setLink (r : Region) (ptr : Option Int) (next : Int) : Region :=
  match ptr with
  | none => { r with evhFree := next }
  | some free =>
    { r with block := Function.update r.block free { r.block free with frbNext := next } }

def Region.setBlock (r : Region) (offset : Int) (b : Frb) : Region :=
  { r with block := Function.update r.block offset b }

def initRegion (sizeofEvh mapped : Int) : Region where
  evhLength := mapped
  evhFree := sizeofEvh
  block := Function.update (fun _ => ⟨0, 0, 0⟩) sizeofEvh ⟨mapped - sizeofEvh, typeFrb, 0⟩

/-- The loop of `free_global`: the free block before a block, and the pointer to the next one. `n`
is a bound for the number of free blocks. -/
def findPrior (r : Region) (block : Int) :
    Nat → Option Int → Option Int → Option (Option Int × Option Int)
  | 0, _, _ => none
  | n + 1, prior, ptr =>
    let free := r.link ptr
    if free = 0 ∨ block < free then some (prior, ptr)
    else findPrior r block n (some free) (some free)

def mergeBlock (r : Region) (block next : Int) : Region :=
  r.setBlock block { r.block block with
    hdrLength := slong ((r.block block).hdrLength + (r.block next).hdrLength)
    frbNext := (r.block next).frbNext }

def mergePrior (r : Region) (block : Int) : Option Int → Region
  | none => r
  | some prior => if prior + (r.block prior).hdrLength = block then mergeBlock r prior block else r

/-- The end of `free_global`. -/
def linkBlock (r : Region) (block : Int) (prior ptr : Option Int) : Region :=
  let free := r.link ptr
  let r := r.setBlock block { r.block block with hdrType := typeFrb, frbNext := free }
  let r := r.setLink ptr block
  let r := if block + (r.block block).hdrLength = free then mergeBlock r block free else r
  mergePrior r block prior

/-- The free block before a block ends behind the start of the block. -/
def overlaps (r : Region) (block : Int) : Option Int → Bool
  | none => false
  | some prior => block < prior + (r.block prior).hdrLength

/-- `free_global`; nothing for a bad block. -/
def freeGlobal (r : Region) (block : Int) : Option Region := do
  let (prior, ptr) ← findPrior r block r.evhLength.toNat none none
  if block ≤ 0 ∨ block > r.evhLength ∨ overlaps r block prior then none
  else some (linkBlock r block prior ptr)

/-- The loop of `alloc_global`: the pointer to the best free block, and what it is longer. -/
def findBest (r : Region) (length : Int) :
    Nat → Option Int → Option (Option Int × Int) → Option (Option (Option Int × Int))
  | 0, _, _ => none
  | n + 1, ptr, best =>
    let free := r.link ptr
    if free = 0 then some best
    else
      let tail := slong ((r.block free).hdrLength - length)
      let better : Bool := match best with
        | none => true
        | some (_, bestTail) => decide (tail < bestTail)
      findBest r length n (some free) (if tail ≥ 0 ∧ better then some (ptr, tail) else best)

/-- The end of `alloc_global`: the block, and the region without it. -/
def takeBlock (r : Region) (type : Nat) (length : Int) (best : Option Int) (bestTail : Int) :
    Int × Region :=
  let free := r.link best
  if bestTail < sizeofFrb then
    let r := r.setLink best (r.block free).frbNext
    (free, r.setBlock free { r.block free with hdrType := type, frbNext := 0 })
  else
    let rest := slong ((r.block free).hdrLength - length)
    let r := r.setBlock free { r.block free with hdrLength := rest }
    (free + rest, r.setBlock (free + rest) ⟨slong length, type, 0⟩)

/-- The region once the file has been remapped: the new part of it is freed. A mapping of a length
that is no `SLONG` fails. -/
def extendRegion (r : Region) : Option Region :=
  let evLength := slong (r.evhLength + eventExtendSize)
  if evLength ≤ 0 then none
  else freeGlobal { r.setBlock r.evhLength ⟨evLength - r.evhLength, typeFrb, 0⟩ with
    evhLength := evLength } r.evhLength

/-- `alloc_global`; nothing if the space is exhausted. -/
def allocGlobal (r : Region) (type : Nat) (length : Int) : Option (Int × Region) := do
  let length := roundupIptr length
  match ← findBest r length r.evhLength.toNat none none with
  | some (best, bestTail) => return takeBlock r type length best bestTail
  | none =>
    let r ← extendRegion r
    let (best, bestTail) ← ← findBest r (roundupIptr length) r.evhLength.toNat none none
    return takeBlock r type (roundupIptr length) best bestTail

end Firebird.Jrd.Alloc
