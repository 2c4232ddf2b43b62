import Firebird.Machine
import Firebird.Lib.Bitmap

/-!
# Page allocation

Page inventory pages and the functions of `pag.cpp` that allocate and release pages. A page that is
free has its bit set in the inventory. The last page of an inventory is never handed out: it becomes
the next inventory page.
-/
namespace Firebird.Jrd

open Lib (Bitmap.mask Bitmap.set Bitmap.clear)

/-- `page_inv_page` without its header. -/
structure PageInvPage where
  pipMin : Int
  pipBits : Nat → BitVec 8

/-- A page space, as far as allocation goes: its inventory pages with their page numbers. -/
structure PageSpace where
  pipHighWater : Int
  pips : List (Int × PageInvPage)

/-- Whether `CCH_fake` lets `PAG_allocate` have a candidate. `thrown` stands for the failure to
write the page when it is new to the file: `PAG_allocate` is left by an exception then. -/
inductive Fake where
  | refused | faked | thrown
  deriving DecidableEq

/-- `dbb_page_size - OFFSETA(page_inv_page*, pip_bits)` -/
def bytesBitPIP (pageSize : Nat) : Nat := pageSize - 20

def pagesPerPIP (pageSize : Nat) : Nat := bytesBitPIP pageSize * 8

namespace PageSpace

/-- `CCH_FETCH` of a page that has to be an inventory page. -/
def fetch (page : Int) (s : PageSpace) : Option PageInvPage :=
  (s.pips.find? fun p => p.1 = page).map (·.2)

def mark (page : Int) (pip : PageInvPage) (s : PageSpace) : PageSpace :=
  { s with pips := s.pips.map fun p => if p.1 = page then (page, pip) else p }

end PageSpace

/-- `PAG_format_pip`: `ppFirst` is 1, and the first three pages are in use. -/
def pagFormatPip : PageSpace :=
  { pipHighWater := 0
    pips := [(1, { pipMin := 4, pipBits := Function.update (fun _ => 255#8) 0 (255#8 &&& ~~~ 7#8)
      })] }

def pipPage (pageSize : Nat) (sequence : Int) : Int :=
  if sequence = 0 then 1 else slong (sequence * pagesPerPIP pageSize - 1)

/-- What the search of an inventory page comes to; `nothing` with the lowest candidate so far. -/
inductive Found where
  | nothing (pipMin : Int)
  | found (relativeBit : Nat) (pipMin : Int)
  | thrown
  deriving DecidableEq

/-- The bits `is` of the byte `j`. -/
def tryBits (fake : Nat → Fake) (byte : BitVec 8) (j : Nat) : List Nat → Int → Found
  | [], pipMin => .nothing pipMin
  | i :: is, pipMin =>
    if Bitmap.mask i &&& byte ≠ 0 then
      let relativeBit := j * 8 + i
      let pipMin := min pipMin relativeBit
      match fake relativeBit with
      | .refused => tryBits fake byte j is pipMin
      | .faked => .found relativeBit pipMin
      | .thrown => .thrown
    else tryBits fake byte j is pipMin

/-- The bytes `js` of an inventory page. -/
def tryBytes (fake : Nat → Fake) (bits : Nat → BitVec 8) : List Nat → Int → Found
  | [], pipMin => .nothing pipMin
  | j :: js, pipMin =>
    if bits j ≠ 0 then
      match tryBits fake (bits j) j (List.range 8) pipMin with
      | .nothing pipMin => tryBytes fake bits js pipMin
      | r => r
    else tryBytes fake bits js pipMin

/-- The search of one inventory page, from the byte of `pip_min` on. -/
def searchPip (pageSize : Nat) (fake : Nat → Fake) (pip : PageInvPage) : Found :=
  let start := (pip.pipMin / 8).toNat
  tryBytes fake pip.pipBits (List.range' start (bytesBitPIP pageSize - start)) (2 ^ 31 - 1)

def pageNum (pageSize : Nat) (sequence : Int) (relativeBit : Nat) : Int :=
  slong (relativeBit + sequence * pagesPerPIP pageSize)

/-- The loop of `PAG_allocate` over the inventory pages; `none` if it is left by an exception.
`fuel` bounds the inventory pages it looks at. -/
def searchPips (pageSize : Nat) (fake : Int → Fake) (s : PageSpace) :
    Nat → Int → Option (Int × PageInvPage × Nat × Int)
  | 0, _ => none
  | fuel + 1, sequence =>
    match s.fetch (pipPage pageSize sequence) with
    | none => none
    | some pip =>
      match searchPip pageSize (fun b => fake (pageNum pageSize sequence b)) pip with
      | .nothing _ => searchPips pageSize fake s fuel (slong (sequence + 1))
      | .found relativeBit pipMin => some (sequence, pip, relativeBit, pipMin)
      | .thrown => none

def takeBit (relativeBit : Nat) (pipMin : Int) (pip : PageInvPage) : PageInvPage :=
  { pipMin := if pipMin = relativeBit then slong (pipMin + 1) else pipMin
    pipBits := Bitmap.clear pip.pipBits relativeBit }

/-- `PAG_allocate` up to the test for the last page of an inventory page: the page, whether it is
that one, and the page space without it. -/
def takePage (pageSize : Nat) (fake : Int → Fake) (s : PageSpace) :
    Option (Int × Bool × PageSpace) :=
  match searchPips pageSize fake s (s.pips.length + 1) s.pipHighWater with
  | none => none
  | some (sequence, pip, relativeBit, pipMin) =>
    some (pageNum pageSize sequence relativeBit, relativeBit == pagesPerPIP pageSize - 1,
      { s.mark (pipPage pageSize sequence) (takeBit relativeBit pipMin pip) with
        pipHighWater := sequence })

/-- A new inventory page: `CCH_fake` has cleared it, so `pip_min` is 0. -/
def formattedPip : PageInvPage := ⟨0, fun _ => 255#8⟩

/-- What `PAG_allocate` returns, if it returns, with the pages it has made inventory pages. -/
structure Allocation where
  page : Option Int
  formatted : List Int
  space : PageSpace

/-- `PAG_allocate`. `depth` bounds the inventory pages it may format; `fake` is asked anew after
each. -/
def pagAllocate (pageSize : Nat) (fake : Nat → Int → Fake) : Nat → PageSpace → Allocation
  | 0, s =>
    match takePage pageSize (fake 0) s with
    | some (page, false, s') => ⟨some page, [], s'⟩
    | _ => ⟨none, [], s⟩
  | depth + 1, s =>
    match takePage pageSize (fake (depth + 1)) s with
    | none => ⟨none, [], s⟩
    | some (page, false, s') => ⟨some page, [], s'⟩
    | some (page, true, s') =>
      let r := pagAllocate pageSize fake depth { s' with pips := s'.pips ++ [(page, formattedPip)] }
      { r with formatted := page :: r.formatted }

def pagReleasePage (pageSize : Nat) (number : Int) (s : PageSpace) : PageSpace :=
  let sequence := number / pagesPerPIP pageSize
  let relativeBit := (number % pagesPerPIP pageSize).toNat
  match s.fetch (pipPage pageSize sequence) with
  | none => s
  | some pip =>
    { s.mark (pipPage pageSize sequence)
        { pipMin := min pip.pipMin relativeBit, pipBits := Bitmap.set pip.pipBits relativeBit } with
      pipHighWater := min s.pipHighWater sequence }

/-- The byte at `pip_bits[i]`: below `pip_bits` there is `pip_min`, in the order of a little-endian
host. -/
def PageInvPage.byteAt (pip : PageInvPage) (i : Int) : BitVec 8 :=
  if 0 ≤ i then pip.pipBits i.toNat
  else (BitVec.ofInt 32 pip.pipMin).extractLsb' (8 * (i + 4).toNat) 8

/-- The loop that passes over bytes without a page in use, downwards from byte `n - 5`; `none` if it
would leave `pip_min` as well. -/
def lastUsedByte (pip : PageInvPage) : Nat → Option Int
  | 0 => none
  | n + 1 =>
    if pip.byteAt ((n : Int) - 4) = 255#8 then lastUsedByte pip n else some ((n : Int) - 4)

/-- The highest bit among the first `n` that is not set in the byte, or -1. -/
def lastUsedBit (byte : BitVec 8) : Nat → Int
  | 0 => -1
  | n + 1 => if byte &&& Bitmap.mask n = 0 then n else lastUsedBit byte n

/-- The relative bit that `PAG_last_page` computes for an inventory page. -/
def lastRelativeBit (pageSize : Nat) (pip : PageInvPage) : Option Int :=
  (lastUsedByte pip (bytesBitPIP pageSize + 4)).map fun i =>
    ulong (i * 8 + lastUsedBit (pip.byteAt i) 8)

/-- `PAG_last_page`, whose `sequence` is a `USHORT`. -/
def pagLastPage (pageSize : Nat) (s : PageSpace) : Nat → Nat → Option Int
  | 0, _ => none
  | fuel + 1, sequence =>
    let page := if sequence = 0 then 1 else slong (ulong (sequence * pagesPerPIP pageSize) - 1)
    match (s.fetch page).bind (lastRelativeBit pageSize) with
    | none => none
    | some relativeBit =>
      if relativeBit ≠ pagesPerPIP pageSize - 1 then
        some (slong (ulong (sequence * pagesPerPIP pageSize + relativeBit)))
      else pagLastPage pageSize s fuel (ushort (sequence + 1))

end Firebird.Jrd
