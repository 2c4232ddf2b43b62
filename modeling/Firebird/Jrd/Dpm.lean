import Mathlib.Data.List.Basic
import Mathlib.Tactic.Ring

/-!
# Data pages

The functions of `dpm.epp` that place records on a data page. A page is the vector of its slots, up
to `dpg_count`, and its bytes; the header of the page is left out. The variables of type `SSHORT` go
through a function that says what an assignment does with a value: it wraps, or it is checked.
-/
namespace Firebird.Jrd.Dpm

def wrap (x : Int) : Option Int := some ((x + 2 ^ 15) % 2 ^ 16 - 2 ^ 15)

def checked (x : Int) : Option Int := if -2 ^ 15 ≤ x ∧ x < 2 ^ 15 then some x else none

def ushort (x : Int) : Nat := (x % 2 ^ 16).toNat

structure DpgRepeat where
  dpgOffset : Nat
  dpgLength : Nat

structure DataPage where
  dbbPageSize : Nat
  dpgRpt : List DpgRepeat
  bytes : Nat → UInt8

def DataPage.dpgCount (page : DataPage) : Nat := page.dpgRpt.length

/-- `sizeof(data_page)`, with one slot. -/
def sizeofDataPage : Int := 28

def sizeofDpgRepeat : Int := 4

def rhdSize : Int := 13

def rhdfSize : Int := 22

def highWater (x : Int) : Int := sizeofDataPage + sizeofDpgRepeat * (x - 1)

/-- `ROUNDUP(n, ODS_ALIGNMENT)` -/
def roundup (n : Int) : Int := (n + 3) / 4 * 4

/-- `page->dpg_rpt[line]` -/
def DataPage.slot (page : DataPage) (line : Nat) : DpgRepeat := page.dpgRpt.getD line ⟨0, 0⟩

def DataPage.setSlot (page : DataPage) (line : Nat) (s : DpgRepeat) : DataPage :=
  { page with dpgRpt := page.dpgRpt.set line s }

def DataPage.extend (page : DataPage) (line : Nat) : DataPage :=
  if line = page.dpgCount then { page with dpgRpt := page.dpgRpt ++ [⟨0, 0⟩] } else page

def store (bytes : Nat → UInt8) (offset : Nat) (data : List UInt8) : Nat → UInt8 :=
  fun a => if offset ≤ a ∧ a < offset + data.length then data.getD (a - offset) 0 else bytes a

def DataPage.write (page : DataPage) (offset : Nat) (fields : List (Nat × List UInt8)) : DataPage :=
  { page with
    bytes := fields.foldl (fun bytes field => store bytes (offset + field.1) field.2) page.bytes }

/-! ## Record headers -/

def le16 (x : UInt16) : List UInt8 := [x.toUInt8, (x >>> 8).toUInt8]

def le32 (x : UInt32) : List UInt8 :=
  [x.toUInt8, (x >>> 8).toUInt8, (x >>> 16).toUInt8, (x >>> 24).toUInt8]

def rhdDeleted : UInt16 := 1
def rhdChain : UInt16 := 2
def rhdFragment : UInt16 := 4
def rhdIncomplete : UInt16 := 8
def rhdBlob : UInt16 := 16
def rhdDelta : UInt16 := 32
def rhdGcActive : UInt16 := 256

structure Rpb where
  rpbTransactionNr : UInt32
  rpbBPage : UInt32
  rpbBLine : UInt16
  rpbFlags : UInt16
  rpbFormatNumber : UInt8

/-- The fields of a `rhd`, with their places. -/
def Rpb.rhd (rpb : Rpb) : List (Nat × List UInt8) :=
  [(10, le16 rpb.rpbFlags), (0, le32 rpb.rpbTransactionNr), (12, [rpb.rpbFormatNumber]),
    (4, le32 rpb.rpbBPage), (8, le16 rpb.rpbBLine)]

/-- `rhd_flags` of the header at an offset. -/
def DataPage.rhdFlags (page : DataPage) (offset : Nat) : UInt16 :=
  (page.bytes (offset + 10)).toUInt16 ||| (page.bytes (offset + 11)).toUInt16 <<< 8

/-- `rhd_b_page` is zero. -/
def DataPage.noBPage (page : DataPage) (offset : Nat) : Bool :=
  page.bytes (offset + 4) = 0 ∧ page.bytes (offset + 5) = 0 ∧ page.bytes (offset + 6) = 0 ∧
    page.bytes (offset + 7) = 0

def DataPage.setFlags (page : DataPage) (offset : Nat) (f : UInt16 → UInt16) : DataPage :=
  page.write offset [(10, le16 (f (page.rhdFlags offset)))]

/-- `MOVE_FAST` of a record to another place in another page. -/
def moveFast (source : Nat → UInt8) (offset : Nat) (target : Nat → UInt8) (space l : Int) :
    Nat → UInt8 :=
  fun a => if space ≤ a ∧ (a : Int) < space + l then source (offset + (a - space).toNat) else target
    a

/-- The loop of `DPM_compress`. -/
def compressSlots (w : Int → Option Int) (bytes : Nat → UInt8) :
    List DpgRepeat → Int → (Nat → UInt8) → Option (List DpgRepeat × Int × (Nat → UInt8))
  | [], space, temp => some ([], space, temp)
  | index :: rest, space, temp =>
    if index.dpgOffset = 0 then do
      let (slots, space, temp) ← compressSlots w bytes rest space temp
      return (index :: slots, space, temp)
    else do
      let l ← w (roundup index.dpgLength)
      let space ← w (space - l)
      let (slots, space', temp) ←
        compressSlots w bytes rest space (moveFast bytes index.dpgOffset temp space l)
      return ({ index with dpgOffset := ushort space } :: slots, space', temp)

def dpmCompress (w : Int → Option Int) (page : DataPage) : Option (Int × DataPage) := do
  let space ← w page.dbbPageSize
  let (slots, space, temp) ← compressSlots w page.bytes page.dpgRpt space (fun _ => 0)
  return (space, { page with
    dpgRpt := slots
    bytes := fun a => if space ≤ a ∧ a < page.dbbPageSize then temp a else page.bytes a })

/-- Where `find_space` leaves room for a back version. -/
def DataPage.reserves (page : DataPage) (offset : Nat) : Bool :=
  page.noBPage offset ∧
    page.rhdFlags offset &&& (rhdChain ||| rhdBlob ||| rhdDeleted ||| rhdFragment) = 0

/-- The loop of `find_space`: the lowest offset, what is used, and an empty slot, none of them if it
is 0. -/
def findSlots (w : Int → Option Int) (reserves : Nat → Bool) :
    List DpgRepeat → Nat → Int → Int → Nat → Option (Int × Int × Nat)
  | [], _, space, used, slot => some (space, used, slot)
  | index :: rest, i, space, used, slot =>
    if index.dpgOffset ≠ 0 then do
      let space ← w (min space index.dpgOffset)
      let used ← w (used + roundup index.dpgLength)
      let used ← if reserves index.dpgOffset then w (used + rhdfSize) else some used
      findSlots w reserves rest (i + 1) space used slot
    else findSlots w reserves rest (i + 1) space used (if slot = 0 then i else slot)

/-- The end of `find_space`, if there is space on the page. -/
def takeSpace (w : Int → Option Int) (page : DataPage) (size alignedSize space : Int) (slot : Nat) :
    Option (Nat × DataPage) := do
  let recSegments : Int := page.dpgCount + if slot = 0 then 1 else 0
  let (space, page) ←
    if alignedSize > space - highWater recSegments then dpmCompress w page else some (space, page)
  let slot := if slot = 0 then page.dpgCount else slot
  let space ← w (space - alignedSize)
  return (slot, (page.extend slot).setSlot slot ⟨ushort space, ushort size⟩)

/-- `find_space`: the slot and the page, or no space. -/
def findSpace (w : Int → Option Int) (page : DataPage) (size : Int) (primary reserving : Bool) :
    Option (Option (Nat × DataPage)) := do
  let alignedSize ← w (roundup size)
  let space ← w page.dbbPageSize
  let used ← w (highWater page.dpgCount)
  let (space, used, slot) ←
    findSlots w (fun offset => primary && reserving && page.reserves offset) page.dpgRpt 0 space
      used 0
  let used ← if slot = 0 then w (used + sizeofDpgRepeat) else some used
  if alignedSize > page.dbbPageSize - used then return none
  else return some (← takeSpace w page size alignedSize space slot)

/-- The bytes that `DPM_chain` and `DPM_update` add to a short record. -/
def fillOf (size : Int) : Int := if rhdfSize - rhdSize - size < 0 then 0 else rhdfSize - rhdSize -
    size

def Rpb.record (rpb : Rpb) (data : List UInt8) (fill : Int) : List (Nat × List UInt8) :=
  rpb.rhd ++ [(13, data ++ List.replicate fill.toNat 0)]

/-- The loop of `DPM_chain`: an empty slot, the bytes available and the lowest offset. -/
def chainSlots (w : Int → Option Int) (count : Nat) :
    List DpgRepeat → Nat → Nat → Int → Int → Option (Nat × Int × Int)
  | [], _, slot, available, space => some (slot, available, space)
  | index :: rest, n, slot, available, space =>
    let slot := if index.dpgLength = 0 ∧ slot = count then n else slot
    if index.dpgLength ≠ 0 ∧ index.dpgOffset ≠ 0 then do
      let offset ← w index.dpgOffset
      let available ← w (available - roundup index.dpgLength)
      let space ← w (min space offset)
      chainSlots w count rest (n + 1) slot available space
    else chainSlots w count rest (n + 1) slot available space

/-- What a new slot of `DPM_chain` takes. -/
def chainTop (w : Int → Option Int) (page : DataPage) (slot : Nat) (top available : Int) :
    Option (Int × Int) :=
  if slot = page.dpgCount then do
    let top ← w (top + sizeofDpgRepeat)
    let available ← w (available - sizeofDpgRepeat)
    return (top, available)
  else some (top, available)

/-- The place of a record in `DPM_chain` and `DPM_update`, below the other ones. -/
def lowerSpace (w : Int → Option Int) (page : DataPage) (space length top : Int) :
    Option (Int × DataPage) := do
  let space ← w (space - length)
  if space < top then
    let (space, page) ← dpmCompress w page
    let space ← w (space - length)
    return (space, page)
  else return (space, page)

/-- The end of `DPM_chain`: the old version goes to another slot. -/
def swapRecord (page : DataPage) (pageNumber : UInt32) (line slot : Nat) (space : Int) (rpb : Rpb)
    (data : List UInt8) (fill : Int) : DataPage :=
  let page := page.extend slot
  let old := page.slot line
  let page := page.setFlags old.dpgOffset (· ||| rhdChain)
  let page := page.setSlot slot old
  let page := page.setSlot line ⟨ushort space, ushort (rhdSize + data.length + fill)⟩
  let rpb := { rpb with rpbBPage := pageNumber, rpbBLine := slot.toUInt16 }
  page.write (ushort space) (rpb.record data fill)

/-- `DPM_chain`, once the record is fetched: the slot of the old version and the page, or no space.
-/
def dpmChain (w : Int → Option Int) (page : DataPage) (pageNumber : UInt32) (line : Nat) (rpb : Rpb)
    (data : List UInt8) : Option (Option (Nat × DataPage)) :=
  let size : Int := data.length
  if size > page.dbbPageSize - (sizeofDataPage + rhdSize) then some none
  else do
    let fill := if rpb.rpbFlags &&& rhdDeleted ≠ 0 then 0 else fillOf size
    let length := roundup (rhdSize + size + fill)
    let space ← w page.dbbPageSize
    let top ← w (highWater page.dpgCount)
    let available ← w (page.dbbPageSize - top)
    let (slot, available, space) ←
      chainSlots w page.dpgCount page.dpgRpt 0 page.dpgCount available space
    let (top, available) ← chainTop w page slot top available
    if length > available then return none
    else
      let (space, page) ← lowerSpace w page space length top
      return some (slot, swapRecord page pageNumber line slot space rpb data fill)

/-- The loop of `DPM_update`. -/
def updateSlots (w : Int → Option Int) : List DpgRepeat → Int → Int → Option (Int × Int)
  | [], available, space => some (available, space)
  | index :: rest, available, space => do
    let offset ← w index.dpgOffset
    if offset ≠ 0 then do
      let available ← w (available - roundup index.dpgLength)
      let space ← w (min space offset)
      updateSlots w rest available space
    else updateSlots w rest available space

/-- A record that is stored where `find_space` finds space: its slot, if it finds any, and the
page. -/
def storeRecord (w : Int → Option Int) (page : DataPage) (size : Int) (primary reserving : Bool)
    (record : List UInt8) : Option (Option Nat × DataPage) := do
  match ← findSpace w page size primary reserving with
  | none => return (none, page)
  | some (slot, page) =>
    return (some slot, page.write (page.slot slot).dpgOffset [(0, record.take size.toNat)])

/-- A tail that `fragment` stores: on this page, if there is space for it. -/
def storeTail (w : Int → Option Int) (page : DataPage) :
    Option (Int × List UInt8) → Option (Option Nat × DataPage)
  | none => some (none, page)
  | some (size, record) => storeRecord w page size false false record

/-- The fields of a `rhdf` that a version in work has. -/
def Rpb.claim (rpb : Rpb) : List (Nat × List UInt8) :=
  [(0, le32 rpb.rpbTransactionNr), (4, le32 rpb.rpbBPage), (8, le16 rpb.rpbBLine)]

/-- The start of `fragment`: what is claimed on the page for the head. -/
def claimSpace (w : Int → Option Int) (page : DataPage) (line : Nat) (rpb : Rpb) (available : Int)
    (length : Nat) (transaction : UInt32) : Option (Int × DataPage) :=
  let offset := (page.slot line).dpgOffset
  if transaction ≠ rpb.rpbTransactionNr then
    let page := page.write offset [(0, le32 transaction)]
    let page := page.setFlags offset (· ||| rhdGcActive)
    some (length, page.setSlot line ⟨offset, length⟩)
  else if rpb.rpbFlags &&& rhdDelta ≠ 0 then
    let page := page.setFlags offset (· ||| rhdDelta)
    let page := page.setSlot line ⟨offset, length⟩
    some (length, page.write offset rpb.claim)
  else do
    let (space, page) ← dpmCompress w page
    let space ← w (space - available)
    let page := page.write (ushort space) [(10, le16 rhdDeleted), (16, le32 0), (20, le16 0)]
    let page := page.setSlot line ⟨ushort space, ushort available⟩
    some (available, page.write (ushort space) rpb.claim)

/-- `fragment`: the head stays in its slot, the tail goes elsewhere, perhaps to the same page.
`head` is what `SQZ_compress` writes, into what the header leaves of the space. -/
def fragment (w : Int → Option Int) (page : DataPage) (line : Nat) (rpb : Rpb) (available : Int)
    (length : Nat) (transaction : UInt32) (tail : Option (Int × List UInt8)) (fPage : UInt32)
    (fLine : UInt16) (head : List UInt8) : Option (Option Nat × DataPage) := do
  let (available, page) ← claimSpace w page line rpb available length transaction
  let (slot, page) ← storeTail w page tail
  let offset := (page.slot line).dpgOffset
  let page := page.write offset
    [(10, le16 (rhdIncomplete ||| rpb.rpbFlags)), (0, le32 rpb.rpbTransactionNr),
      (12, [rpb.rpbFormatNumber]), (16, le32 fPage), (20, le16 fLine)]
  let page := if transaction ≠ rpb.rpbTransactionNr then
    page.write offset [(4, le32 rpb.rpbBPage), (8, le16 rpb.rpbBLine)] else page
  return (slot, page.write offset [(22, head.take (available - rhdfSize).toNat)])

/-- What `DPM_update` needs if the record does not fit. -/
structure Fragment where
  transaction : UInt32
  tail : Option (Int × List UInt8)
  fPage : UInt32
  fLine : UInt16
  head : List UInt8

/-- `DPM_update`: the slot of the tail, if it is on the page, and the page. -/
def dpmUpdate (w : Int → Option Int) (page : DataPage) (line : Nat) (rpb : Rpb) (data : List UInt8)
    (f : Fragment) : Option (Option Nat × DataPage) := do
  let size : Int := data.length
  let fill := fillOf size
  let length := roundup (rhdSize + size + fill)
  let space ← w page.dbbPageSize
  let top ← w (highWater page.dpgCount)
  let available ← w (page.dbbPageSize - top)
  let old := page.slot line
  let oldLength ← w old.dpgLength
  let page := page.setSlot line { old with dpgLength := 0 }
  let (available, space) ← updateSlots w page.dpgRpt available space
  if length > available then
    fragment w page line rpb available oldLength.toNat f.transaction f.tail f.fPage f.fLine f.head
  else do
    let (space, page) ← lowerSpace w page space length top
    let page := page.setSlot line ⟨ushort space, ushort (rhdSize + size + fill)⟩
    return (none, page.write (ushort space) (rpb.record data fill))

/-- The number of slots that `DPM_backout` leaves, of at most `n`. -/
def backoutCount (slots : List DpgRepeat) : Nat → Nat
  | n + 2 => if (slots.getD (n + 1) ⟨0, 0⟩).dpgLength ≠ 0 then n + 2 else backoutCount slots (n + 1)
  | _ => 1

def dpmBackout (page : DataPage) (line bLine : Nat) : DataPage :=
  let old := page.slot bLine
  let page := (page.setSlot line old).setSlot bLine ⟨0, 0⟩
  let page := page.setFlags old.dpgOffset (· &&& ~~~(rhdChain ||| rhdGcActive))
  { page with dpgRpt := page.dpgRpt.take (backoutCount page.dpgRpt page.dpgCount) }

/-- The number of slots that `DPM_delete` leaves, of at most `n`. -/
def deleteCount (slots : List DpgRepeat) : Nat → Nat
  | 0 => 0
  | n + 1 => if (slots.getD n ⟨0, 0⟩).dpgOffset ≠ 0 then n + 1 else deleteCount slots n

/-- `DPM_delete`, as far as the page; nothing if there is no record. -/
def dpmDelete (page : DataPage) (line : Nat) : Option DataPage :=
  if (page.slot line).dpgOffset = 0 then none
  else
    let page := page.setSlot line ⟨0, 0⟩
    some { page with dpgRpt := page.dpgRpt.take (deleteCount page.dpgRpt page.dpgCount) }

end Firebird.Jrd.Dpm
