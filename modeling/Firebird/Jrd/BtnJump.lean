import Firebird.Jrd.Btn

/-!
# Jump tables in the bytes of an index page

The functions of `btn.cpp` that read and write the jump information of a page with large keys, and
its jump nodes. The offset of a jump node is that of a node on the page.
-/
namespace Firebird.Jrd.Btn

open Lib Btr Memory List

def btrNodes : Nat := 34

def putShort (value : Nat) : List UInt8 := [UInt8.ofNat (value % 256), UInt8.ofNat (value / 256)]

def getShort (page : Page) (p : Nat) : Nat := (page p).toNat + (page (p + 1)).toNat * 256

structure IndexJumpInfo where
  firstNodeOffset : Nat
  jumpAreaSize : Nat
  jumpers : Nat

def readJumpInfo (page : Page) (pagePointer : Nat) : IndexJumpInfo × Nat :=
  (⟨getShort page pagePointer, getShort page (pagePointer + 2), (page (pagePointer + 4)).toNat⟩,
    pagePointer + 5)

def jumpInfoBytes (jumpInfo : IndexJumpInfo) : List UInt8 :=
  putShort jumpInfo.firstNodeOffset ++ putShort jumpInfo.jumpAreaSize ++
    [UInt8.ofNat jumpInfo.jumpers]

def writeJumpInfo (page : Page) (jumpInfo : IndexJumpInfo) : Page × Nat :=
  (store page btrNodes (jumpInfoBytes jumpInfo), btrNodes + 5)

/-- `BTreeNode::readJumpNode`: the jump node and the pointer behind it. -/
def readJumpNode (page : Page) (pagePointer : Nat) : IndexJumpNode × Nat :=
  let (jumpPrefix, pagePointer) := getNumber page 128 1 0 pagePointer
  let (length, pagePointer) := getNumber page 128 1 0 pagePointer
  (⟨jumpPrefix, load page (pagePointer + 2) length, getShort page pagePointer⟩,
    pagePointer + 2 + length)

def jumpNodeBytes (jumpNode : IndexJumpNode) : List UInt8 :=
  putLength jumpNode.jumpPrefix ++ putLength jumpNode.data.length ++ putShort jumpNode.offset ++
    jumpNode.data

def writeJumpNode (page : Page) (jumpNode : IndexJumpNode) (pagePointer : Nat) : Page × Nat :=
  (store page pagePointer (jumpNodeBytes jumpNode), pagePointer + (jumpNodeBytes jumpNode).length)

/-- `BTreeNode::getPointerFirstNode`; `jumpInfo` is whether the page has jump information. -/
def getPointerFirstNode (page : Page) (jumpInfo : Bool) : Nat :=
  if jumpInfo then (readJumpInfo page btrNodes).1.firstNodeOffset else btrNodes

variable {page : Page} {p n : Nat} {j : IndexJumpNode} {info : IndexJumpInfo}

theorem getShort_of_holds (h : Holds page p (putShort n)) (hn : n < 65536) :
    getShort page p = n := by
  obtain ⟨hlow, hhigh, -⟩ := h
  rw [getShort, hlow, hhigh, toNat_ofNat_of_lt (by omega), toNat_ofNat_of_lt (by omega)]
  omega

structure StorableInfo (info : IndexJumpInfo) : Prop where
  first_lt : info.firstNodeOffset < 65536
  area_lt : info.jumpAreaSize < 65536
  jumpers_lt : info.jumpers < 256

@[simp]
theorem length_jumpInfoBytes : (jumpInfoBytes info).length = 5 := rfl

theorem readJumpInfo_of_holds (h : StorableInfo info) (hholds : Holds page p (jumpInfoBytes info)) :
    readJumpInfo page p = (info, p + 5) := by
  rw [jumpInfoBytes, holds_append, holds_append] at hholds
  obtain ⟨⟨hfirst, harea⟩, hjumpers, -⟩ := hholds
  simp only [putShort, length_cons, length_nil, length_append] at harea hjumpers
  rw [readJumpInfo, getShort_of_holds hfirst h.first_lt, getShort_of_holds harea h.area_lt,
    hjumpers, toNat_ofNat_of_lt h.jumpers_lt]

structure StorableJump (j : IndexJumpNode) : Prop where
  prefix_lt : j.jumpPrefix < 2 ^ 14
  length_lt : j.data.length < 2 ^ 14
  offset_lt : j.offset < 65536

theorem readJumpNode_of_holds (h : StorableJump j) (hholds : Holds page p (jumpNodeBytes j)) :
    readJumpNode page p = (j, p + (jumpNodeBytes j).length) := by
  rw [jumpNodeBytes, holds_append, holds_append, holds_append] at hholds
  obtain ⟨⟨⟨hpre, hlength⟩, hoffset⟩, hdata⟩ := hholds
  rw [length_append] at hoffset
  simp only [length_append] at hdata
  rw [readJumpNode, getNumber_putLength hpre h.prefix_lt]
  simp only [getNumber_putLength hlength h.length_lt]
  have hput : (putShort j.offset).length = 2 := rfl
  rw [hput, ← Nat.add_assoc, ← Nat.add_assoc] at hdata
  rw [← Nat.add_assoc] at hoffset
  rw [getShort_of_holds hoffset h.offset_lt, hdata.load_eq]
  simp [jumpNodeBytes, hput, Nat.add_assoc]

end Firebird.Jrd.Btn
