import Firebird.Lib.Memory
import Firebird.Jrd.Btr

/-!
# Nodes in the bytes of an index page

`BTreeNode::getNodeSize`, `writeNode` and `readNode` of `btn.cpp` and `btn.h` for pages with large
keys. A page is a memory of bytes, and pointers are addresses in it. Numbers are stored in groups of
seven bits, and the eighth bit tells that there is another group.
-/
namespace Firebird.Jrd.Btn

open Lib Btr Memory List

abbrev Page := Nat → UInt8

inductive InternalFlags
  | normal
  | endLevel
  | endBucket
  | zeroPrefixZeroLength
  | zeroLength
  | oneLength
  deriving DecidableEq

/-- `BTN_NORMAL_FLAG` to `BTN_ONE_LENGTH_FLAG` -/
def InternalFlags.toNat : InternalFlags → Nat
  | normal => 0
  | endLevel => 1
  | endBucket => 2
  | zeroPrefixZeroLength => 3
  | zeroLength => 4
  | oneLength => 5

/-- The flags that `getNodeSize` and `writeNode` determine. -/
def internalFlags (node : IndexNode) : InternalFlags :=
  if node.isEndLevel then .endLevel
  else if node.isEndBucket then .endBucket
  else if node.data.length = 0 then
    if node.nodePrefix = 0 then .zeroPrefixZeroLength else .zeroLength
  else if node.data.length = 1 then .oneLength
  else .normal

def InternalFlags.hasPrefix (f : InternalFlags) : Bool := f != .zeroPrefixZeroLength

def InternalFlags.hasLength (f : InternalFlags) : Bool :=
  f != .zeroPrefixZeroLength && f != .zeroLength && f != .oneLength

def recordNumberSize (number : Nat) : Nat :=
  if number &&& 0xFFF0000000 ≠ 0 then 5
  else if number &&& 0xFFFFE00000 ≠ 0 then 4
  else if number &&& 0xFFFFFFC000 ≠ 0 then 3
  else if number &&& 0xFFFFFFFF80 ≠ 0 then 2
  else 1

def pageNumberSize (number : Nat) : Nat :=
  if number &&& 0xF0000000 ≠ 0 then 5
  else if number &&& 0xFFE00000 ≠ 0 then 4
  else if number &&& 0xFFFFC000 ≠ 0 then 3
  else if number &&& 0xFFFFFF80 ≠ 0 then 2
  else 1

def lengthSize (number : Nat) : Nat :=
  if number &&& 0xFFFFC000 ≠ 0 then 3
  else if number &&& 0xFFFFFF80 ≠ 0 then 2
  else 1

def getNodeSize (node : IndexNode) (leafNode : Bool) : Nat :=
  let internalFlags := internalFlags node
  let number := node.recordNumber.toNat
  if node.isEndLevel then 1
  else
    1 + recordNumberSize (number >>> 5) +
      (if !leafNode then pageNumberSize node.pageNumber.toNat else 0) +
      (if internalFlags.hasPrefix then lengthSize node.nodePrefix else 0) +
      (if internalFlags.hasLength then lengthSize node.data.length else 0) + node.data.length

/-- The groups of a record number: `count` of them at most, and the last one is not written if bits
are left behind it. -/
def putRecordNumber : Nat → Nat → List UInt8
  | 0, _ => []
  | count + 1, number =>
    let tmp := number % 128
    let number := number / 128
    if number = 0 then [UInt8.ofNat tmp]
    else if count = 0 then []
    else UInt8.ofNat (tmp + 128) :: putRecordNumber count number

/-- The groups of another number: the last one of them is cut to `mask` values. -/
def putNumber (mask : Nat) : Nat → Nat → List UInt8
  | 0, number => [UInt8.ofNat (number % mask)]
  | count + 1, number =>
    let tmp := number % 128
    let number := number / 128
    if number > 0 then UInt8.ofNat (tmp + 128) :: putNumber mask count number
    else [UInt8.ofNat tmp]

def putPageNumber (number : Nat) : List UInt8 := putNumber 16 4 number

def putLength (number : Nat) : List UInt8 := putNumber 128 1 number

def nodeHeader (node : IndexNode) (leafNode : Bool) : List UInt8 :=
  let internalFlags := internalFlags node
  let number := node.recordNumber.toNat
  UInt8.ofNat (internalFlags.toNat * 32 + number % 32) ::
    if node.isEndLevel then []
    else
      putRecordNumber 5 (number / 32) ++
        (if !leafNode then putPageNumber node.pageNumber.toNat else []) ++
        (if internalFlags.hasPrefix then putLength node.nodePrefix else []) ++
        (if internalFlags.hasLength then putLength node.data.length else [])

/-- `BTreeNode::writeNode` with `withData`: the data of the node is a copy beside the page. The
bytes that the node takes are written, and the pointer is behind them. -/
def writeNode (page : Page) (node : IndexNode) (pagePointer : Nat) (leafNode : Bool) : Page × Nat :=
  let header := nodeHeader node leafNode
  let page := store page pagePointer header
  if node.isEndLevel then (page, pagePointer + header.length)
  else
    let pagePointer := pagePointer + header.length
    (store page pagePointer node.data, pagePointer + node.data.length)

/-- `BTreeNode::writeNode` without `withData`: the data of the node is on the page, at `data`, and
is moved first. -/
def writeNodeInPlace (page : Page) (node : IndexNode) (data pagePointer : Nat) (leafNode : Bool) :
    Page × Nat :=
  let offset := getNodeSize node leafNode - node.data.length
  let page := move page (pagePointer + offset) data node.data.length
  let header := nodeHeader node leafNode
  let page := store page pagePointer header
  if node.isEndLevel then (page, pagePointer + header.length)
  else (page, pagePointer + header.length + node.data.length)

/-- The groups of a number: `count` of them can follow the first one, which is at `shift`. The last
of them is cut to `mask` values. -/
def getNumber (page : Page) (mask : Nat) : Nat → Nat → Nat → Nat × Nat
  | 0, shift, localPointer => ((page localPointer).toNat % mask * 2 ^ shift, localPointer + 1)
  | count + 1, shift, localPointer =>
    let tmp := (page localPointer).toNat
    if tmp ≥ 128 then
      let (number, localPointer) := getNumber page mask count (shift + 7) (localPointer + 1)
      (tmp % 128 * 2 ^ shift + number, localPointer)
    else (tmp % 128 * 2 ^ shift, localPointer + 1)

/-- `BTreeNode::readNode`: the node and the pointer behind it. A page number that is not read stays
as it was. -/
def readNode (page : Page) (pageNumber : Int) (pagePointer : Nat) (leafNode : Bool) :
    IndexNode × Nat :=
  let first := (page pagePointer).toNat
  let localPointer := pagePointer + 1
  let internalFlags := first / 32
  let isEndLevel := internalFlags == InternalFlags.endLevel.toNat
  let isEndBucket := internalFlags == InternalFlags.endBucket.toNat
  if isEndLevel then (⟨0, [], 0, 0, isEndBucket, isEndLevel⟩, localPointer)
  else
    let (number, localPointer) := getNumber page 128 4 5 localPointer
    let recordNumber := first % 32 + number
    let (pageNumber, localPointer) :=
      if !leafNode then
        let (number, localPointer) := getNumber page 16 4 0 localPointer
        ((number : Int), localPointer)
      else (pageNumber, localPointer)
    let (nodePrefix, localPointer) :=
      if internalFlags == InternalFlags.zeroPrefixZeroLength.toNat then (0, localPointer)
      else getNumber page 128 1 0 localPointer
    let (length, localPointer) :=
      if internalFlags == InternalFlags.zeroLength.toNat ||
          internalFlags == InternalFlags.zeroPrefixZeroLength.toNat then (0, localPointer)
      else if internalFlags == InternalFlags.oneLength.toNat then (1, localPointer)
      else getNumber page 128 1 0 localPointer
    (⟨nodePrefix, load page localPointer length, recordNumber, pageNumber, isEndBucket, isEndLevel⟩,
      localPointer + length)

theorem and_mask_eq (n a k : Nat) : n &&& a <<< k = ((n >>> k) &&& a) <<< k := by
  refine Nat.eq_of_testBit_eq fun i => ?_
  rw [Nat.testBit_and, Nat.testBit_shiftLeft, Nat.testBit_shiftLeft, Nat.testBit_and,
    Nat.testBit_shiftRight]
  by_cases h : i ≥ k
  · simp [h]
  · simp [h]

variable {n : Nat}

theorem and_mask_ne_zero_iff {k j : Nat} (h : n < 2 ^ (k + j)) :
    n &&& (2 ^ j - 1) <<< k ≠ 0 ↔ 2 ^ k ≤ n := by
  rw [and_mask_eq, Nat.and_two_pow_sub_one_eq_mod, Nat.shiftRight_eq_div_pow, Nat.shiftLeft_eq,
    Nat.mod_eq_of_lt (Nat.div_lt_of_lt_mul (by rwa [← Nat.pow_add]))]
  have hpos : 0 < 2 ^ k := Nat.two_pow_pos k
  rw [Nat.mul_ne_zero_iff, and_iff_left (Nat.ne_of_gt hpos), ← Nat.pos_iff_ne_zero, Nat.div_pos_iff]
  exact ⟨fun h => h.2, fun h => ⟨hpos, h⟩⟩

theorem length_putNumber_succ (mask count number : Nat) :
    (putNumber mask (count + 1) number).length =
      if number < 128 then 1 else 1 + (putNumber mask count (number / 128)).length := by
  rw [putNumber]
  split_ifs <;> simp_all <;> omega

theorem length_putNumber_zero (mask number : Nat) : (putNumber mask 0 number).length = 1 := rfl

theorem lengthSize_eq (h : n < 2 ^ 14) : lengthSize n = (putLength n).length := by
  have h₁ : n &&& 0xFFFFC000 ≠ 0 ↔ 2 ^ 14 ≤ n :=
    and_mask_ne_zero_iff (k := 14) (j := 18) (by omega)
  have h₂ : n &&& 0xFFFFFF80 ≠ 0 ↔ 2 ^ 7 ≤ n :=
    and_mask_ne_zero_iff (k := 7) (j := 25) (by omega)
  rw [lengthSize, putLength, length_putNumber_succ, length_putNumber_zero]
  split_ifs <;> omega

theorem pageNumberSize_eq (h : n < 2 ^ 32) : pageNumberSize n = (putPageNumber n).length := by
  have h₁ : n &&& 0xF0000000 ≠ 0 ↔ 2 ^ 28 ≤ n :=
    and_mask_ne_zero_iff (k := 28) (j := 4) (by omega)
  have h₂ : n &&& 0xFFE00000 ≠ 0 ↔ 2 ^ 21 ≤ n :=
    and_mask_ne_zero_iff (k := 21) (j := 11) (by omega)
  have h₃ : n &&& 0xFFFFC000 ≠ 0 ↔ 2 ^ 14 ≤ n :=
    and_mask_ne_zero_iff (k := 14) (j := 18) (by omega)
  have h₄ : n &&& 0xFFFFFF80 ≠ 0 ↔ 2 ^ 7 ≤ n :=
    and_mask_ne_zero_iff (k := 7) (j := 25) (by omega)
  rw [pageNumberSize, putPageNumber]
  simp only [h₁, h₂, length_putNumber_succ, length_putNumber_zero]
  split_ifs <;> omega

theorem putRecordNumber_eq {count : Nat} (h : n < 128 ^ (count + 1)) :
    putRecordNumber (count + 1) n = putNumber 128 count n := by
  induction count generalizing n with
  | zero =>
    have hdiv : n / 128 = 0 := by omega
    rw [putRecordNumber, putNumber, if_pos hdiv]
  | succ count ih =>
    have hlt : n / 128 < 128 ^ (count + 1) := by
      omega
    rw [putRecordNumber, putNumber, ih hlt]
    split_ifs <;> first | rfl | omega

theorem recordNumberSize_eq (h : n < 2 ^ 35) :
    recordNumberSize n = (putRecordNumber 5 n).length := by
  have h₁ : n &&& 0xFFF0000000 ≠ 0 ↔ 2 ^ 28 ≤ n :=
    and_mask_ne_zero_iff (k := 28) (j := 12) (by omega)
  have h₂ : n &&& 0xFFFFE00000 ≠ 0 ↔ 2 ^ 21 ≤ n :=
    and_mask_ne_zero_iff (k := 21) (j := 19) (by omega)
  have h₃ : n &&& 0xFFFFFFC000 ≠ 0 ↔ 2 ^ 14 ≤ n :=
    and_mask_ne_zero_iff (k := 14) (j := 26) (by omega)
  have h₄ : n &&& 0xFFFFFFFF80 ≠ 0 ↔ 2 ^ 7 ≤ n :=
    and_mask_ne_zero_iff (k := 7) (j := 33) (by omega)
  rw [recordNumberSize, putRecordNumber_eq (by omega)]
  simp only [h₁, h₂, length_putNumber_succ, length_putNumber_zero]
  split_ifs <;> omega

theorem toNat_ofNat_of_lt (h : n < 256) : (UInt8.ofNat n).toNat = n :=
  UInt8.toNat_ofNat_of_lt' h

theorem getNumber_putNumber {page : Page} {mask count number shift p : Nat} (hmask : mask ≤ 128)
    (hlt : number < 128 ^ count * mask) (h : Holds page p (putNumber mask count number)) :
    getNumber page mask count shift p =
      (number * 2 ^ shift, p + (putNumber mask count number).length) := by
  induction count generalizing number shift p with
  | zero =>
    rw [Nat.pow_zero, Nat.one_mul] at hlt
    obtain ⟨hbyte, -⟩ := h
    rw [getNumber, hbyte, Nat.mod_eq_of_lt hlt, toNat_ofNat_of_lt (by omega), Nat.mod_eq_of_lt hlt]
    rfl
  | succ count ih =>
    rw [putNumber] at h ⊢
    rw [getNumber]
    by_cases hmore : number / 128 > 0
    · rw [if_pos hmore] at h ⊢
      obtain ⟨hbyte, hrest⟩ := h
      have hlt' : number / 128 < 128 ^ count * mask := by
        rw [Nat.pow_succ, Nat.mul_right_comm] at hlt
        omega
      have htmp : (UInt8.ofNat (number % 128 + 128)).toNat = number % 128 + 128 :=
        toNat_ofNat_of_lt (by omega)
      simp only [hbyte, htmp]
      rw [if_pos (by omega), ih hlt' hrest]
      simp only [length_cons, Prod.mk.injEq]
      refine ⟨?_, by omega⟩
      rw [Nat.add_mod_right, Nat.mod_mod, Nat.pow_add, ← Nat.mul_assoc, Nat.mul_right_comm,
        ← Nat.add_mul]
      congr 1
      omega
    · rw [if_neg hmore] at h ⊢
      obtain ⟨hbyte, -⟩ := h
      have htmp : (UInt8.ofNat (number % 128)).toNat = number % 128 := toNat_ofNat_of_lt (by omega)
      simp only [hbyte, htmp]
      rw [if_neg (by omega), Nat.mod_mod, Nat.mod_eq_of_lt (by omega)]
      rfl

/-- A node that can be stored. The marker of the end of a level has nothing in it. -/
structure Storable (node : IndexNode) : Prop where
  prefix_lt : node.nodePrefix < 2 ^ 14
  length_lt : node.data.length < 2 ^ 14
  recordNumber_nonneg : 0 ≤ node.recordNumber
  recordNumber_lt : node.recordNumber < 2 ^ 40
  pageNumber_nonneg : 0 ≤ node.pageNumber
  pageNumber_lt : node.pageNumber < 2 ^ 31
  endLevel : node.isEndLevel = true → node = ⟨0, [], 0, 0, false, true⟩

def nodeBytes (node : IndexNode) (leafNode : Bool) : List UInt8 :=
  nodeHeader node leafNode ++ node.data

variable {page : Page} {node : IndexNode} {leafNode : Bool} {p : Nat}

theorem Storable.data_eq_nil (h : Storable node) (hend : node.isEndLevel = true) :
    node.data = [] := by
  rw [h.endLevel hend]

theorem nodeHeader_of_endLevel (h : node.isEndLevel = true) :
    (nodeHeader node leafNode).length = 1 := by
  simp [nodeHeader, h]

theorem length_nodeBytes (h : Storable node) :
    (nodeBytes node leafNode).length = getNodeSize node leafNode := by
  rw [nodeBytes, length_append]
  cases hend : node.isEndLevel with
  | true =>
    rw [nodeHeader_of_endLevel hend, getNodeSize, if_pos hend, h.endLevel hend]
    rfl
  | false =>
    have hrecord := h.recordNumber_lt
    have hpage := h.pageNumber_lt
    rw [nodeHeader, getNodeSize, Nat.shiftRight_eq_div_pow, lengthSize_eq h.prefix_lt,
      lengthSize_eq h.length_lt, recordNumberSize_eq (by omega), pageNumberSize_eq (by omega)]
    simp only [hend]
    cases leafNode <;> cases (internalFlags node).hasPrefix <;>
      cases (internalFlags node).hasLength <;> simp <;> omega

theorem length_nodeHeader (h : Storable node) :
    (nodeHeader node leafNode).length = getNodeSize node leafNode - node.data.length := by
  have hlength := @length_nodeBytes _ leafNode h
  rw [nodeBytes, length_append] at hlength
  omega

theorem writeNode_eq (h : Storable node) :
    writeNode page node p leafNode =
      (store page p (nodeBytes node leafNode), p + getNodeSize node leafNode) := by
  rw [← length_nodeBytes h, nodeBytes, store_append, length_append, ← Nat.add_assoc, writeNode]
  cases hend : node.isEndLevel with
  | true => simp [h.data_eq_nil hend]
  | false => rfl

theorem writeNodeInPlace_eq (h : Storable node) {data : Nat}
    (hdata : load page data node.data.length = node.data) :
    writeNodeInPlace page node data p leafNode = writeNode page node p leafNode := by
  rw [writeNodeInPlace, move, hdata, ← length_nodeHeader h, writeNode]
  rw [store_comm (by omega)]
  cases hend : node.isEndLevel with
  | true => simp [h.data_eq_nil hend]
  | false => rfl

theorem toNat_first (node : IndexNode) :
    (UInt8.ofNat ((internalFlags node).toNat * 32 + node.recordNumber.toNat % 32)).toNat =
      (internalFlags node).toNat * 32 + node.recordNumber.toNat % 32 := by
  refine toNat_ofNat_of_lt ?_
  have hflags : (internalFlags node).toNat ≤ 5 := by cases internalFlags node <;> decide
  omega

theorem readNode_eq (page : Page) (pageNumber : Int) (p : Nat) (leafNode : Bool) :
    readNode page pageNumber p leafNode =
      let f := (page p).toNat / 32
      if f == 1 then (⟨0, [], 0, 0, f == 2, f == 1⟩, p + 1)
      else
        let number := getNumber page 128 4 5 (p + 1)
        let other := getNumber page 16 4 0 number.2
        let q := if leafNode then number.2 else other.2
        let common := if f == 3 then (0, q) else getNumber page 128 1 0 q
        let length :=
          if f == 4 || f == 3 then (0, common.2)
          else if f == 5 then (1, common.2)
          else getNumber page 128 1 0 common.2
        (⟨common.1, load page length.2 length.1, ((page p).toNat % 32 + number.1 : Nat),
            if leafNode then pageNumber else other.1, f == 2, f == 1⟩, length.2 + length.1) := by
  cases leafNode <;> rfl

def InternalFlags.Describes : InternalFlags → IndexNode → Prop
  | normal, node => node.isEndLevel = false ∧ node.isEndBucket = false
  | endLevel, node => node.isEndLevel = true
  | endBucket, node => node.isEndLevel = false ∧ node.isEndBucket = true
  | zeroPrefixZeroLength, node =>
    node.isEndLevel = false ∧ node.isEndBucket = false ∧ node.nodePrefix = 0 ∧ node.data.length = 0
  | zeroLength, node => node.isEndLevel = false ∧ node.isEndBucket = false ∧ node.data.length = 0
  | oneLength, node => node.isEndLevel = false ∧ node.isEndBucket = false ∧ node.data.length = 1

theorem internalFlags_describes (node : IndexNode) : (internalFlags node).Describes node := by
  rw [internalFlags]
  split_ifs <;> simp_all [InternalFlags.Describes]

variable {q : Nat}

theorem getNumber_putLength (h : Holds page q (putLength n)) (hn : n < 2 ^ 14) :
    getNumber page 128 1 0 q = (n, q + (putLength n).length) := by
  rw [getNumber_putNumber (by omega) (by omega) h, Nat.pow_zero, Nat.mul_one]
  rfl

theorem getNumber_putPageNumber (h : Holds page q (putPageNumber n)) (hn : n < 2 ^ 31) :
    getNumber page 16 4 0 q = (n, q + (putPageNumber n).length) := by
  rw [getNumber_putNumber (by omega) (by omega) h, Nat.pow_zero, Nat.mul_one]
  rfl

theorem read_prefix {f : InternalFlags} (hf : f.Describes node)
    (hn : node.nodePrefix = n) (hlt : n < 2 ^ 14)
    (h : Holds page q (if f.hasPrefix then putLength n else [])) :
    (if f.toNat == 3 then (0, q) else getNumber page 128 1 0 q) =
      (n, q + (if f.hasPrefix then putLength n else []).length) := by
  cases f with
  | zeroPrefixZeroLength =>
    rw [← hn, hf.2.2.1]
    rfl
  | _ => exact getNumber_putLength h hlt

theorem read_length {f : InternalFlags} (hf : f.Describes node)
    (hn : node.data.length = n) (hlt : n < 2 ^ 14)
    (h : Holds page q (if f.hasLength then putLength n else [])) :
    (if f.toNat == 4 || f.toNat == 3 then (0, q) else if f.toNat == 5 then (1, q)
        else getNumber page 128 1 0 q) =
      (n, q + (if f.hasLength then putLength n else []).length) := by
  cases f with
  | zeroPrefixZeroLength =>
    rw [← hn, hf.2.2.2]
    rfl
  | zeroLength =>
    rw [← hn, hf.2.2]
    rfl
  | oneLength =>
    rw [← hn, hf.2.2]
    rfl
  | _ => exact getNumber_putLength h hlt

theorem readNode_of_holds (h : Storable node) (hholds : Holds page p (nodeBytes node leafNode))
    (pageNumber : Int) :
    readNode page pageNumber p leafNode =
      ({ node with
          pageNumber := if leafNode && !node.isEndLevel then pageNumber else node.pageNumber },
        p + getNodeSize node leafNode) := by
  have hsize := @length_nodeBytes _ leafNode h
  have hdesc := internalFlags_describes node
  rw [nodeBytes, nodeHeader, cons_append, holds_cons] at hholds
  obtain ⟨hfirst, hrest⟩ := hholds
  have hfirst := (congrArg UInt8.toNat hfirst).trans (toNat_first node)
  have hflags : (page p).toNat / 32 = (internalFlags node).toNat := by omega
  rw [readNode_eq]
  simp only [hflags]
  cases hend : node.isEndLevel with
  | true =>
    have hflag : internalFlags node = .endLevel := by rw [internalFlags, if_pos hend]
    rw [getNodeSize, if_pos hend, hflag]
    simp [InternalFlags.toNat, h.endLevel hend]
  | false =>
    simp only [hend, Bool.false_eq_true, if_false, append_assoc, holds_append] at hrest
    obtain ⟨hrecord, hpage, hprefix, hlength, hdata⟩ := hrest
    have hrecord_lt := h.recordNumber_lt
    have hpage_lt := h.pageNumber_lt
    have hnonneg := h.recordNumber_nonneg
    have hpage_nonneg := h.pageNumber_nonneg
    rw [putRecordNumber_eq (by omega)] at hrecord hpage hprefix hlength hdata
    have hnumber := @getNumber_putNumber page 128 4 (node.recordNumber.toNat / 32) 5 (p + 1)
      (by omega) (by omega) hrecord
    have hcommon := read_prefix hdesc rfl h.prefix_lt hprefix
    have hlen := read_length hdesc rfl h.length_lt hlength
    have hnotEnd : ((internalFlags node).toNat == 1) = false := by
      cases hflag : internalFlags node <;> simp_all [InternalFlags.Describes, InternalFlags.toNat]
    have hbucket : ((internalFlags node).toNat == 2) = node.isEndBucket := by
      cases hflag : internalFlags node <;> simp_all [InternalFlags.Describes, InternalFlags.toNat]
    have hload := hdata.load_eq
    rw [← hsize, nodeBytes, nodeHeader, putRecordNumber_eq (by omega)]
    simp only [hnotEnd, hnumber, hend, hbucket]
    cases leafNode with
    | true =>
      simp only [Bool.not_true, Bool.false_eq_true, if_false, if_true, length_nil,
        Nat.add_zero] at hcommon hlen hload ⊢
      rw [hcommon, hlen]
      simp only [hload]
      simp
      omega
    | false =>
      have hother := getNumber_putPageNumber hpage (by omega)
      simp only [Bool.not_false, if_true, Bool.false_eq_true,
        if_false] at hcommon hlen hload hother ⊢
      rw [hother, hcommon, hlen]
      simp only [hload]
      simp
      omega

/-- The functions agree on the bytes of a node. What `writeNode` writes is what `readNode` reads, in
`getNodeSize` bytes, and the data can be anywhere on the page before. -/
theorem readNode_writeNode (page : Page) (node : IndexNode) (h : Storable node) (p : Nat)
    (leafNode : Bool) :
    (∀ pageNumber, readNode (writeNode page node p leafNode).1 pageNumber p leafNode =
      ({ node with
          pageNumber := if leafNode && !node.isEndLevel then pageNumber else node.pageNumber },
        p + getNodeSize node leafNode)) ∧
    (writeNode page node p leafNode).2 = p + getNodeSize node leafNode ∧
    ∀ data, load page data node.data.length = node.data →
      writeNodeInPlace page node data p leafNode = writeNode page node p leafNode := by
  refine ⟨fun pageNumber => ?_, ?_, fun data hdata => writeNodeInPlace_eq h hdata⟩
  · rw [writeNode_eq h]
    exact readNode_of_holds h holds_store pageNumber
  · rw [writeNode_eq h]

/-- A node of a page that is not a leaf, whose data is at its own place already. -/
theorem readNode_writeNode_two_bytes :
    writeNodeInPlace (fun _ => 7) ⟨130, [7, 7], 1000, 200, false, false⟩ 3 0 false =
      writeNode (fun _ => 7) ⟨130, [7, 7], 1000, 200, false, false⟩ 0 false :=
  (readNode_writeNode (fun _ => 7) ⟨130, [7, 7], 1000, 200, false, false⟩
    ⟨by decide, by decide, by decide, by decide, by decide, by decide, fun h => nomatch h⟩ 0
    false).2.2 3 rfl

end Firebird.Jrd.Btn
