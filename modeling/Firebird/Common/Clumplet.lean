import Mathlib.Data.List.Basic
import Mathlib.Tactic.Ring

/-!
# Clumplets

`ClumpletReader` and `ClumpletWriter`: parameter blocks as sequences of clumplets, each of which
has a tag and, depending on the kind of the block and on the tag, a length and data. The reader
computes with `size_t` and with pointers, so where the buffer lies in memory is part of the model.
Both functions that report an error throw.
-/
namespace Firebird.Common.Clumplet

inductive Kind
  | tagged
  | unTagged
  | spbAttach
  | spbStart
  | tpb
  | wideTagged
  | wideUnTagged
  | spbItems
  deriving DecidableEq

inductive ClumpletType
  | traditionalDpb
  | singleTpb
  | stringSpb
  | intSpb
  | byteSpb
  | wide
  deriving DecidableEq

/-- `usage_mistake`, `invalid_structure` and `size_overflow` -/
inductive Error
  | usageMistake (what : String)
  | invalidStructure (what : String)
  | sizeOverflow
  deriving DecidableEq

/-! ## Tags -/

def iscTpbLockRead : UInt8 := 10
def iscTpbLockWrite : UInt8 := 11

def iscSpbVersion1 : UInt8 := 1
def iscSpbVersion : UInt8 := 2
def iscSpbSqlRoleName : UInt8 := 60
def iscSpbCommandLine : UInt8 := 105
def iscSpbDbname : UInt8 := 106
def iscSpbVerbose : UInt8 := 107
def iscSpbOptions : UInt8 := 108

def iscActionSvcBackup : UInt8 := 1
def iscActionSvcRestore : UInt8 := 2
def iscActionSvcRepair : UInt8 := 3
def iscActionSvcAddUser : UInt8 := 4
def iscActionSvcDeleteUser : UInt8 := 5
def iscActionSvcModifyUser : UInt8 := 6
def iscActionSvcDisplayUser : UInt8 := 7
def iscActionSvcProperties : UInt8 := 8
def iscActionSvcDbStats : UInt8 := 11
def iscActionSvcGetIbLog : UInt8 := 12

def iscSpbSecUserid : UInt8 := 5
def iscSpbSecGroupid : UInt8 := 6
def iscSpbSecUsername : UInt8 := 7
def iscSpbSecPassword : UInt8 := 8
def iscSpbSecGroupname : UInt8 := 9
def iscSpbSecFirstname : UInt8 := 10
def iscSpbSecMiddlename : UInt8 := 11
def iscSpbSecLastname : UInt8 := 12

def iscSpbBkpFile : UInt8 := 5
def iscSpbBkpFactor : UInt8 := 6
def iscSpbBkpLength : UInt8 := 7

def iscSpbPrpPageBuffers : UInt8 := 5
def iscSpbPrpSweepInterval : UInt8 := 6
def iscSpbPrpShutdownDb : UInt8 := 7
def iscSpbPrpDenyNewAttachments : UInt8 := 9
def iscSpbPrpDenyNewTransactions : UInt8 := 10
def iscSpbPrpReserveSpace : UInt8 := 11
def iscSpbPrpWriteMode : UInt8 := 12
def iscSpbPrpAccessMode : UInt8 := 13
def iscSpbPrpSetSqlDialect : UInt8 := 14

def iscSpbRprCommitTrans : UInt8 := 15
def iscSpbRprRecoverTwoPhase : UInt8 := 17
def iscSpbRprRollbackTrans : UInt8 := 34

def iscSpbResBuffers : UInt8 := 9
def iscSpbResPageSize : UInt8 := 10
def iscSpbResLength : UInt8 := 11
def iscSpbResAccessMode : UInt8 := 12

def spbStartType (spbState tag : UInt8) : Except Error ClumpletType :=
  if spbState = 0 then .ok .singleTpb
  else if spbState ∈ [iscActionSvcBackup, iscActionSvcRestore] then
    if tag ∈ [iscSpbBkpFile, iscSpbDbname] then .ok .stringSpb
    else if tag ∈ [iscSpbBkpFactor, iscSpbBkpLength, iscSpbResLength, iscSpbResBuffers,
      iscSpbResPageSize, iscSpbOptions] then .ok .intSpb
    else if tag = iscSpbVerbose then .ok .singleTpb
    else if tag = iscSpbResAccessMode then .ok .byteSpb
    else .error (.invalidStructure "unknown parameter for backup/restore")
  else if spbState = iscActionSvcRepair then
    if tag = iscSpbDbname then .ok .stringSpb
    else if tag ∈ [iscSpbOptions, iscSpbRprCommitTrans, iscSpbRprRollbackTrans,
      iscSpbRprRecoverTwoPhase] then .ok .intSpb
    else .error (.invalidStructure "unknown parameter for repair")
  else if spbState ∈ [iscActionSvcAddUser, iscActionSvcDeleteUser, iscActionSvcModifyUser,
      iscActionSvcDisplayUser] then
    if tag ∈ [iscSpbDbname, iscSpbSqlRoleName, iscSpbSecUsername, iscSpbSecPassword,
      iscSpbSecGroupname, iscSpbSecFirstname, iscSpbSecMiddlename, iscSpbSecLastname] then
      .ok .stringSpb
    else if tag ∈ [iscSpbSecUserid, iscSpbSecGroupid] then .ok .intSpb
    else .error (.invalidStructure "unknown parameter for security database operation")
  else if spbState = iscActionSvcProperties then
    if tag = iscSpbDbname then .ok .stringSpb
    else if tag ∈ [iscSpbPrpPageBuffers, iscSpbPrpSweepInterval, iscSpbPrpShutdownDb,
      iscSpbPrpDenyNewAttachments, iscSpbPrpDenyNewTransactions, iscSpbPrpSetSqlDialect,
      iscSpbOptions] then .ok .intSpb
    else if tag ∈ [iscSpbPrpReserveSpace, iscSpbPrpWriteMode, iscSpbPrpAccessMode] then .ok .byteSpb
    else .error (.invalidStructure "unknown parameter for setting database properties")
  else if spbState = iscActionSvcDbStats then
    if tag ∈ [iscSpbDbname, iscSpbCommandLine] then .ok .stringSpb
    else if tag = iscSpbOptions then .ok .intSpb
    else .error (.invalidStructure "unknown parameter for getting statistics")
  else if spbState = iscActionSvcGetIbLog then
    .error (.invalidStructure "unknown parameter for getting log")
  else .error (.invalidStructure "wrong spb state")

def getClumpletType (kind : Kind) (spbState tag : UInt8) : Except Error ClumpletType :=
  match kind with
  | .tagged | .unTagged | .spbAttach => .ok .traditionalDpb
  | .wideTagged | .wideUnTagged => .ok .wide
  | .tpb => .ok (if tag ∈ [iscTpbLockWrite, iscTpbLockRead] then .traditionalDpb else .singleTpb)
  | .spbItems => .ok .singleTpb
  | .spbStart => spbStartType spbState tag

/-! ## Reading -/

/-- Where a buffer lies: the width of pointers and of `size_t`, and the address of the buffer, which
is 0 if there is none. -/
structure Space where
  bits : Nat
  address : Nat

structure Space.Holds (s : Space) (length : Nat) : Prop where
  bits : 32 ≤ s.bits
  fits : s.address + length < 2 ^ s.bits
  null : s.address = 0 → length = 0

structure Reader where
  kind : Kind
  buffer : List UInt8
  curOffset : Nat
  spbState : UInt8
  deriving DecidableEq

namespace Reader

/-- `getBufferLength`: a buffer that is only a tag counts as empty. -/
def getBufferLength (r : Reader) : Nat :=
  if r.buffer.length = 1 ∧ r.kind ≠ .unTagged ∧ r.kind ≠ .spbStart ∧ r.kind ≠ .wideUnTagged ∧
      r.kind ≠ .spbItems then 0
  else r.buffer.length

def isEof (r : Reader) : Bool := r.curOffset ≥ r.getBufferLength

def sizes (clumplet : List UInt8) : ClumpletType → Except Error (Nat × Nat)
  | .wide =>
    match clumplet with
    | _ :: b1 :: b2 :: b3 :: b4 :: _ =>
      .ok (4, ((b4.toNat * 256 + b3.toNat) * 256 + b2.toNat) * 256 + b1.toNat)
    | _ => .error
      (.invalidStructure "buffer end before end of clumplet - no length component")
  | .traditionalDpb =>
    match clumplet with
    | _ :: b1 :: _ => .ok (1, b1.toNat)
    | _ => .error
      (.invalidStructure "buffer end before end of clumplet - no length component")
  | .singleTpb => .ok (0, 0)
  | .stringSpb =>
    match clumplet with
    | _ :: b1 :: b2 :: _ => .ok (2, b2.toNat * 256 + b1.toNat)
    | _ => .error
      (.invalidStructure "buffer end before end of clumplet - no length component")
  | .intSpb => .ok (0, 4)
  | .byteSpb => .ok (0, 1)

def getClumpTag (r : Reader) : Except Error UInt8 :=
  match r.buffer.drop r.curOffset with
  | [] => .error (.usageMistake "read past EOF")
  | tag :: _ => .ok tag

def getClumpletSize (s : Space) (r : Reader) (wTag wLength wData : Bool) : Except Error Nat :=
  match r.buffer.drop r.curOffset with
  | [] => .error (.usageMistake "read past EOF")
  | tag :: rest => do
    let type ← getClumpletType r.kind r.spbState tag
    let (lengthSize, dataSize) ← sizes (tag :: rest) type
    let total := (1 + lengthSize + dataSize) % 2 ^ s.bits
    if (s.address + r.curOffset + total) % 2 ^ s.bits > s.address + r.buffer.length then
      .error (.invalidStructure "buffer end before end of clumplet - clumplet too long")
    else
      .ok (((if wTag then 1 else 0) + (if wLength then lengthSize else 0) +
        (if wData then dataSize else 0)) % 2 ^ s.bits)

def getClumpLength (s : Space) (r : Reader) : Except Error Nat :=
  r.getClumpletSize s false false true

/-- `getBytes`, as an offset. -/
def getBytes (s : Space) (r : Reader) : Except Error Nat := do
  let size ← r.getClumpletSize s true true false
  .ok (r.curOffset + size)

/-- The loop of `getInt` and `getBigInt`. -/
def integer {w : Nat} (value : BitVec w) (shift : Nat) : List UInt8 → BitVec w
  | [] => value
  | b :: bytes => integer (value + BitVec.ofNat w b.toNat <<< shift) (shift + 8) bytes

def getInt (s : Space) (r : Reader) : Except Error (BitVec 32) := do
  let ptr ← r.getBytes s
  let length ← r.getClumpLength s
  if length > 4 then .error (.invalidStructure "length of integer exceeds 4 bytes")
  else .ok (integer 0 0 ((r.buffer.drop ptr).take length))

def getBigInt (s : Space) (r : Reader) : Except Error (BitVec 64) := do
  let ptr ← r.getBytes s
  let length ← r.getClumpLength s
  if length > 8 then .error (.invalidStructure "length of BigInt exceeds 8 bytes")
  else .ok (integer 0 0 ((r.buffer.drop ptr).take length))

def adjustSpbState (r : Reader) : Except Error Reader :=
  if r.kind = .spbStart ∧ r.spbState = 0 then do
    let tag ← r.getClumpTag
    .ok { r with spbState := tag }
  else .ok r

def moveNext (s : Space) (r : Reader) : Except Error Reader :=
  if r.isEof then .ok r
  else do
    let cs ← r.getClumpletSize s true true true
    let r ← r.adjustSpbState
    .ok { r with curOffset := (r.curOffset + cs) % 2 ^ s.bits }

def rewind (s : Space) (r : Reader) : Reader :=
  if s.address = 0 then { r with curOffset := 0, spbState := 0 }
  else if r.kind = .unTagged ∨ r.kind = .wideUnTagged ∨ r.kind = .spbStart ∨ r.kind = .spbItems then
    { r with curOffset := 0, spbState := 0 }
  else if r.kind = .spbAttach ∧ r.getBufferLength > 0 ∧ r.buffer.head? ≠ some iscSpbVersion1 then
    { r with curOffset := 2, spbState := 0 }
  else { r with curOffset := 1, spbState := 0 }

end Reader

structure Writer extends Reader where
  sizeLimit : Nat
  deriving DecidableEq

namespace Writer

def initNewBuffer (kind : Kind) (tag : UInt8) : List UInt8 :=
  match kind with
  | .spbAttach => if tag ≠ iscSpbVersion1 then [iscSpbVersion, tag] else [tag]
  | .tagged | .tpb | .wideTagged => [tag]
  | _ => []

def new (s : Space) (kind : Kind) (limit : Nat) (tag : UInt8) : Writer :=
  { Reader.rewind s ⟨kind, initNewBuffer kind tag, 0, 0⟩ with sizeLimit := limit }

/-- `insert` of an array -/
def insert (buffer : List UInt8) (offset : Nat) (bytes : List UInt8) : List UInt8 :=
  buffer.take offset ++ bytes ++ buffer.drop offset

def checkLength (length : Nat) : ClumpletType → Except Error Nat
  | .wide =>
    if length > 2 ^ 32 - 1 then
      .error (.usageMistake s!"attempt to store {length} bytes in a clumplet")
    else .ok 4
  | .traditionalDpb =>
    if length > 255 then
      .error (.usageMistake
        s!"attempt to store {length} bytes in a clumplet with maximum size 255 bytes")
    else .ok 1
  | .singleTpb =>
    if length > 0 then .error (.usageMistake "attempt to store data in dataless clumplet")
    else .ok 0
  | .stringSpb =>
    if length > 65535 then
      .error (.usageMistake s!"attempt to store {length} bytes in a clumplet")
    else .ok 2
  | .intSpb =>
    if length ≠ 4 then
      .error (.usageMistake s!"attempt to store {length} bytes in a clumplet, need 4")
    else .ok 0
  | .byteSpb =>
    if length ≠ 1 then
      .error (.usageMistake s!"attempt to store {length} bytes in a clumplet, need 1")
    else .ok 0

def littleEndian : Nat → Nat → List UInt8
  | 0, _ => []
  | n + 1, value => UInt8.ofNat (value % 256) :: littleEndian n (value / 256)

def insertBytesLengthCheck (s : Space) (w : Writer) (tag : UInt8) (bytes : List UInt8) :
    Except Error Writer :=
  if w.curOffset > w.buffer.length then .error (.usageMistake "write past EOF")
  else do
    let type ← getClumpletType w.kind w.spbState tag
    let lenSize ← checkLength bytes.length type
    if (w.buffer.length + bytes.length + lenSize + 1) % 2 ^ s.bits > w.sizeLimit then
      .error .sizeOverflow
    else do
      let buffer := insert w.buffer w.curOffset [tag]
      let buffer := insert buffer (w.curOffset + 1) (littleEndian lenSize bytes.length)
      let buffer := insert buffer (w.curOffset + 1 + lenSize) bytes
      let r ← Reader.adjustSpbState { w.toReader with buffer := buffer }
      .ok { r with
        curOffset := w.curOffset + 1 + lenSize + bytes.length
        sizeLimit := w.sizeLimit }

def insertInt (s : Space) (w : Writer) (tag : UInt8) (value : BitVec 32) : Except Error Writer :=
  w.insertBytesLengthCheck s tag (littleEndian 4 value.toNat)

def insertBigInt (s : Space) (w : Writer) (tag : UInt8) (value : BitVec 64) : Except Error Writer :=
  w.insertBytesLengthCheck s tag (littleEndian 8 value.toNat)

end Writer

end Firebird.Common.Clumplet
