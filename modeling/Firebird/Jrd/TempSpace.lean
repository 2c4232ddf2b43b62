import Firebird.Common.Tree

/-!
# Temporary space

`TempSpace`: a space for sorts and temporary blobs that consists of blocks, in memory or in
temporary files, and the segments of it that are free. Where a new block is placed depends on the
cache limit, the memory and the temporary directories, and is given by a `Placement`.
-/
namespace Firebird.Jrd.Temp

open Common

def minTempBlockSize : Nat := 64 * 1024

def fbAlign (n b : Nat) : Nat := n + (b - 1) - ((n + (b - 1)) &&& (b - 1))

structure Segment where
  position : Nat
  size : Nat
  deriving DecidableEq

/-- What a block consists of: `MemoryBlock`, `InitialBlock` with the initial buffer, or
`FileBlock`. -/
inductive Storage
  | memory (ptr : List UInt8)
  | initial (buffer : List UInt8)
  | file (file seek : Nat)
  deriving DecidableEq

structure Block where
  size : Nat
  storage : Storage
  deriving DecidableEq

/-- `TempSpace`: its blocks from the head to the tail, and the contents of its files. -/
structure TempSpace where
  logicalSize : Nat
  physicalSize : Nat
  blocks : List Block
  tempFiles : List (List UInt8)
  initiallyDynamic : Bool
  freeSegments : BePlusTree Segment
  deriving DecidableEq

/-- The place of a new block: memory, with what it holds before it is written to, or a file. -/
inductive Placement
  | memory (fresh : Nat → UInt8)
  | file (index : Nat)

def new (dynamic : Bool) : TempSpace where
  logicalSize := 0
  physicalSize := 0
  blocks := []
  tempFiles := []
  initiallyDynamic := dynamic
  freeSegments := ⟨[], 0⟩

/-- `memcpy` to a place in a buffer or a file. -/
def memcpy (buffer : List UInt8) (offset : Nat) (data : List UInt8) : List UInt8 :=
  buffer.take offset ++ data ++ buffer.drop (offset + data.length)

/-- The length that `read` and `write` of a block are cut to. -/
def Block.cut (b : Block) (offset length : Nat) : Nat :=
  if offset + length > b.size then b.size - offset else length

/-- `read` of a block. -/
def Block.read (b : Block) (files : List (List UInt8)) (offset length : Nat) : List UInt8 :=
  match b.storage with
  | .memory ptr => (ptr.drop offset).take (b.cut offset length)
  | .initial buffer => (buffer.drop offset).take (b.cut offset length)
  | .file file seek => ((files.getD file []).drop (offset + seek)).take (b.cut offset length)

/-- `write` to a block: the number of bytes, the block and the files. -/
def Block.write (b : Block) (files : List (List UInt8)) (offset : Nat) (data : List UInt8) :
    Nat × Block × List (List UInt8) :=
  let n := b.cut offset data.length
  match b.storage with
  | .memory ptr => (n, { b with storage := .memory (memcpy ptr offset (data.take n)) }, files)
  | .initial buffer => (n, { b with storage := .initial (memcpy buffer offset (data.take n)) },
    files)
  | .file file seek => (n, b, files.modify file (memcpy · (offset + seek) (data.take n)))

/-- `inMemory` of a block. -/
def Block.inMemory (b : Block) (offset size : Nat) : Bool :=
  match b.storage with
  | .file _ _ => false
  | _ => offset < b.size && offset + size ≤ b.size

def Block.sameFile (b : Block) (index : Nat) : Bool :=
  match b.storage with
  | .file file _ => file == index
  | _ => false

def walkForward : List Block → Nat → Nat → Option (Nat × Nat)
  | [], _, _ => none
  | b :: blocks, passed, offset =>
    if offset ≥ b.size then walkForward blocks (passed + 1) (offset - b.size)
    else some (passed, offset)

def walkBackward (physicalSize : Nat) : List Block → Nat → Nat → Option (Nat × Nat)
  | [], _, _ => none
  | b :: blocks, passed, offset =>
    if physicalSize - offset > b.size then
      walkBackward physicalSize blocks (passed + 1) (offset + b.size)
    else some (passed, offset - (physicalSize - b.size))

/-- `findBlock`: the index of the block, and the offset in it. -/
def findBlock (s : TempSpace) (offset : Nat) : Option (Nat × Nat) :=
  if offset < s.physicalSize / 2 then walkForward s.blocks 0 offset
  else (walkBackward s.physicalSize s.blocks.reverse 0 offset).map
    fun found => (s.blocks.length - 1 - found.1, found.2)

/-- The loop of `read`. -/
def readBlocks (files : List (List UInt8)) : List Block → Nat → Nat → List UInt8
  | [], _, _ => []
  | b :: blocks, offset, l =>
    if l = 0 then []
    else b.read files offset l ++ readBlocks files blocks 0 (l - b.cut offset l)

def read (s : TempSpace) (offset length : Nat) : Option (List UInt8) :=
  if length = 0 then some []
  else (findBlock s offset).map
    fun found => readBlocks s.tempFiles (s.blocks.drop found.1) found.2 length

/-- The loop of `write`. -/
def writeBlocks : List Block → List (List UInt8) → Nat → List UInt8 →
    List Block × List (List UInt8)
  | [], files, _, _ => ([], files)
  | b :: blocks, files, offset, data =>
    if data = [] then (b :: blocks, files)
    else
      let (n, b, files) := b.write files offset data
      let (blocks, files) := writeBlocks blocks files 0 (data.drop n)
      (b :: blocks, files)

/-- `setupFile`: the file grows by the size; the index may be that of a new file. -/
def setupFile (files : List (List UInt8)) (index size : Nat) : Nat × List (List UInt8) :=
  if index < files.length then (index, files.modify index (· ++ List.replicate size 0))
  else (files.length, files ++ [List.replicate size 0])

def initialBuffer (s : TempSpace) : List UInt8 :=
  match s.blocks with
  | [⟨_, .initial buffer⟩] => buffer
  | _ => []

def appendBlock (s : TempSpace) (p : Placement) (size : Nat) (initial : List UInt8) : TempSpace :=
  match p with
  | .memory fresh =>
    let b : Block := ⟨size, .memory ((List.range size).map fresh)⟩
    let (_, b, files) := b.write s.tempFiles 0 initial
    { s with blocks := s.blocks ++ [b], tempFiles := files }
  | .file index =>
    let (index, files) := setupFile s.tempFiles index size
    if (s.blocks.getLast?.map (·.sameFile index)).getD false then
      { s with
        blocks := s.blocks.modify (s.blocks.length - 1) fun b => { b with size := b.size + size }
        tempFiles := files }
    else
      let b : Block := ⟨size, .file index ((files.getD index []).length - size)⟩
      let (_, b, files) := b.write files 0 initial
      { s with blocks := s.blocks ++ [b], tempFiles := files }

variable (minBlockSize : Nat)

def extend (s : TempSpace) (p : Placement) (size : Nat) : TempSpace :=
  let s := { s with logicalSize := s.logicalSize + size }
  if s.logicalSize > s.physicalSize then
    let initial := initialBuffer s
    if s.initiallyDynamic ∧ s.logicalSize < minTempBlockSize then
      let buffer :=
        match initial, p with
        | [], .memory fresh => (List.range size).map fresh
        | _, _ => initial ++ List.replicate size 0
      { s with blocks := [⟨buffer.length, .initial buffer⟩], physicalSize := buffer.length }
    else if initial ≠ [] then
      let size := fbAlign s.logicalSize minBlockSize
      appendBlock { s with blocks := [], physicalSize := size } p size initial
    else
      let size := fbAlign (s.logicalSize - s.physicalSize) minBlockSize
      appendBlock { s with physicalSize := s.physicalSize + size } p size []
  else s

def write (s : TempSpace) (p : Placement) (offset : Nat) (data : List UInt8) : Option TempSpace :=
  let s :=
    if offset + data.length > s.logicalSize then
      extend minBlockSize s p (offset + data.length - s.logicalSize)
    else s
  if data = [] then some s
  else
    (findBlock s offset).map fun found =>
      let (blocks, files) :=
        writeBlocks (s.blocks.drop found.1) s.tempFiles found.2 data
      { s with blocks := s.blocks.take found.1 ++ blocks, tempFiles := files }

/-- `inMemory`: the index of the block that the pointer is in, and its offset. -/
def inMemory (s : TempSpace) (offset size : Nat) : Option (Nat × Nat) :=
  (findBlock s offset).bind fun found =>
    if (s.blocks[found.1]?.map (·.inMemory found.2 size)).getD false then some found else none

/-- The loop of `allocateSpace`: the best segment so far, with its index. -/
def findBest (size : Nat) : List Segment → Nat → Option (Nat × Segment) → Option (Nat × Segment)
  | [], _, best => best
  | space :: items, i, best =>
    if size ≤ space.size ∧ best.all (fun b => space.size < b.2.size) then
      findBest size items (i + 1) (some (i, space))
    else findBest size items (i + 1) best

/-- `allocateSpace`: the position, and the space. -/
def allocateSpace (s : TempSpace) (p : Placement) (size : Nat) : Nat × TempSpace :=
  match findBest size s.freeSegments.items 0 none with
  | none =>
    let s := extend minBlockSize s p size
    (s.logicalSize - size, s)
  | some (i, best) =>
    let rest : Segment := ⟨best.position + size, best.size - size⟩
    let free := s.freeSegments.modify i fun _ => rest
    if rest.size = 0 then
      let free := (free.locate Segment.position .locEqual rest.position).2
      (best.position, { s with freeSegments := free.fastRemove.2 })
    else (best.position, { s with freeSegments := free })

def releaseSpace (s : TempSpace) (position size : Nat) : TempSpace :=
  let (found, free) := s.freeSegments.locate Segment.position .locEqual (position + size)
  if found then
    -- The next segment is adjacent.
    let next := free.curPos
    let free := free.modify next fun seg => ⟨seg.position - size, seg.size + size⟩
    let (found, free) := free.getPrev
    match found, free.current with
    | true, some prior =>
      if position = prior.position + prior.size then
        let free := free.modify next fun seg => ⟨seg.position - prior.size, seg.size + prior.size⟩
        { s with freeSegments := free.fastRemove.2 }
      else { s with freeSegments := free }
    | _, _ => { s with freeSegments := free }
  else
    let (found, free) := free.locate Segment.position .locLess position
    match found, free.current with
    | true, some prior =>
      if position = prior.position + prior.size then
        { s with
          freeSegments := free.modify free.curPos fun seg => { seg with size := seg.size + size } }
      else { s with freeSegments := (free.add Segment.position ⟨position, size⟩).2 }
    | _, _ => { s with freeSegments := (free.add Segment.position ⟨position, size⟩).2 }

/-- The loop of `findMemory`: where the memory begins, and the pointer to it. -/
def findMemoryLoop (end' size : Nat) : List Block → Nat → Nat → Nat → Option (Nat × Nat × Nat)
  | [], _, _, _ => none
  | b :: blocks, i, begin', offset =>
    if begin' + size ≤ end' then
      if b.inMemory offset size then some (begin', i, offset)
      else findMemoryLoop end' size blocks (i + 1) (begin' + (b.size - offset)) 0
    else none

def findMemory (s : TempSpace) (begin' end' size : Nat) : Option (Nat × Nat × Nat) :=
  (findBlock s begin').bind fun found =>
    findMemoryLoop end' size (s.blocks.drop found.1) found.1 begin' found.2

/-- `SegmentInMemory`; the memory is the index of a block and an offset in it. -/
structure SegmentInMemory where
  memory : Nat × Nat
  position : Nat
  size : Nat
  deriving DecidableEq

/-- A chunk is taken out of the current segment: what is in front of it becomes a segment of its
own. -/
def takeChunk (free : BePlusTree Segment) (freeSpace : Segment) (freeSeek freeMem : Nat) :
    BePlusTree Segment :=
  let skip := freeSeek - freeSpace.position
  let free :=
    if freeSeek ≠ freeSpace.position then
      let free := free.modify free.curPos fun seg => ⟨seg.position + skip, seg.size - skip⟩
      let free := (free.add Segment.position ⟨freeSpace.position, skip⟩).2
      (free.locate Segment.position .locEqual (freeSpace.position + skip)).2
    else free
  free.modify free.curPos fun seg => ⟨seg.position + freeMem, seg.size - freeMem⟩

/-- The loop of `allocateBatch`, while the accessor is on a segment. -/
def batchLoop (count freeMem : Nat) : Nat → TempSpace → List SegmentInMemory →
    Option (TempSpace × List SegmentInMemory)
  | 0, _, _ => none
  | fuel + 1, s, segments =>
    if segments.length < count then
      match s.freeSegments.current with
      | none => some (s, segments)
      | some freeSpace =>
        match findMemory s freeSpace.position (freeSpace.position + freeSpace.size) freeMem with
        | some (freeSeek, memory) =>
          let free := takeChunk s.freeSegments freeSpace freeSeek freeMem
          let segments := segments ++ [⟨memory, freeSeek, freeMem⟩]
          if free.current.map Segment.size = some 0 then
            let (found, free) := free.fastRemove
            let s := { s with freeSegments := free }
            if found then batchLoop count freeMem fuel s segments else some (s, segments)
          else batchLoop count freeMem fuel { s with freeSegments := free } segments
        | none =>
          let (found, free) := s.freeSegments.getNext
          let s := { s with freeSegments := free }
          if found then batchLoop count freeMem fuel s segments else some (s, segments)
    else some (s, segments)

variable (alignment : Nat)

/-- The size of the chunks of `allocateBatch`. -/
def chunkSize (s : TempSpace) (count minSize maxSize : Nat) : Nat :=
  let freeMem := (s.freeSegments.items.map Segment.size).sum
  let freeMem := min (freeMem / count) maxSize
  let freeMem := max freeMem minSize
  let freeMem := min freeMem minBlockSize
  freeMem - (freeMem &&& (alignment - 1))

/-- `allocateBatch`, for an empty array of segments. -/
def allocateBatch (s : TempSpace) (count minSize maxSize : Nat) :
    Option (TempSpace × List SegmentInMemory) :=
  let freeMem := chunkSize minBlockSize alignment s count minSize maxSize
  let (found, free) := s.freeSegments.getFirst
  let s := { s with freeSegments := free }
  if found then batchLoop count freeMem (count + s.freeSegments.items.length + 1) s []
  else some (s, [])

end Firebird.Jrd.Temp
