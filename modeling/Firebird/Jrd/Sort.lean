import Firebird.Machine
import Mathlib.Data.List.Basic
import Mathlib.Data.List.Count

/-!
# Sort runs

The control side of the sort package: how `SORT_put` fills the sort buffer and spills it into runs,
how the runs are merged early (`merge_runs`), when the buffer grows (`init`), and the 16-bit record
sizes computed on the way. What the records hold is not looked at here. The offset a run gets in the
temporary space and the memory its buffers find there are left to the environment, and so is the
success of the allocation that grows the buffer.

A context keeps a trace of the calls of `merge_runs`, of the growing of the buffer and of the sizes
computed, newest first, for the results to speak about.
-/
namespace Firebird.Jrd.Sort

def runGroup : Nat := 8

def maxMergeLevel : Nat := 2

def sortBufferChunkSize : Nat := 4096

def maxSortBufferSize : Nat := sortBufferChunkSize * 32

def sizeofSrBckptr : Nat := 8

def sizeofSrBckptrInLongs : Nat := 2

def maxSortRecord : Nat := 65535

/-- `ROUNDUP`, to a multiple of a power of two. -/
def roundup (n b : Nat) : Nat := (n + b - 1) / b * b

/-- `run_control`: `run_depth` and `run_seek`. -/
structure RunControl where
  depth : Nat
  seek : Nat
  deriving DecidableEq

/-- What the trace tells: a call of `merge_runs` with the run list it finds, the run list whose
depths `init` counts down, `scb_longs` as `SORT_init` sets it, and `scb_longs` without the back
pointer with the `rec_size` taken from it. -/
inductive Event
  | mergeRuns (runs : List RunControl) (n : Nat)
  | grow (runs : List RunControl)
  | longs (longs : Nat)
  | size (longs recSize : Nat)
  deriving DecidableEq

/-- `sort_context`. Addresses count from `scb_memory`: `scb_last_record` in bytes,
`scb_next_pointer` in pointers. `tries` counts the allocations `init` has tried. -/
structure SortContext where
  longs : Nat
  sizeMemory : Nat
  lastRecord : Nat
  nextPointer : Nat
  runs : List RunControl
  tries : Nat
  trace : List Event
  deriving DecidableEq

/-- `init`. `alloc k` tells whether the allocation tried as number `k` succeeds. -/
def init (alloc : Nat → Bool) (scb : SortContext) : SortContext :=
  let scb :=
    if scb.sizeMemory ≤ maxSortBufferSize ∧
        scb.runs.head?.map RunControl.depth = some maxMergeLevel then
      if alloc scb.tries then
        { scb with
          trace := .grow scb.runs :: scb.trace
          sizeMemory := maxSortBufferSize * runGroup
          runs := scb.runs.map fun run => { run with depth := ushort (run.depth + 65535) }
          tries := scb.tries + 1 }
      else { scb with tries := scb.tries + 1 }
    else scb
  -- the first pointer is that of `low_key`
  { scb with nextPointer := 1, lastRecord := scb.sizeMemory }

/-- `SORT_init`. The first `chunk` requests for the buffer fail, each being a chunk smaller than the
one before. -/
def sortInit (alloc : Nat → Bool) (recordLength : Nat) (chunk : Fin 29) : SortContext :=
  let longs := ushort (roundup (recordLength + sizeofSrBckptr) 8 / 4)
  init alloc
    { longs
      sizeMemory := maxSortBufferSize - chunk * sortBufferChunkSize
      lastRecord := 0
      nextPointer := 0
      runs := []
      tries := 0
      trace := [.longs longs] }

/-- `put_run`: the new run is the first one. -/
def putRun (scb : SortContext) (seek : Nat) : SortContext :=
  { scb with runs := ⟨0, seek⟩ :: scb.runs }

/-- `SortedArray::add` with `run_seek` for the key. -/
def insertBySeek (run : RunControl) : List RunControl → List RunControl
  | [] => [run]
  | r :: rest => if r.seek < run.seek then r :: insertBySeek run rest else run :: r :: rest

def sortRunsBySeek (runs : List RunControl) (n : Nat) : List RunControl :=
  (runs.take n).foldl (fun sorted run => insertBySeek run sorted) [] ++ runs.drop n

def recSize (longs : Nat) : Nat := ushort (longs * 4)

/-- `allocate_memory`, as far as it computes sizes. -/
def allocateMemory (longs : Nat) : Event := .size longs (recSize longs)

/-- `scb_longs -= SIZEOF_SR_BCKPTR_IN_LONGS` -/
def withoutBckptr (longs : Nat) : Nat := ushort (longs + 65536 - sizeofSrBckptrInLongs)

/-- `scb_longs += SIZEOF_SR_BCKPTR_IN_LONGS` -/
def withBckptr (longs : Nat) : Nat := ushort (longs + sizeofSrBckptrInLongs)

/-- The run list after `merge_runs`, `runs` being sorted by their offsets. The last of the `n` runs
removed gives its block and, with one added, its depth to the new run. -/
def replaceRuns (runs : List RunControl) (n seek : Nat) : List RunControl :=
  match (runs.take n).getLast? with
  | none => runs
  | some run => ⟨ushort (run.depth + 1), seek⟩ :: runs.drop n

/-- `merge_runs`. The new run lies at `seek`. -/
def mergeRuns (scb : SortContext) (n seek : Nat) : SortContext :=
  let longs := withoutBckptr scb.longs
  { scb with
    longs := withBckptr longs
    runs := replaceRuns (sortRunsBySeek scb.runs n) n seek
    trace := allocateMemory longs :: .size longs (recSize longs) :: .mergeRuns scb.runs n ::
      scb.trace }

/-- The loop of `SORT_put` that merges the runs of the smallest depth. -/
def mergeLoop (seek : Nat → Nat) : Nat → Nat → SortContext → SortContext
  | 0, _, scb => scb
  | fuel + 1, k, scb =>
    match scb.runs with
    | [] => scb
    | run :: rest =>
      if run.depth = maxMergeLevel then scb
      else
        let count := ushort (1 + (rest.takeWhile fun r => r.depth = run.depth).length)
        if count < runGroup then scb
        else mergeLoop seek fuel (k + 1) (mergeRuns scb count (seek k))

def SortContext.full (scb : SortContext) : Bool :=
  scb.lastRecord < scb.longs * 4 || scb.lastRecord - scb.longs * 4 ≤ (scb.nextPointer + 1) * 8

/-- The branch of `SORT_put` for a full buffer. -/
def spill (alloc : Nat → Bool) (seek : Nat → Nat) (scb : SortContext) : SortContext :=
  let scb := putRun scb (seek 0)
  init alloc (mergeLoop seek scb.runs.length 1 scb)

/-- `SORT_put`. The runs written in the call are given the offsets `seek 0`, `seek 1`, … -/
def sortPut (alloc : Nat → Bool) (seek : Nat → Nat) (scb : SortContext) : SortContext :=
  let scb := if scb.full then spill alloc seek scb else scb
  { scb with lastRecord := scb.lastRecord - scb.longs * 4, nextPointer := scb.nextPointer + 1 }

/-- `SORT_sort`, with `short` when the temporary space has not enough memory for all runs. -/
def sortSort (seek : Nat → Nat) (short : Bool) (scb : SortContext) : SortContext :=
  if scb.runs = [] then scb
  else
    let scb := putRun scb (seek 0)
    let runCount := scb.runs.length
    let lowDepthCnt := scb.runs.countP fun run => run.depth < maxMergeLevel
    let scb :=
      if 1 < lowDepthCnt ∧ lowDepthCnt < runCount then mergeRuns scb (ushort lowDepthCnt) (seek 1)
      else scb
    let longs := withoutBckptr scb.longs
    { scb with
      longs
      runs := sortRunsBySeek scb.runs scb.runs.length
      trace := (if short then [.size longs (recSize longs)] else []) ++
        allocateMemory longs :: scb.trace }

/-- A sort: `SORT_init`, then `SORT_put` once for each element of `calls`. -/
def sortPuts (alloc : Nat → Bool) (recordLength : Nat) (chunk : Fin 29)
    (calls : List (Nat → Nat)) : SortContext :=
  calls.foldl (fun scb seek => sortPut alloc seek scb) (sortInit alloc recordLength chunk)

end Firebird.Jrd.Sort
