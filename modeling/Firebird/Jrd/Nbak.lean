import Mathlib.Data.Set.Basic
import Mathlib.Tactic.Ring

/-!
# The allocation table of the difference file

The functions of `nbak.cpp` that map the pages of a database to pages of the difference file. A
page is the sequence of its words, and a page that has not been written cannot be read. Reading and
writing do not fail otherwise. `entries` is `dbb_page_size / sizeof(ULONG)`.
-/
namespace Firebird.Jrd.Nbak

def ulong (x : Nat) : Nat := x % 2 ^ 32

abbrev Page := Nat → Nat

abbrev DiffFile := Nat → Option Page

def DiffFile.write (file : DiffFile) (pageNum : Nat) (page : Page) : DiffFile :=
  Function.update file pageNum (some page)

def emptyBuffer : Page := fun _ => 0

/-- What a `BackupManager` knows of the table. A table that has not been created is empty. -/
structure BackupManager where
  allocTable : Nat → Option Nat
  lastAllocatedPage : Nat
  allocBuffer : Page

/-- `last_allocated_page & ~(database->dbb_page_size / sizeof(ULONG) - 1)` -/
def pointerPage (entries lastAllocatedPage : Nat) : Nat := lastAllocatedPage &&& (2 ^ 32 - entries)

def addItems (base : Nat) (buffer : Page) :
    Nat → Nat → (Nat → Option Nat) → Option (Nat → Option Nat)
  | 0, _, table => some table
  | n + 1, i, table =>
    if (table (buffer (i + 1))).isSome then none
    else addItems base buffer n (i + 1)
      (Function.update table (buffer (i + 1)) (some (ulong (base + i + 1))))

/-- The loop over the pointer pages. `n` is a bound for their number. -/
def actualizeLoop (entries : Nat) (file : DiffFile) : Nat → BackupManager → Option BackupManager
  | 0, _ => none
  | n + 1, m => do
    let base := pointerPage entries m.lastAllocatedPage
    let buffer ← file base
    let i := m.lastAllocatedPage - base
    let table ← addItems base buffer (buffer 0 - i) i m.allocTable
    let last := ulong (base + buffer 0)
    if buffer 0 = entries - 1 then actualizeLoop entries file n ⟨table, ulong (last + 1), buffer⟩
    else some ⟨table, last, buffer⟩

/-- `actualize_alloc`; nothing if it fails. -/
def actualizeAlloc (entries : Nat) (file : DiffFile) (m : BackupManager) : Option BackupManager :=
  actualizeLoop entries file (2 ^ 32) m

def getPageIndex (m : BackupManager) (dbPage : Nat) : Nat := (m.allocTable dbPage).getD 0

/-- `AllocItemTree::add`, whose result is not used. -/
def addItem (table : Nat → Option Nat) (dbPage diffPage : Nat) : Nat → Option Nat :=
  if (table dbPage).isSome then table else Function.update table dbPage (some diffPage)

/-- `alloc_buffer[++alloc_buffer[0]] = db_page` -/
def pushEntry (buffer : Page) (dbPage : Nat) : Page :=
  let n := ulong (buffer 0 + 1)
  Function.update (Function.update buffer 0 n) n dbPage

def growFile (entries : Nat) (file : DiffFile) (m : BackupManager) : DiffFile :=
  let file := file.write (ulong (m.lastAllocatedPage + 1)) emptyBuffer
  if m.allocBuffer 0 = entries - 2 then file.write (ulong (m.lastAllocatedPage + 2)) emptyBuffer
  else file

/-- `allocate_difference_page`: the page, with the file and what the manager knows afterwards. -/
def allocateDifferencePage (entries : Nat) (file : DiffFile) (m : BackupManager) (dbPage : Nat) :
    Nat × DiffFile × BackupManager :=
  let diffPage := getPageIndex m dbPage
  if diffPage ≠ 0 then (diffPage, file, m)
  else
    let buffer := pushEntry m.allocBuffer dbPage
    let file :=
      (growFile entries file m).write (pointerPage entries m.lastAllocatedPage) buffer
    let last := ulong (m.lastAllocatedPage + 1)
    let table := addItem m.allocTable dbPage last
    if m.allocBuffer 0 = entries - 2 then
      let last := ulong (last + 1)
      (ulong (last + 2 ^ 32 - 1), file, ⟨table, last, emptyBuffer⟩)
    else (last, file, ⟨table, last, buffer⟩)

variable {ι : Type*} [DecidableEq ι]

/-- The difference file with all the processes, and those of them that have read the table since it
was changed by another one. -/
structure State (ι : Type*) where
  file : DiffFile
  manager : ι → BackupManager
  actual : Set ι

/-- What happens while the database is locked for a backup, from `begin_backup` on, with the pages
that have been asked for and what was returned. The number of a page of a database is an `SLONG`. -/
inductive Reach (entries : Nat) : State ι → List (Nat × Nat) → Prop
  | beginBackup (buffer : ι → Page) :
    Reach entries ⟨DiffFile.write (fun _ => none) 0 emptyBuffer, fun p =>
      ⟨fun _ => none, 0, buffer p⟩, ∅⟩ []
  | actualize {s : State ι} {asked : List (Nat × Nat)} {m : BackupManager} (p : ι) :
    Reach entries s asked → actualizeAlloc entries s.file (s.manager p) = some m →
      Reach entries ⟨s.file, Function.update s.manager p m, insert p s.actual⟩ asked
  | allocate {s : State ι} {asked : List (Nat × Nat)} {diffPage : Nat} {file : DiffFile}
      {m : BackupManager} (p : ι) (dbPage : Nat) : Reach entries s asked → p ∈ s.actual →
    dbPage < 2 ^ 31 →
    allocateDifferencePage entries s.file (s.manager p) dbPage = (diffPage, file, m) →
      Reach entries ⟨file, Function.update s.manager p m,
        if getPageIndex (s.manager p) dbPage ≠ 0 then s.actual else {p}⟩
          ((dbPage, diffPage) :: asked)
  | writeDifference {s : State ι} {asked : List (Nat × Nat)} {dbPage diffPage : Nat} (p : ι)
      (page : Page) : Reach entries s asked → (s.manager p).allocTable dbPage = some diffPage →
      Reach entries { s with file := s.file.write diffPage page } asked

end Firebird.Jrd.Nbak
