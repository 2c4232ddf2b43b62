import Firebird.Jrd.VioChain

/-!
# Changes of a record

The functions of `vio.cpp` that change the versions of a record: updates and write locks, updates in
place, backouts and purges. They are applied one after another, so that a record that is fetched
again is the same one.
-/
namespace Firebird.Jrd.Vio

open Sqz

/-- What the changes find: how a record is laid out on the pages, the blocks `VIO_gc_record` hands
out, and whether a version is on the page of the one it is replaced with. -/
structure Disk where
  pack : List SCHAR → List (List SCHAR)
  holds : ∀ image : List SCHAR, image.length ≤ 65535 → Holds (pack image) image
  gcRec1 : Record
  gcRec2 : Record
  gcRec1_sound : gcRec1.recLength ≤ gcRec1.recData.length
  samePage : Bool
  junk : Nat → SCHAR

def Rpb.data (rpb : Rpb) : List SCHAR :=
  match rpb.record with
  | some r => r.recData.take r.recLength
  | none => []

/-- `rpb_prior`, as another block sees it. -/
def Rpb.priorRecord (rpb : Rpb) : Option Record :=
  match rpb.prior with
  | .null => none
  | .self => rpb.record
  | .other r => some r

def otherPrior : Option Record → Prior
  | some r => .other r
  | none => .null

def fetch (disk : Disk) (v : Version) (back : List Version) : Except Stop Rpb :=
  vioData disk.junk ⟨v, back, v :: back, none, .null⟩

def differences (disk : Disk) (new old : List SCHAR) : Except Stop (Option (List SCHAR)) :=
  match sqzDifferences new old (area disk.junk MAX_DIFFERENCES) with
  | some (l, out) => .ok (if l < MAX_DIFFERENCES ∧ l < old.length then some (out.take l) else none)
  | none => .error .overrun

/-- `prepare_update`: the old version as it is stored again, and whether the new one gets
`rpb_delta`. -/
def prepareUpdate (disk : Disk) (rpb : Rpb) (new : Option (List SCHAR)) (writelock : Bool) :
    Except Stop (Version × Bool) := do
  let delta ← match new with
    | some new => differences disk new rpb.data
    | none => .ok none
  let image := if writelock then sqzNoDifferences rpb.data.length else delta.getD rpb.data
  return ({ rpb.version with
    deleted := false
    chained := true
    delta := rpb.priorRecord.isSome
    damaged := false
    gcActive := false
    pieces := disk.pack image }, delta.isSome)

def replaceRecord (disk : Disk) (v : Version) (data : List SCHAR) : Version :=
  { v with chained := false, gcActive := false, pieces := disk.pack data }

/-- `VIO_modify`, where the new version is not written in place. -/
def vioModify (disk : Disk) (new : List SCHAR) (transactionNr : Nat) :
    List Version → Except Stop (List Version)
  | [] => .ok []
  | v :: back => do
    let rpb ← fetch disk v back
    let (temp, delta) ← prepareUpdate disk rpb (some new) false
    let v := { v with transactionNr := transactionNr, fmtLength := new.length, delta := delta }
    return replaceRecord disk v new :: temp :: back

def vioWritelock (disk : Disk) (transactionNr : Nat) : List Version → Except Stop (List Version)
  | [] => .ok []
  | v :: back => do
    let rpb ← fetch disk v back
    let (temp, _) ← prepareUpdate disk rpb none true
    let v := { v with transactionNr := transactionNr, delta := true }
    return replaceRecord disk v rpb.data :: temp :: back

def fetchBack (disk : Disk) (prior : Option Record) (b : Version) (rest : List Version) :
    Except Stop Rpb :=
  vioData disk.junk ⟨b, rest, b :: rest, some disk.gcRec1, otherPrior prior⟩

def completeBack (disk : Disk) (prior : Option Record) (b : Version) (rest : List Version) :
    Except Stop Version := do
  let temp2 ← fetchBack disk prior b rest
  return { b with
    deleted := false
    chained := true
    delta := temp2.priorRecord.isSome
    damaged := false
    gcActive := false
    pieces := disk.pack temp2.data }

def updateInPlace (disk : Disk) (new : List SCHAR) : List Version → Except Stop (List Version)
  | [] => .ok []
  | v :: back => do
    let rpb ← fetch disk v back
    match rpb.priorRecord, back with
    | some r, b :: rest => do
      let temp2 ← completeBack disk (some r) b rest
      let v := { v with fmtLength := new.length, delta := false }
      return replaceRecord disk v new :: temp2 :: rest
    | _, back => return replaceRecord disk { v with fmtLength := new.length } new :: back

/-- `list_staying`: all the versions are read, each with a record of its own; `data` is the last
one. -/
def listStaying (disk : Disk) : Option Record → Bool → List Version → Except Stop Unit
  | _, _, [] => .ok ()
  | data, delta, v :: back =>
    if v.deleted then listStaying disk data v.delta back
    else do
      let prior := otherPrior (if delta then data else none)
      let temp ← vioData disk.junk ⟨v, back, v :: back, none, prior⟩
      listStaying disk temp.record v.delta back

def outgoing (disk : Disk) (v : Version) (back : List Version) : Except Stop (Option Record) :=
  if v.deleted && !v.delta then .ok none
  else do
    let temp ← vioData disk.junk ⟨v, back, v :: back, some disk.gcRec2, .null⟩
    return if v.delta then temp.priorRecord else none

def bringForward (disk : Disk) (data : Option Record) (b : Version) (rest : List Version) :
    Except Stop Version :=
  if b.deleted then
    .ok (replaceRecord disk { b with delta := data.isSome, damaged := false } [])
  else do
    let temp ← fetchBack disk data b rest
    return replaceRecord disk { b with delta := temp.priorRecord.isSome, damaged := false }
      temp.data

def vioBackout (disk : Disk) : List Version → Except Stop (List Version)
  | [] => .ok []
  | [v] => do
    let _ ← outgoing disk v []
    return []
  | v :: b :: rest => do
    let data ← outgoing disk v (b :: rest)
    let forward ← bringForward disk data b rest
    if !v.deleted then listStaying disk none false (v :: b :: rest)
    if disk.samePage && data.isNone then
      return { b with chained := false, gcActive := false } :: rest
    else return forward :: rest

/-- `garbage_collect`: the versions are read while they are deleted. -/
def garbageCollect (disk : Disk) : Option Record → List Version → Except Stop Unit
  | _, [] => .ok ()
  | prior, v :: back =>
    if v.deleted then garbageCollect disk prior back
    else do
      let (r, _) ← Rpb.read disk.junk ⟨v, back, v :: back, none, otherPrior prior⟩
      garbageCollect disk (if v.delta then some r else none) back

def purge (disk : Disk) : List Version → Except Stop (List Version)
  | [] => .ok []
  | v :: back => do
    let rpb ← vioData disk.junk ⟨v, back, v :: back, some disk.gcRec1, .null⟩
    if back.isEmpty then return v :: back
    else do
      garbageCollect disk rpb.priorRecord back
      return [{ v with delta := false, gcActive := false }]

inductive Change
  | update (new : List SCHAR) (transactionNr : Nat)
  | writelock (transactionNr : Nat)
  | updateInPlace (new : List SCHAR)
  | backout
  | purge

def Change.apply (disk : Disk) : Change → List Version → Except Stop (List Version)
  | update new transactionNr => vioModify disk new transactionNr
  | writelock transactionNr => vioWritelock disk transactionNr
  | updateInPlace new => Vio.updateInPlace disk new
  | backout => vioBackout disk
  | purge => Vio.purge disk

def Change.contents : Change → List (List SCHAR) → List (List SCHAR)
  | _, [] => []
  | update new _, c :: cs => new :: c :: cs
  | writelock _, c :: cs => c :: c :: cs
  | updateInPlace new, _ :: cs => new :: cs
  | backout, _ :: cs => cs
  | purge, c :: _ => [c]

def Change.Valid : Change → Prop
  | update new _ | updateInPlace new => 1 ≤ new.length ∧ new.length ≤ 65535
  | writelock _ | backout | purge => True

def run : List (Disk × Change) → List Version → Except Stop (List Version)
  | [], vs => .ok vs
  | (disk, change) :: changes, vs => do
    let vs ← change.apply disk vs
    run changes vs

def readAll (junk : Nat → SCHAR) : Option Record → Prior → List Version →
    Except Stop (List (List SCHAR))
  | _, _, [] => .ok []
  | record, prior, v :: back => do
    let rpb ← vioData junk ⟨v, back, v :: back, record, prior⟩
    let contents ← readAll junk rpb.record rpb.prior back
    return rpb.data :: contents

end Firebird.Jrd.Vio
