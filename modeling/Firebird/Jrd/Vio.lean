import Firebird.Sqz.Compress
import Firebird.Sqz.Differences

/-!
# Record versions

The functions of `vio.cpp` that read a record: `VIO_data` and `VIO_chase_record_version`. The
versions of a record are a list from the newest one to the oldest one; the place of a version on the
pages is the list it is the head of. Nobody else changes the versions meanwhile, so that a version
that is fetched again is the same one.
-/
namespace Firebird.Jrd.Vio

open Sqz

/-- The states `TRA_snapshot_state` gives. -/
inductive State
  | us
  | committed
  | active
  | dead
  | limbo
  | precommitted
  deriving DecidableEq

/-- A version of a record: the flags of its header, the transaction that wrote it, the length of its
format, and its compressed pieces. The first piece stands behind the header and the others are
fragments. -/
structure Version where
  deleted : Bool
  chained : Bool
  delta : Bool
  damaged : Bool
  gcActive : Bool
  transactionNr : Nat
  fmtLength : Nat
  pieces : List (List SCHAR)
  deriving DecidableEq

inductive Stop
  | fault (f : Sqz.Fault)
  | bugcheck (msg : Nat)
  | deadlock
  | recInLimbo (transactionNr : Nat)
  | overrun
  deriving DecidableEq

/-- A record block: its `rec_length`, and all of the area that has been allocated for its data. -/
structure Record where
  recLength : Nat
  recData : List SCHAR
  deriving DecidableEq

def area (junk : Nat → SCHAR) (length : Nat) : List SCHAR := (List.range length).map junk

/-- `realloc_record`: the bytes of the record are kept, and so is `rec_length`. -/
def Record.realloc (junk : Nat → SCHAR) (r : Record) (length : Nat) : Record :=
  { r with recData := r.recData.take r.recLength ++ (area junk length).drop r.recLength }

/-- `VIO_record`, for the length of a format. -/
def vioRecord (junk : Nat → SCHAR) (fmtLength : Nat) : Option Record → Record
  | none => ⟨fmtLength, area junk fmtLength⟩
  | some r =>
    if r.recLength < fmtLength then { r.realloc junk fmtLength with recLength := fmtLength }
    else { r with recLength := fmtLength }

/-- `rpb_prior`: none, the record of the block itself, or some other record. -/
inductive Prior
  | null
  | self
  | other (r : Record)
  deriving DecidableEq

/-- The record parameter block: the version it is at, the versions behind that one, and all
versions of the record. -/
structure Rpb where
  version : Version
  back : List Version
  all : List Version
  record : Option Record
  prior : Prior
  deriving DecidableEq

/-- `SQZ_decompress` of the pieces one after another, up to `tail_end`. -/
def decompressPieces : List (List SCHAR) → Nat → Except Stop (List SCHAR)
  | [], _ => .ok []
  | piece :: pieces, cap =>
    match sqzDecompress piece piece.length cap with
    | .error f => .error (.fault f)
    | .ok part => do
      let parts ← decompressPieces pieces (cap - part.length)
      return part ++ parts

def Record.load (record : Record) (pieces : List (List SCHAR)) : Except Stop (Record × Nat) := do
  let image ← decompressPieces pieces record.recLength
  return ({ record with recData := image ++ record.recData.drop image.length }, image.length)

def Record.patch (record : Record) (pieces : List (List SCHAR)) : Except Stop (Record × Nat) := do
  let differences ← decompressPieces pieces MAX_DIFFERENCES
  match sqzApplyDifferences (record.recData.take record.recLength) differences with
  | .error b => .error (.bugcheck b.msg)
  | .ok (length, data) =>
    return ({ record with recData := data ++ record.recData.drop record.recLength }, length)

def Record.move (junk : Nat → SCHAR) (record prior : Record) : Record :=
  let record := if record.recLength < prior.recLength then record.realloc junk prior.recLength else
    record
  { record with
    recData := prior.recData.take prior.recLength ++ record.recData.drop prior.recLength }

def Rpb.read (junk : Nat → SCHAR) (rpb : Rpb) : Except Stop (Record × Nat) :=
  let record := vioRecord junk rpb.version.fmtLength rpb.record
  match rpb.prior with
  | .null => record.load rpb.version.pieces
  | .self => record.patch rpb.version.pieces
  | .other prior => (record.move junk prior).patch rpb.version.pieces

def vioData (junk : Nat → SCHAR) (rpb : Rpb) : Except Stop Rpb := do
  let (record, length) ← rpb.read junk
  if rpb.version.fmtLength ≠ length then .error (.bugcheck 183)
  else
    return { rpb with
      record := some record
      prior := if !rpb.back.isEmpty && rpb.version.delta then .self else .null }

/-- What the chase depends on: the transaction with its flags, the flags of the attachment and of
the database, what `TRA_wait` returns, and what `VIO_backout` and `purge` make of the versions. -/
structure Env where
  state : Nat → State
  wait : Nat → State
  readCommitted : Bool
  recVersion : Bool
  ignoreLimbo : Bool
  writelock : Bool
  oldestActive : Nat
  noCleanup : Bool
  notifyGc : Bool
  garbageCollector : Bool
  gcCooperative : Bool
  temporary : Bool
  backout : List Version → List Version
  purge : List Version → List Version
  junk : Nat → SCHAR

def Rpb.get (rpb : Rpb) : Option Rpb :=
  match rpb.all with
  | [] => none
  | v :: back =>
    if v.chained then none else some { rpb with version := v, back := back, prior := .null }

/-- How a turn of the loop ends: with a result, at another version, or with the same version in a
state that is already known. -/
inductive Turn
  | ret (found : Bool) (rpb : Rpb)
  | next (rpb : Rpb)
  | again (rpb : Rpb) (state : State)
  deriving DecidableEq

def Rpb.restart (rpb : Rpb) : Turn :=
  match rpb.get with
  | some rpb => .next rpb
  | none => .ret false rpb

def Env.dead (env : Env) (rpb : Rpb) : Except Stop Turn :=
  if env.noCleanup || env.notifyGc || rpb.version.chained || rpb.version.gcActive then
    match rpb.back with
    | [] => .ok (.ret false rpb)
    | v :: back =>
      if !rpb.version.deleted || rpb.version.delta then do
        let rpb ← vioData env.junk rpb
        let prior := if rpb.version.delta then .self else rpb.prior
        return .next { rpb with version := v, back := back, prior := prior }
      else .ok (.next { rpb with version := v, back := back })
  else .ok ({ rpb with all := env.backout rpb.all } : Rpb).restart

/-- The branch for an active transaction, and for one in limbo that is ignored. -/
def Env.active (env : Env) (rpb : Rpb) : Except Stop Turn :=
  match rpb.back with
  | [] => .ok (.ret false rpb)
  | v :: back =>
    if env.garbageCollector then .ok (.ret false rpb)
    else if !rpb.version.delta then
      .ok (.next { rpb with version := v, back := back, prior := .null })
    else do
      let rpb ← vioData env.junk rpb
      return .next { rpb with version := v, back := back }

def Env.committed (env : Env) (rpb : Rpb) : Turn :=
  if rpb.version.deleted then .ret false rpb
  else if rpb.version.transactionNr ≥ env.oldestActive ∨ rpb.back = [] ∨ rpb.version.chained ∨
      env.noCleanup then .ret true rpb
  else if !env.gcCooperative && env.notifyGc && !env.temporary then .ret true rpb
  else ({ rpb with all := env.purge rpb.all } : Rpb).restart

def Env.switch (env : Env) (state : State) (rpb : Rpb) : Except Stop Turn :=
  match state with
  | .dead | .precommitted => env.dead rpb
  | .limbo =>
    if env.ignoreLimbo then env.active rpb else .error (.recInLimbo rpb.version.transactionNr)
  | .active => env.active rpb
  | .us => .ok (.ret (!rpb.version.deleted) rpb)
  | .committed => .ok (env.committed rpb)

/-- A read committed transaction without record versions, or with a write lock, waits. -/
def Env.waits (env : Env) : Bool := env.readCommitted && (!env.recVersion || env.writelock)

def Env.awaitLimbo (env : Env) (rpb : Rpb) : Except Stop Turn :=
  match rpb.get with
  | none => .ok (.ret false rpb)
  | some rpb =>
    match env.state rpb.version.transactionNr with
    | .active => if env.ignoreLimbo then env.switch .limbo rpb else .error .deadlock
    | state => env.switch state rpb

def Env.awaitActive (env : Env) (rpb : Rpb) : Except Stop Turn :=
  if env.wait rpb.version.transactionNr = .active then .error .deadlock
  else
    match rpb.get with
    | none => .ok (.ret false rpb)
    | some rpb => .ok (.again rpb (env.state rpb.version.transactionNr))

def Env.limboState (env : Env) (rpb : Rpb) : State → State
  | .limbo =>
    if env.ignoreLimbo then .limbo
    else
      match env.wait rpb.version.transactionNr with
      | .active => .limbo
      | state => state
  | state => state

def Env.turn (env : Env) (state : State) (rpb : Rpb) : Except Stop Turn :=
  if rpb.version.damaged then .ok (.ret false rpb)
  else
    let state := env.limboState rpb state
    if env.waits && state == .limbo then env.awaitLimbo rpb
    else if env.waits && state == .active && !rpb.version.gcActive then env.awaitActive rpb
    else env.switch state rpb

def gcState (v : Version) (state : State) : Version × State :=
  let state := if v.transactionNr = 0 then .active else state
  let state := if state = .committed then .dead else state
  (if state = .dead then { v with gcActive := false } else v, state)

def Env.chaseLoop (env : Env) : Nat → State → Rpb → Option (Except Stop (Bool × Rpb))
  | 0, _, _ => none
  | n + 1, state, rpb =>
    match env.turn state rpb with
    | .error e => some (.error e)
    | .ok (.ret found rpb) => some (.ok (found, rpb))
    | .ok (.again rpb state) => env.chaseLoop n state rpb
    | .ok (.next rpb) =>
      let state := env.state rpb.version.transactionNr
      if !rpb.version.chained && rpb.version.gcActive then
        let (version, state) := gcState rpb.version state
        env.chaseLoop n state { rpb with version := version }
      else env.chaseLoop n state rpb

def Env.fast (env : Env) (state : State) (rpb : Rpb) : Bool :=
  (state == .committed || state == .us) && !rpb.version.deleted && !rpb.version.damaged &&
    (rpb.back.isEmpty || rpb.version.transactionNr ≥ env.oldestActive)

/-- `VIO_chase_record_version`, for so many turns of its loop. -/
def Env.vioChaseRecordVersion (env : Env) (n : Nat) (rpb : Rpb) :
    Option (Except Stop (Bool × Rpb)) :=
  let state := env.state rpb.version.transactionNr
  let (version, state) := if rpb.version.gcActive then gcState rpb.version state else
    (rpb.version, state)
  let rpb := { rpb with version := version }
  if env.fast state rpb then some (.ok (true, rpb)) else env.chaseLoop n state rpb

end Firebird.Jrd.Vio
