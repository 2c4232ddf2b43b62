import Mathlib.Tactic.IntervalCases
import Firebird.Machine

/-!
# The transaction parameter block

`transaction_options` reads the options of a transaction from the bytes that a client has passed. A
list stands for the bytes between `tpb` and `end`.
-/
namespace Firebird.Jrd.Tpb

structure TriState where
  init : Bool := false
  val : Bool := false

namespace TriState

def assignOnce (t : TriState) (input : Bool) : Option TriState :=
  if t.init then none else some ⟨true, input⟩

def asBool (t : TriState) : Bool := t.init && t.val

def isAssigned (t : TriState) : Bool := t.init

end TriState

/-- The options, `isc_tpb_consistency` and so on. -/
inductive Op where
  | tpbConsistency
  | tpbConcurrency
  | tpbShared
  | tpbProtected
  | tpbExclusive
  | tpbWait
  | tpbNowait
  | tpbRead
  | tpbWrite
  | tpbLockRead
  | tpbLockWrite
  | tpbVerbTime
  | tpbCommitTime
  | tpbIgnoreLimbo
  | tpbReadCommitted
  | tpbAutocommit
  | tpbRecVersion
  | tpbNoRecVersion
  | tpbRestartRequests
  | tpbNoAutoUndo
  | tpbLockTimeout
  deriving DecidableEq

namespace Op

def all : List Op :=
  [tpbConsistency, tpbConcurrency, tpbShared, tpbProtected, tpbExclusive, tpbWait, tpbNowait,
    tpbRead,
    tpbWrite, tpbLockRead, tpbLockWrite, tpbVerbTime, tpbCommitTime, tpbIgnoreLimbo,
      tpbReadCommitted,
    tpbAutocommit, tpbRecVersion, tpbNoRecVersion, tpbRestartRequests, tpbNoAutoUndo,
      tpbLockTimeout]

def ofByte (b : UInt8) : Option Op := if b = 0 then none else all[b.toNat - 1]?

def code (op : Op) : UInt8 := .ofNat (op.ctorIdx + 1)

theorem ofByte_code (op : Op) : ofByte op.code = some op := by cases op <;> rfl

theorem code_of_ofByte {b : UInt8} {op : Op} (h : ofByte b = some op) : b = op.code := by
  unfold ofByte at h
  split_ifs at h with h0
  obtain ⟨hi, rfl⟩ := List.getElem?_eq_some_iff.mp h
  have hb : b = .ofNat (b.toNat - 1 + 1) := by
    have : b.toNat ≠ 0 := fun he => h0 (UInt8.toNat_inj.mp he)
    rw [Nat.sub_add_cancel (Nat.one_le_iff_ne_zero.mpr this), UInt8.ofNat_toNat]
  generalize b.toNat - 1 = i at hi hb
  rw [hb]
  change i < 21 at hi
  interval_cases i <;> rfl

end Op

/-- The flags of `tra_flags` that the options set. -/
structure TraFlags where
  degree3 : Bool := false
  readCommitted : Bool := false
  recVersion : Bool := false
  readonly : Bool := false
  ignoreLimbo : Bool := false
  noAutoUndo : Bool := false
  autocommit : Bool := false
  restartRequests : Bool := false

/-- `LCK_none` to `LCK_EX`, as far as relations are reserved. -/
inductive Level where
  | none | pr | sw | ex
  deriving DecidableEq

/-- The transaction and the locals of `transaction_options`. -/
structure Options where
  traFlags : TraFlags := {}
  /-- `DEFAULT_LOCK_TIMEOUT` to begin with -/
  traLockTimeout : Int := -1
  traRelationLocks : List (Nat × Level) := []
  wait : TriState := {}
  lockTimeout : TriState := {}
  isolation : TriState := {}
  readOnly : TriState := {}
  recVersion : TriState := {}

/-- What the metadata and the lock manager say of the relations that are reserved: the relation of a
name, the relations that `expand_view_lock` locks for it unless one of a view is missing, and
whether all of them can be had. -/
structure Relations where
  lookup : List UInt8 → Option Nat
  expandViewLock : Nat → Option (List Nat)
  seize : List (Nat × Level) → Int → Bool

/-- `gds__vax_integer`; a shift by 32 or more is that of the machine. -/
def vaxInteger : List UInt8 → Nat → BitVec 32
  | [], _ => 0
  | b :: bs, shift => BitVec.ofNat 32 b.toNat <<< (shift % 32) + vaxInteger bs (shift + 8)

/-- `tra_lock_timeout` is an `SSHORT`. -/
def lockTimeout (value : List UInt8) : Int := ((vaxInteger value 0).setWidth 16).toInt

/-- What `transaction_options` comes to: the transaction, unless an error is raised, and whether a
byte at `end` has been read. -/
structure Walk where
  result : Option Options
  outside : Bool

def Walk.rejected : Walk := ⟨none, false⟩

/-- The options that are a single byte; `none` if an error is raised. -/
def option (op : Op) (t : Options) : Option Options :=
  match op with
  | .tpbConsistency => (t.isolation.assignOnce true).map fun isolation =>
    { t with isolation, traFlags := { t.traFlags with degree3 := true, readCommitted := false } }
  | .tpbConcurrency => (t.isolation.assignOnce true).map fun isolation =>
    { t with isolation, traFlags := { t.traFlags with degree3 := false, readCommitted := false } }
  | .tpbReadCommitted => (t.isolation.assignOnce true).map fun isolation =>
    { t with isolation, traFlags := { t.traFlags with degree3 := false, readCommitted := true } }
  | .tpbWait => (t.wait.assignOnce true).map fun wait => { t with wait }
  | .tpbRecVersion =>
    if t.isolation.isAssigned && !t.traFlags.readCommitted then none
    else (t.recVersion.assignOnce true).map fun recVersion =>
      { t with recVersion, traFlags := { t.traFlags with recVersion := true } }
  | .tpbNoRecVersion =>
    if t.isolation.isAssigned && !t.traFlags.readCommitted then none
    else (t.recVersion.assignOnce false).map fun recVersion =>
      { t with recVersion, traFlags := { t.traFlags with recVersion := false } }
  | .tpbNowait =>
    if t.lockTimeout.asBool then none
    else (t.wait.assignOnce false).map fun wait => { t with wait, traLockTimeout := 0 }
  | .tpbRead => (t.readOnly.assignOnce true).map fun readOnly =>
    { t with readOnly, traFlags := { t.traFlags with readonly := true } }
  | .tpbWrite => (t.readOnly.assignOnce false).map fun readOnly =>
    { t with readOnly, traFlags := { t.traFlags with readonly := false } }
  | .tpbIgnoreLimbo => some { t with traFlags := { t.traFlags with ignoreLimbo := true } }
  | .tpbNoAutoUndo => some { t with traFlags := { t.traFlags with noAutoUndo := true } }
  | .tpbAutocommit => some { t with traFlags := { t.traFlags with autocommit := true } }
  | .tpbRestartRequests => some { t with traFlags := { t.traFlags with restartRequests := true } }
  -- `isc_tpb_shared` and the like are errors outside of a reservation.
  | _ => none

/-- The lock of a reservation, and whether its last byte belongs to it. -/
def lockLevel (write : Bool) : List UInt8 → Level × Bool
  | [] => (if write then .sw else .none, false)
  | b :: _ =>
    if b = Op.tpbShared.code then (if write then .sw else .none, true)
    else if b = Op.tpbProtected.code ∨ b = Op.tpbExclusive.code then
      (if write then .ex else .pr, true)
    else (if write then .sw else .none, false)

/-- `isc_tpb_lock_read` and `isc_tpb_lock_write`, with the relation's name. -/
def reserve (rel : Relations) (name : List UInt8) (level : Level) (t : Options) : Option Options :=
  match rel.lookup name with
  | none => none
  | some relation => (rel.expandViewLock relation).map fun relations =>
    { t with traRelationLocks := t.traRelationLocks ++ relations.map (·, level) }

def maxSqlIdentifierLen : Nat := 31

/-- The end of `transaction_options`. -/
def finish (rel : Relations) (t : Options) : Option Options :=
  if t.recVersion.isAssigned && !t.traFlags.readCommitted then none
  else if t.traRelationLocks = [] then some t
  else if rel.seize t.traRelationLocks t.traLockTimeout then some t
  else none

/-- The loop of `transaction_options`; `fuel` is at least the number of bytes. -/
def optionsLoop (rel : Relations) : Nat → Options → List UInt8 → Walk
  | 0, t, _ => ⟨finish rel t, false⟩
  | _ + 1, t, [] => ⟨finish rel t, false⟩
  | fuel + 1, t, b :: tpb =>
    match Op.ofByte b with
    | none => .rejected
    | some op =>
      if op = .tpbLockWrite ∨ op = .tpbLockRead then
        match tpb with
        | [] => .rejected
        | len :: tpb =>
          if len.toNat > maxSqlIdentifierLen then .rejected
          else if tpb = [] ∨ tpb.length < len.toNat then .rejected
          else
            let rest := tpb.drop len.toNat
            let (level, more) := lockLevel (op = .tpbLockWrite) rest
            match reserve rel (tpb.take len.toNat) level t with
            | none => .rejected
            | some t => optionsLoop rel fuel t (if more then rest.drop 1 else rest)
      else if op = .tpbVerbTime ∨ op = .tpbCommitTime then
        match tpb with
        -- The length is read all the same, and whatever it is ends the loop.
        | [] => ⟨finish rel t, true⟩
        | len :: tpb => optionsLoop rel fuel t (tpb.drop len.toNat)
      else if op = .tpbLockTimeout then
        if t.wait.isAssigned && !t.wait.asBool then .rejected
        else
          match t.lockTimeout.assignOnce true, tpb with
          | none, _ => .rejected
          | some _, [] => .rejected
          | some lockTimeout, len :: tpb =>
            if tpb = [] ∨ tpb.length < len.toNat then .rejected
            else
              optionsLoop rel fuel
                { t with lockTimeout, traLockTimeout := Tpb.lockTimeout (tpb.take len.toNat) }
                (tpb.drop len.toNat)
      else
        match option op t with
        | none => .rejected
        | some t => optionsLoop rel fuel t tpb

/-- `isc_tpb_version3` or `isc_tpb_version1` -/
def versionOk (version : UInt8) : Bool := version = 3 || version = 1

def transactionOptions (rel : Relations) : List UInt8 → Walk
  | [] => ⟨some {}, false⟩
  | version :: tpb =>
    if versionOk version then optionsLoop rel tpb.length {} tpb else .rejected

end Firebird.Jrd.Tpb
