import Firebird.Machine
import Firebird.Jrd.Inventory

/-!
# The oldest transactions

`TRA_start` looks through the transactions since the oldest interesting one, for the oldest one
that is active and for the oldest one that has not committed, and leaves both in `Database`. From
there they come to the header page when the next transaction starts.
-/
namespace Firebird.Jrd.Tra

open Lib Tpc

def traActiveCleanup : Nat := 100

structure Header where
  next : Nat
  oldest : Nat
  oldestActive : Nat
  oldestSnapshot : Nat
  deriving DecidableEq

/-- The same of `Database`. `dbb_oldest_transaction` is an `SLONG` that can fall below zero. -/
structure Dbb where
  readOnly : Bool
  next : Nat
  oldest : Int
  oldestActive : Nat
  oldestSnapshot : Nat
  deriving DecidableEq

structure World where
  header : Header
  dbb : Dbb
  deriving DecidableEq

structure Numbers where
  number : Nat
  oldest : Nat
  oldestActive : Nat
  oldestSnapshot : Nat
  deriving DecidableEq

/-- `bump_transaction_id`; `none` if it raises an error. The pages are extended elsewhere. -/
def bumpTransactionId (w : World) : Option World :=
  let header := w.header
  if header.next ≠ 0 ∧ (header.oldestActive > header.next ∨ header.oldest > header.next) then none
  else if header.next ≥ maxTraNumber - 1 then none
  else
    some { w with
      header :=
        { next := header.next + 1
          oldestActive :=
            if w.dbb.oldestActive > header.oldestActive then w.dbb.oldestActive
            else header.oldestActive
          oldest := if w.dbb.oldest > header.oldest then w.dbb.oldest.toNat else header.oldest
          oldestSnapshot :=
            if w.dbb.oldestSnapshot > header.oldestSnapshot then w.dbb.oldestSnapshot
            else header.oldestSnapshot } }

/-- The numbers come from the header page, or from `Database` if that is read-only. -/
def startNumbers (w : World) : Option (Numbers × World) :=
  if w.dbb.readOnly then
    let dbb := { w.dbb with next := w.dbb.next + 1 }
    some (⟨dbb.next, (ulong dbb.oldest).toNat, dbb.oldestActive, dbb.oldestSnapshot⟩,
      { w with dbb })
  else
    (bumpTransactionId w).map fun w =>
      (⟨w.header.next, w.header.oldest, w.header.oldestActive, w.header.oldestSnapshot⟩, w)

/-- What `TRA_start` meets: if it gets the lock of the transaction, the inventory pages when it
reads them and the memory of its vector, the database as each look-up of the two scans and each
`TRA_wait` finds it, for other requests run in between, what is read outside of a block of the
cache, and what the lock manager answers. -/
structure Seen where
  granted : Bool
  inventory : Database
  memory : Bytes
  look : Nat → Database
  wait : Nat → Database
  again : Nat → Database
  outside : Nat → TraState
  lockData : Nat → Nat
  lockFree : Nat → Bool
  queryData : Nat

/-- An answer of the cache, `outside` where the code reads outside of a block. -/
def cached (outside : Nat → TraState) (r : Option Answer × Database) (n : Nat) : Answer :=
  r.1.getD (.state (outside n))

/-- `(tra_transactions[byte] >> shift) & TRA_MASK` -/
def vectorState (transactions : Bytes) (base n : Nat) : TraState :=
  .ofBits (transactions (transOffset (n - base)) >>> transShift n &&& 3)

def traGetState (dbb : Database) (number : Nat) (lockFree : Bool) : Option Answer × Database :=
  if !dbb.dbbTipCache.isEmpty then tpcSnapshotState dbb number lockFree
  else if traPrecommited dbb number then (some .precommitted, dbb)
  else
    let (state, dbb) := traFetchState dbb number
    (some (.state state), dbb)

/-- What the first scan has done: the vector, whether it still cleans up, and the database as
`TRA_wait` has left it. -/
structure Scan where
  transactions : Bytes
  cleanup : Bool
  dbb : Database

section TraStart

variable (seen : Seen) (readCommitted : Bool) (base number : Nat)

/-- The state that `TRA_wait` returns for `tra_no_wait`: who is found active is dead. -/
def waitState (n : Nat) : Answer :=
  match cached seen.outside (traGetState (seen.wait n) n (seen.lockFree n)) n with
  | .precommitted => .precommitted
  | .state state => .state (if state = .active then .dead else state)

/-- `TRA_wait` for `tra_no_wait` -/
def traWait (n : Nat) (s : Scan) : Scan :=
  let r := traGetState (seen.wait n) n (seen.lockFree n)
  match cached seen.outside r n with
  | .precommitted => { s with dbb := r.2 }
  | .state found =>
    let state := if found = .active then .dead else found
    let dbb := if found = .active then traSetState r.2 none n .dead else r.2
    if readCommitted then { s with dbb := tpcSetState dbb n state }
    else
      let byte := transOffset (n - base)
      { s with
        dbb
        transactions := Function.update s.transactions byte
          (Crumb.put (s.transactions byte) state.bits (transShift n)) }

def lookState (n : Nat) (s : Scan) : Answer :=
  if readCommitted then cached seen.outside (tpcCacheState (seen.look n) n) n
  else .state (vectorState s.transactions base n)

/-- What the first scan comes to: the oldest active transaction and `tra_oldest_active`. -/
structure Found where
  oldestActive : Nat
  traOldestActive : Nat
  scan : Scan

/-- `tra_oldest_active`, from the data of the first lock that is found. -/
def oldestData (oldestSnapshot data : Nat) : Nat :=
  let traOldestActive := if data < number then data else number
  if traOldestActive = oldestSnapshot then traOldestActive
  else if seen.queryData ≠ 0 ∧ seen.queryData < traOldestActive then seen.queryData
  else traOldestActive

def scanActive (oldestSnapshot : Nat) : List Nat → Scan → Found
  | [], s => ⟨number, number, s⟩
  | active :: rest, s =>
    if lookState seen readCommitted base active s = .state .active then
      let data := seen.lockData active
      if data = 0 ∧ s.cleanup then
        let s' := traWait seen readCommitted base active s
        scanActive oldestSnapshot rest
          { s' with cleanup := s.cleanup && waitState seen active != .state .committed }
      else
        ⟨min number active,
          oldestData seen number oldestSnapshot (if data = 0 then active else data), s⟩
    else scanActive oldestSnapshot rest s

/-- `oldest_state == tra_committed || oldest_state == tra_precommitted` -/
def isCommitted : Answer → Bool
  | .precommitted => true
  | .state state => state == .committed

def againState (transactions : Bytes) (n : Nat) : Answer :=
  if readCommitted then cached seen.outside (tpcCacheState (seen.again n) n) n
  else .state (vectorState transactions base n)

def scanInteresting (oldest : Nat) (transactions : Bytes) : Nat :=
  ((List.range' oldest (number - oldest)).find? fun n =>
    !isCommitted (againState seen readCommitted base transactions n)).getD (max oldest number)

end TraStart

/-- The end of `TRA_start`, in a build with `MULTI_THREAD` and in one without. -/
def publish (multiThread : Bool) (oldest oldestActive traOldestActive : Nat) (dbb : Dbb) : Dbb :=
  let dbb :=
    if multiThread then
      { dbb with
        oldest := if ulong (oldest - 1) > ulong dbb.oldest then slong (oldest - 1) else dbb.oldest
        oldestActive := if oldestActive > dbb.oldestActive then oldestActive else dbb.oldestActive }
    else { dbb with oldest := slong (oldest - 1), oldestActive }
  if traOldestActive > dbb.oldestSnapshot then { dbb with oldestSnapshot := traOldestActive } else
    dbb

/-- The vector of `TRA_start`; a read-committed transaction has none. -/
def startVector (readCommitted : Bool) (seen : Seen) (m : Numbers) : Bytes :=
  if readCommitted then seen.memory
  else
    (traGetInventory seen.inventory (some seen.memory) (m.oldest / 4 * 4) m.number).bitVector.getD
      seen.memory

/-- The two scans of `TRA_start`. -/
def startScans (readCommitted : Bool) (seen : Seen) (m : Numbers) : Nat × Found :=
  let base := m.oldest / 4 * 4
  let active := max m.oldestActive m.oldest
  let r := scanActive seen readCommitted base m.number m.oldestSnapshot
    (List.range' active (m.number - active))
    ⟨startVector readCommitted seen m, m.number % traActiveCleanup = 0, seen.inventory⟩
  (scanInteresting seen readCommitted base m.number m.oldest r.scan.transactions, r)

/-- `TRA_start`, as far as it keeps the oldest transactions; `none` if no number is to be had. -/
def traStart (multiThread readCommitted : Bool) (seen : Seen) (w : World) : Option World :=
  match startNumbers w with
  | none => none
  | some (m, w) =>
    if seen.granted then
      let r := startScans readCommitted seen m
      some { w with dbb := publish multiThread r.1 r.2.oldestActive r.2.traOldestActive w.dbb }
    else some w

end Firebird.Jrd.Tra
