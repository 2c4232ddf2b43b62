import Firebird.Lib.Insertion
import Firebird.Lock.Handle

/-!
# Lock data

The longword that each lock block has for its users, the queues `lhb_data` of the locks with data,
and `LOCK_query_data`. Data come with `LOCK_enq` and `LOCK_write_data`, for a request that has to
wait they come with the grant, and they leave with the lock.
-/
namespace Firebird.Lock

def lckMaxSeries : Nat := 7

/-- The queues `lhb_data` in the header, one for a series. -/
abbrev DataQueues := Nat → List LockId

/-- The live lock block `id`. -/
def Table.getLock (id : LockId) (t : Table) : Option Lbl := t.locks.find? fun l => l.id = id

/-- The loop of `insert_data_que`, which stops at a lock of the same parent that has as much data
or more. -/
def insertDataLoop (t : Table) (lock : Lbl) : List LockId → List LockId
  | [] => [lock.id]
  | id :: ids =>
    if (t.getLock id).any fun lock2 => lock2.parent = lock.parent ∧ lock.data ≤ lock2.data then
      lock.id :: id :: ids
    else id :: insertDataLoop t lock ids

/-- `insert_data_que`. The other locks are in `t`. -/
def insertDataQue (t : Table) (lock : Lbl) (q : DataQueues) : DataQueues :=
  if lock.series < lckMaxSeries ∧ lock.parent ≠ none ∧ lock.data ≠ 0 then
    Function.update q lock.series (insertDataLoop t lock (q lock.series))
  else q

/-- `remove_que (&lock->lbl_lhb_data)`, whether the lock is on a queue or not. -/
def removeDataQue (id : LockId) (q : DataQueues) : DataQueues := fun s => (q s).filter (· ≠ id)

def requeue (t : Table) (lock : Lbl) (q : DataQueues) : DataQueues :=
  insertDataQue t lock (removeDataQue lock.id q)

/-- The part of `grant` for the data of the request. -/
def grantData (t : Table) (r : Lrq) (l : Lbl) (q : DataQueues) : DataQueues :=
  if r.data ≠ 0 then requeue t { l with data := r.data } q else q

def postPendingLoopData (ordering : Bool) (t : Table) : List Lrq → Lbl → DataQueues → DataQueues
  | [], _, q => q
  | r :: rs, l, q =>
    if r.pending then
      match grantPending r l with
      | some (_, l') => postPendingLoopData ordering t rs l' (grantData t r l q)
      | none => if ordering then q else postPendingLoopData ordering t rs l q
    else postPendingLoopData ordering t rs l q

def postPendingData (ordering : Bool) (t : Table) (l : Lbl) (q : DataQueues) : DataQueues :=
  if l.pendingLrqCount = 0 then q else postPendingLoopData ordering t l.requests l q

def releaseRequestData (ordering : Bool) (id : RequestId) (t : Table) (q : DataQueues) :
    DataQueues :=
  match t.getRequest id with
  | none => q
  | some (l, r) =>
    if (unlinkRequest r l).requests = [] then removeDataQue l.id q
    else postPendingData ordering t (dropLevel r.state (unlinkRequest r l)) q

def releaseAllData (ordering : Bool) : List RequestId → Table → DataQueues → DataQueues
  | [], _, q => q
  | id :: ids, t, q =>
    releaseAllData ordering ids (releaseRequest ordering id t) (releaseRequestData ordering id t q)

def purgeOwnerData (ordering : Bool) (id : OwnerId) (t : Table) (q : DataQueues) : DataQueues :=
  match t.getOwner id with
  | none => q
  | some owner => releaseAllData ordering owner.requests t q

def finishWaitData (ordering : Bool) (w : Wait) (t : Table) (q : DataQueues) : DataQueues :=
  match t.getRequest w.request with
  | none => q
  | some (l, r) =>
    let t := t.removeWait w.request
    match w.caller with
    | .grantOrQue => if r.rejected then releaseRequestData ordering r.id t q else q
    | .convert _ => if r.rejected then postPendingData ordering t l q else q

def grantAndPostData (ordering : Bool) (t : Table) (r : Lrq) (l : Lbl) (q : DataQueues) :
    DataQueues :=
  postPendingData ordering t ((grant r l).2.modifyRequest r.id fun _ => (grant r l).1)
    (grantData t r l q)

def Enq.afterPriorData (ordering : Bool) (a : Enq) (t : Table) (q : DataQueues) : DataQueues :=
  match a.priorRequest with
  | some prior => releaseRequestData ordering prior t q
  | none => q

def Enq.existingData (ordering : Bool) (a : Enq) (id : RequestId) (l : Lbl) (t : Table)
    (q : DataQueues) : DataQueues :=
  let r := newRequest id a a.data
  let l := { l with requests := l.requests ++ [r] }
  match grantOrQue ordering r l with
  | some _ => grantAndPostData ordering t r l q
  | none => if a.lckWait ≠ 0 then q else releaseRequestData ordering id (t.setLock l) q

def Enq.freshData (a : Enq) (id : RequestId) (parent : Option LockId) (t : Table)
    (q : DataQueues) : DataQueues :=
  match a.lock with
  | none => q
  | some lockId =>
    let r := newRequest id a 0
    let l := newLock lockId parent a r
    grantData t r l (insertDataQue t l q)

def lockEnqData (ordering : Bool) (a : Enq) (t : Table) (q : DataQueues) : DataQueues :=
  let q := a.afterPriorData ordering t q
  let t := a.afterPrior ordering t
  match a.request with
  | none => q
  | some id =>
    let parent := a.parent t
    let t := a.linkRequest id t
    match t.findLock parent a.series a.value with
    | some l => a.existingData ordering id l t q
    | none => a.freshData id parent t q

def convertData (ordering : Bool) (id : RequestId) (type : Level) (ast : Option Ast) (t : Table)
    (q : DataQueues) : DataQueues :=
  match t.getRequest id with
  | none => q
  | some (l, r) =>
    let r := { r with requested := type, blockingSeen := false }
    let l := l.modifyRequest id fun _ => r
    if compatible type (lockState (l.decCount r.state)) then
      grantAndPostData ordering t { r with ast := ast } (l.decCount r.state) q
    else q

def lockDowngradeData (ordering : Bool) (id : RequestId) (t : Table) (q : DataQueues) :
    DataQueues :=
  match t.getRequest id with
  | none => q
  | some (l, r) =>
    let state := lowerState (pendingState id l.requests) r.state.rank r.state
    if state = .none ∨ state = .null then releaseRequestData ordering id t q
    else convertData ordering id state r.ast t q

def lockWriteDataData (id : RequestId) (data : Int) (t : Table) (q : DataQueues) : DataQueues :=
  match t.getRequest id with
  | none => q
  | some (l, _) => requeue t { l with data } q

/-- The queues after one step on the table `t`. -/
def Step.data (ordering : Bool) (t : Table) (q : DataQueues) : Step → DataQueues
  | act (.enq args) => lockEnqData ordering args t q
  | act (.convert request type _ ast) => convertData ordering request type ast t q
  | act (.downgrade request) => lockDowngradeData ordering request t q
  | act (.deq request) => releaseRequestData ordering request t q
  | act (.finishWait wait) => finishWaitData ordering wait t q
  | act (.purgeOwner owner) => purgeOwnerData ordering owner t q
  | act _ => q
  | setOwnerHandle _ _ => q
  | writeData request data => lockWriteDataData request data t q

def runData (ordering : Bool) : List Step → Table → DataQueues → DataQueues
  | [], _, q => q
  | s :: ss, t, q => runData ordering ss (s.apply ordering t) (s.data ordering t q)

/-- `LCK_MIN` to `LCK_ANY` -/
inductive Aggregate where
  | min
  | max
  | cnt
  | sum
  | avg
  | any
  deriving DecidableEq

/-- `a + b` for two `SLONG`. -/
def addLong (a b : Int) : Int := (a + b).bmod (2 ^ 32)

/-- The forward loop of `LOCK_query_data` with its `data` and `count`; offsets have 32 bits, and
there is no room for so many locks that `count` runs over. -/
def queryLoop (t : Table) (parent : LockId) (aggregate : Aggregate) :
    List LockId → Int → Nat → Int × Nat
  | [], data, count => (data, count)
  | id :: ids, data, count =>
    match t.getLock id with
    | none => queryLoop t parent aggregate ids data count
    | some lock =>
      if lock.parent ≠ some parent then queryLoop t parent aggregate ids data count
      else
        match aggregate with
        | .min => (lock.data, count)
        | .any => (data, count + 1)
        | .cnt => queryLoop t parent aggregate ids data (count + 1)
        | .avg => queryLoop t parent aggregate ids (addLong data lock.data) (count + 1)
        | .sum => queryLoop t parent aggregate ids (addLong data lock.data) count
        | .max => queryLoop t parent aggregate ids data count

/-- The backward loop, for the maximum: `ids` are in the order of the walk. -/
def queryBackLoop (t : Table) (parent : LockId) : List LockId → Int
  | [] => 0
  | id :: ids =>
    match t.getLock id with
    | none => queryBackLoop t parent ids
    | some lock => if lock.parent ≠ some parent then queryBackLoop t parent ids else lock.data

def lockQueryData (parentRequest : RequestId) (series : Nat) (aggregate : Aggregate) (t : Table)
    (q : DataQueues) : Except String Int :=
  if series < lckMaxSeries then
    match t.getRequest parentRequest with
    | none => .error "invalid lock id"
    | some (parent, _) =>
      match aggregate with
      | .max => .ok (queryBackLoop t parent.id (q series).reverse)
      | _ =>
        let (data, count) := queryLoop t parent.id aggregate (q series) 0 0
        match aggregate with
        | .cnt | .any => .ok count
        | .avg => .ok (if count ≠ 0 then data.tdiv count else 0)
        | _ => .ok data
  else .ok 0

end Firebird.Lock
