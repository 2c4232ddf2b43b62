import Firebird.Lock.Block

/-!
# The lock table

All locks with their requests, the owners, and the operations of the lock manager that run while
its mutex is held. The queues of the table are lists here. A call that waits leaves a frame; the
rest of `wait_for_request` and of its caller runs as later operations on that frame.
-/
namespace Firebird.Lock

/-- An owner block. `ownSemaphore` says that the owner is in `wait_for_request`. -/
structure Own where
  id : OwnerId
  requests : List RequestId
  blocks : List RequestId
  pendingRequest : Option RequestId
  scanned : Bool
  timeout : Bool
  wakeup : Bool
  signaled : Bool
  semaphore : Bool

/-- The function that called `wait_for_request`; `convert` sets its AST after a grant. -/
inductive Caller where
  | grantOrQue
  | convert (ast : Option Ast)
  deriving DecidableEq

/-- A call of `wait_for_request`. Once it `left` its loop, its caller has to look at the request. -/
structure Wait where
  request : RequestId
  owner : OwnerId
  lock : LockId
  caller : Caller
  lckWait : Int
  left : Bool
  deriving DecidableEq

/-- The lock table. `deadlock` and `scanned` are the bits `LRQ_deadlock` and `LRQ_scanned` of each
request block; `waits` are the calls now in `wait_for_request` or just out of it. -/
structure Table where
  locks : List Lbl
  owners : List Own
  deadlock : RequestId → Bool
  scanned : RequestId → Bool
  waits : List Wait

namespace Lbl

/-- Change the request `id` in place. -/
def modifyRequest (id : RequestId) (f : Lrq → Lrq) (l : Lbl) : Lbl :=
  { l with requests := l.requests.map fun r => if r.id = id then f r else r }

/-- Take the request `id` off the queue. -/
def removeRequest (id : RequestId) (l : Lbl) : Lbl :=
  { l with requests := l.requests.filter fun r => r.id ≠ id }

/-- The request `id` on this lock. -/
def find (id : RequestId) (l : Lbl) : Option Lrq := l.requests.find? fun r => r.id = id

end Lbl

namespace Table

/-- `get_request`: the request with its lock. -/
def getRequest (id : RequestId) (t : Table) : Option (Lbl × Lrq) :=
  t.locks.findSome? fun l => (l.find id).map fun r => (l, r)

def findLock (parent : Option LockId) (series : Nat) (value : List UInt8) (t : Table) :
    Option Lbl :=
  t.locks.find? fun l => l.series = series ∧ l.parent = parent ∧ l.key = value

def getOwner (id : OwnerId) (t : Table) : Option Own := t.owners.find? fun o => o.id = id

def setLock (l : Lbl) (t : Table) : Table :=
  { t with locks := t.locks.map fun l' => if l'.id = l.id then l else l' }

def removeLock (id : LockId) (t : Table) : Table :=
  { t with locks := t.locks.filter fun l => l.id ≠ id }

def modifyOwner (id : OwnerId) (f : Own → Own) (t : Table) : Table :=
  { t with owners := t.owners.map fun o => if o.id = id then f o else o }

/-- `post_wakeup` for each of the owners: only those in `wait_for_request` are woken. -/
def postWakeup (woken : List OwnerId) (t : Table) : Table :=
  { t with owners := t.owners.map fun o =>
      if o.id ∈ woken ∧ o.semaphore then { o with wakeup := true } else o }

def removeWait (id : RequestId) (t : Table) : Table :=
  { t with waits := t.waits.filter fun w => w.request ≠ id }

end Table

def unlinkRequest (r : Lrq) (l : Lbl) : Lbl :=
  { l.removeRequest r.id with
    pendingLrqCount := if r.pending then l.pendingLrqCount - 1 else l.pendingLrqCount }

/-- Take one level off the counts. The state of the lock is computed again only when the count of
that level has come down to zero. -/
def dropLevel (s : Level) (l : Lbl) : Lbl :=
  if s = .none then l
  else if (l.decCount s).counts s = 0 then
    { l.decCount s with state := lockState (l.decCount s) }
  else l.decCount s

/-- What `release_request` does to the lock of the request; `none` when the lock is released. -/
def releaseFromLock (ordering : Bool) (r : Lrq) (l : Lbl) : Option (Lbl × List OwnerId) :=
  if (unlinkRequest r l).requests = [] then none
  else some (postPending ordering (dropLevel r.state (unlinkRequest r l)))

def releaseRequest (ordering : Bool) (id : RequestId) (t : Table) : Table :=
  match t.getRequest id with
  | none => t
  | some (l, r) =>
    let t := t.modifyOwner r.owner fun o =>
      { o with
        requests := o.requests.filter (· ≠ id)
        blocks := if r.blocking then o.blocks.filter (· ≠ id) else o.blocks }
    match releaseFromLock ordering r l with
    | none => t.removeLock l.id
    | some (l, woken) => (t.setLock l).postWakeup woken

/-- `dequeue`: the request loses its AST and is released. -/
def dequeue (ordering : Bool) (id : RequestId) (t : Table) : Table :=
  releaseRequest ordering id t

/-- `purge_owner`: an owner's requests are released in the order of `own_requests`. Nobody returns
to the calls of a purged owner. -/
def purgeOwner (ordering : Bool) (id : OwnerId) (t : Table) : Table :=
  match t.getOwner id with
  | none => t
  | some owner =>
    let t := owner.requests.foldl (fun t r => releaseRequest ordering r t) t
    { t with
      owners := t.owners.filter fun o => o.id ≠ id
      waits := t.waits.filter fun w => w.owner ≠ id }

/-- The requests of a lock after `post_blockage`, the requests newly put on the blocks of their
owners, and the owners to signal. -/
structure Blockage where
  requests : List Lrq
  blocks : List (OwnerId × RequestId)
  signal : List OwnerId

/-- The loop of `post_blockage`, which is never forced: it passes over requests that do not block
`request`, that have no AST or have seen it, and stops behind a request at `LCK_EX`. -/
def postBlockageLoop (request : Lrq) : List Lrq → Blockage
  | [] => ⟨[], [], []⟩
  | block :: bs =>
    if block.id = request.id ∨ compatible request.requested block.state ∨ block.ast = none ∨
        block.blockingSeen then
      let p := postBlockageLoop request bs
      ⟨block :: p.requests, p.blocks, p.signal⟩
    else
      let p := if block.state = .ex then ⟨bs, [], []⟩ else postBlockageLoop request bs
      let signal := if block.owner ≠ request.owner then block.owner :: p.signal else p.signal
      if block.blocking then ⟨block :: p.requests, p.blocks, signal⟩
      else
        ⟨{ block with blocking := true, blockingSeen := false, justGranted := false } ::
          p.requests, (block.owner, block.id) :: p.blocks, signal⟩

/-- `post_blockage`. That the signalled owners run `blocking_action2`, or are purged if they cannot
be signalled, are operations of their own. -/
def postBlockage (request : RequestId) (t : Table) : Table :=
  match t.getRequest request with
  | none => t
  | some (l, r) =>
    let p := postBlockageLoop r l.requests
    let t := t.setLock { l with requests := p.requests }
    { t with owners := t.owners.map fun o =>
        { o with
          blocks := o.blocks ++ (p.blocks.filter (·.1 = o.id)).map (·.2)
          signaled := o.signaled || decide (o.id ∈ p.signal) } }

/-- One round of `blocking_action2`: the AST of the first blocked request is delivered. -/
def blockingAction2 (id : OwnerId) (t : Table) : Table :=
  match t.getOwner id with
  | none => t
  | some owner =>
    match owner.blocks with
    | [] => t.modifyOwner id fun o => { o with signaled := false }
    | b :: bs =>
      let t := t.modifyOwner id fun o => { o with blocks := bs }
      match t.getRequest b with
      | none => t
      | some (l, r) =>
        if r.blocking then
          t.setLock (l.modifyRequest b fun r => { r with blocking := false, blockingSeen := true })
        else t

/-- `LOCK_re_post`: a request block off all locks goes to the blocks of the owner. -/
def lockRePost (id : OwnerId) (request : RequestId) (t : Table) : Table :=
  t.modifyOwner id fun o => { o with blocks := o.blocks ++ [request], signaled := true }

def Lrq.waiting (r : Lrq) : Lrq := { r with rejected := false, pending := true }

/-- `wait_for_request` makes the request pending; one at `LCK_none` goes to the end of the list. -/
def queueRequest (ordering : Bool) (r : Lrq) (l : Lbl) : Lbl :=
  let l := l.modifyRequest r.id fun _ => r.waiting
  let l := { l with pendingLrqCount := l.pendingLrqCount + 1 }
  if ordering && r.state = .none then
    { l.removeRequest r.id with requests := (l.removeRequest r.id).requests ++ [r.waiting] }
  else l

/-- `wait_for_request` up to the first release of the mutex: `r` is a request of `l`, and `t` has
`l` among its locks. -/
def waitForRequest (ordering : Bool) (r : Lrq) (l : Lbl) (caller : Caller) (lckWait : Int)
    (t : Table) : Table :=
  let t := (t.setLock (queueRequest ordering r l)).modifyOwner r.owner fun o =>
    { o with
      pendingRequest := some r.id
      scanned := false
      wakeup := false
      timeout := decide (lckWait < 0)
      semaphore := true }
  let t := { t with waits := t.waits ++ [⟨r.id, r.owner, l.id, caller, lckWait, false⟩] }
  postBlockage r.id t

def rejectRequest (id : RequestId) (t : Table) : Table :=
  match t.getRequest id with
  | none => t
  | some (l, _) =>
    let l := l.modifyRequest id fun r => { r with rejected := true, pending := false }
    t.setLock { l with pendingLrqCount := l.pendingLrqCount - 1 }

/-- The end of `wait_for_request`, once the request is no longer pending. -/
def leaveWait (w : Wait) (t : Table) : Table :=
  let t := t.modifyOwner w.owner fun o =>
    { o with pendingRequest := none, semaphore := false, timeout := false }
  { t with waits := t.waits.map fun w' =>
      if w'.request = w.request then { w' with left := true } else w' }

/-- What `grant_or_que` and `convert` do behind `wait_for_request`. -/
def finishWait (ordering : Bool) (w : Wait) (t : Table) : Table :=
  match t.getRequest w.request with
  | none => t.removeWait w.request
  | some (l, r) =>
    let t := t.removeWait w.request
    match w.caller with
    | .grantOrQue => if r.rejected then releaseRequest ordering r.id t else t
    | .convert ast =>
      if r.rejected then
        let (l, woken) := postPending ordering l
        (t.setLock (l.modifyRequest r.id fun r => { r with requested := r.state })).postWakeup woken
      else t.setLock (l.modifyRequest r.id fun r => { r with ast := ast })

/-- The first half of `grant_or_que` for a request at the tail of the queue: grant it, or `none` if
it has to wait. -/
def grantOrQue (ordering : Bool) (r : Lrq) (l : Lbl) : Option (Lbl × List OwnerId) :=
  if compatible r.requested l.state ∧
      (ordering = false ∨ r.requested = .null ∨ l.pendingLrqCount = 0) then
    let (r', l) := grant r l
    let (l, woken) := postPending ordering (l.modifyRequest r.id fun _ => r')
    some (l, r.owner :: woken)
  else none

/-- The arguments of `LOCK_enq`, and the blocks it gets for the request and for a new lock: `none`
when the lock table is exhausted. -/
structure Enq where
  priorRequest : Option RequestId
  parentRequest : Option RequestId
  series : Nat
  value : List UInt8
  type : Level
  ast : Option Ast
  data : Int
  lckWait : Int
  owner : OwnerId
  request : Option RequestId
  lock : Option LockId
  deriving DecidableEq

def newRequest (id : RequestId) (a : Enq) (data : Int) : Lrq :=
  { id := id, owner := a.owner, requested := a.type, state := .none, pending := false,
    rejected := false, blocking := false, blockingSeen := false, justGranted := false,
    ast := a.ast, data := data }

def newLock (id : LockId) (parent : Option LockId) (a : Enq) (r : Lrq) : Lbl :=
  { id := id, parent := parent, series := a.series, key := a.value, requests := [r],
    state := a.type, counts := fun _ => 0, pendingLrqCount := 0, data := a.data }

/-- The table once `LOCK_enq` has released the prior request. -/
def Enq.afterPrior (ordering : Bool) (a : Enq) (t : Table) : Table :=
  match a.priorRequest with
  | some prior => dequeue ordering prior t
  | none => t

def Enq.parent (a : Enq) (t : Table) : Option LockId :=
  (a.parentRequest.bind fun p => t.getRequest p).map fun p => p.1.id

/-- A new request block goes to its owner; its `lrq_flags` are set to 0. -/
def Enq.linkRequest (a : Enq) (id : RequestId) (t : Table) : Table :=
  { t.modifyOwner a.owner fun o => { o with requests := o.requests ++ [id] } with
    deadlock := Function.update t.deadlock id false
    scanned := Function.update t.scanned id false }

/-- The rest of `LOCK_enq` when the lock exists. -/
def Enq.existing (ordering : Bool) (a : Enq) (id : RequestId) (l : Lbl) (t : Table) : Table :=
  let r := newRequest id a a.data
  let l := { l with requests := l.requests ++ [r] }
  match grantOrQue ordering r l with
  | some (l, woken) => (t.setLock l).postWakeup woken
  | none =>
    if a.lckWait ≠ 0 then waitForRequest ordering r l .grantOrQue a.lckWait (t.setLock l)
    else releaseRequest ordering id (t.setLock l)

/-- The rest of `LOCK_enq` when there is no such lock yet. -/
def Enq.fresh (a : Enq) (id : RequestId) (parent : Option LockId) (t : Table) : Table :=
  match a.lock with
  | none => t.modifyOwner a.owner fun o => { o with requests := o.requests.filter (· ≠ id) }
  | some lockId =>
    let r := newRequest id a 0
    let (r', l) := grant r (newLock lockId parent a r)
    { t with locks := t.locks ++ [l.modifyRequest id fun _ => r'] }.postWakeup [r.owner]

/-- `LOCK_enq` up to the point where it returns or waits. -/
def lockEnq (ordering : Bool) (a : Enq) (t : Table) : Table :=
  let t := a.afterPrior ordering t
  match a.request with
  | none => t
  | some id =>
    let parent := a.parent t
    let t := a.linkRequest id t
    match t.findLock parent a.series a.value with
    | some l => a.existing ordering id l t
    | none => a.fresh id parent t

/-- `convert` up to the point where it returns or waits. -/
def convert (ordering : Bool) (id : RequestId) (type : Level) (lckWait : Int) (ast : Option Ast)
    (t : Table) : Table :=
  match t.getRequest id with
  | none => t
  | some (l, r) =>
    let r := { r with requested := type, blockingSeen := false }
    let l := l.modifyRequest id fun _ => r
    if compatible type (lockState (l.decCount r.state)) then
      let r := { r with ast := ast }
      let (r', l) := grant r (l.decCount r.state)
      let (l, woken) := postPending ordering (l.modifyRequest id fun _ => r')
      (t.setLock l).postWakeup (r.owner :: woken)
    else if lckWait ≠ 0 then
      waitForRequest ordering r l (.convert ast) lckWait (t.setLock l)
    else t.setLock (l.modifyRequest id fun r => { r with requested := r.state })

/-- The highest level another pending request asks for, as the loop of `LOCK_downgrade` finds it. -/
def pendingState (id : RequestId) (rs : List Lrq) : Level :=
  rs.foldl (fun s r => if r.pending && r.id ≠ id then r.requested.max s else s) .none

/-- `while (state > LCK_none && !COMPATIBLE(pending_state, state)) --state;` -/
def lowerState (pending : Level) : Nat → Level → Level
  | 0, state => state
  | n + 1, state =>
    if state.rank > 0 ∧ compatible pending state = false then lowerState pending n state.pred
    else state

def lockDowngrade (ordering : Bool) (id : RequestId) (t : Table) : Table :=
  match t.getRequest id with
  | none => t
  | some (l, r) =>
    let state := lowerState (pendingState id l.requests) r.state.rank r.state
    if state = .none ∨ state = .null then dequeue ordering id t
    else convert ordering id state 0 r.ast t

/-- `create_owner`: an owner block nice and new. -/
def createOwner (id : OwnerId) (t : Table) : Table :=
  { t with owners := t.owners ++ [⟨id, [], [], none, false, false, false, false, false⟩] }

end Firebird.Lock
