import Firebird.Lock.Table

/-!
# The deadlock scan

`deadlock_clear`, `deadlock_walk` and `deadlock_scan`. The walk is given fuel: one more than the
number of requests in the table always suffices.
-/
namespace Firebird.Lock

/-- The marks of a walk, and whether it met an owner who still has something to process. -/
structure Walk where
  deadlock : RequestId → Bool
  scanned : RequestId → Bool
  maybeDeadlock : Bool

/-- The pass of `deadlock_clear` over the owners: the marks go off the requests the owners are
pending on, and off no others. -/
def deadlockClear (t : Table) : Table :=
  let pending (id : RequestId) : Bool := t.owners.any fun o => o.pendingRequest = some id
  { t with
    deadlock := fun id => t.deadlock id && !pending id
    scanned := fun id => t.scanned id && !pending id }

/-- `MAX(block->lrq_state, block->lrq_requested)` -/
def Lrq.claimed (block : Lrq) : Level := block.state.max block.requested

/-- The requests of the lock that `deadlock_walk` takes to block `request`. For a conversion, and
without lock ordering, these are the other ones granted at an incompatible level; otherwise the
ones before `request` in the queue that have or want an incompatible level. -/
def blockers (ordering : Bool) (request : Lrq) (rs : List Lrq) : List Lrq :=
  if !ordering || decide (request.state.rank > Level.null.rank) then
    rs.filter fun block => block.id ≠ request.id && !compatible request.requested block.state
  else
    (rs.takeWhile fun block => block.id ≠ request.id).filter fun block =>
      !compatible request.requested block.claimed

/-- Where the walk goes from a blocking request: nowhere, nowhere for now because its owner still
has an AST to process, or to the request its owner is pending on. -/
inductive Pursuit where
  | skip
  | maybe
  | target (r : Lrq)
  deriving DecidableEq

/-- The rest of the loop body of `deadlock_walk`. `own_ast_flags` never has the bit `OWN_wakeup`,
so only `OWN_signaled` is looked at. -/
def pursue (t : Table) (block : Lrq) : Pursuit :=
  match t.getOwner block.owner with
  | none => .skip
  | some owner =>
    if owner.timeout then .skip
    else if owner.signaled || decide (owner.blocks ≠ []) || block.justGranted then .maybe
    else
      match owner.pendingRequest.bind fun id => t.getRequest id with
      | none => .skip
      | some (_, target) => if target.pending then .target target else .skip

/-- The loop of `deadlock_walk` over the blocking requests; `none` is out of fuel. -/
def walkLoop (t : Table) (walk : Lrq → Walk → Option (Option RequestId × Walk)) :
    List Lrq → Walk → Option (Option RequestId × Walk)
  | [], st => some (none, st)
  | block :: bs, st =>
    match pursue t block with
    | .skip => walkLoop t walk bs st
    | .maybe => walkLoop t walk bs { st with maybeDeadlock := true }
    | .target r =>
      match walk r st with
      | none => none
      | some (some victim, st) => some (some victim, st)
      | some (none, st) => walkLoop t walk bs st

def deadlockWalk (ordering : Bool) (t : Table) :
    Nat → Lrq → Walk → Option (Option RequestId × Walk)
  | 0, _, _ => none
  | fuel + 1, request, st =>
    if st.scanned request.id then some (none, st)
    else if st.deadlock request.id then some (some request.id, st)
    else
      let st := { st with deadlock := Function.update st.deadlock request.id true }
      let rs := (t.getRequest request.id).elim [] fun p => p.1.requests
      match walkLoop t (deadlockWalk ordering t fuel) (blockers ordering request rs) st with
      | none => none
      | some (some victim, st) => some (some victim, st)
      | some (none, st) =>
        some (none,
          { st with
            deadlock := Function.update st.deadlock request.id false
            scanned := Function.update st.scanned request.id true })

def Table.requests (t : Table) : List Lrq := t.locks.flatMap Lbl.requests

/-- `deadlock_scan` for the pending `request` of `owner`: the request to reject, if any. -/
def deadlockScan (ordering : Bool) (owner : OwnerId) (request : Lrq) (t : Table) :
    Option (Option RequestId × Table) :=
  let t := deadlockClear t
  match deadlockWalk ordering t (t.requests.length + 1) request ⟨t.deadlock, t.scanned, false⟩ with
  | none => none
  | some (victim, st) =>
    let t := { t with deadlock := st.deadlock, scanned := st.scanned }
    if victim = none ∧ st.maybeDeadlock = false then
      some (victim, t.modifyOwner owner fun o => { o with scanned := true })
    else some (victim, t)

/-- One round of the loop of `wait_for_request` with the mutex held, for a request that is still
pending. `timedOut` says that the lock time-out has passed, `woken` that `OWN_wakeup` was set when
it was looked at, before the mutex was there. -/
def wakeUp (ordering timedOut woken : Bool) (w : Wait) (t : Table) : Table :=
  match t.getOwner w.owner, t.getRequest w.request with
  | some owner, some (_, request) =>
    let t := t.modifyOwner w.owner fun o => { o with wakeup := false }
    if w.lckWait < 0 && timedOut then rejectRequest w.request t
    else if woken || owner.scanned || owner.timeout then postBlockage w.request t
    else
      match deadlockScan ordering w.owner request t with
      | none => t
      | some (none, t) => postBlockage w.request t
      | some (some victim, t) =>
        let blockingOwner := (t.getRequest victim).map fun p => p.2.owner
        let t := rejectRequest victim t
        let t := { t with owners := t.owners.map fun o =>
            if blockingOwner = some o.id then { o with pendingRequest := none, scanned := false }
            else o }
        if victim ≠ w.request then t.postWakeup blockingOwner.toList else t
  | _, _ => t

/-- What owners and the lock manager do, each while holding the mutex. -/
inductive Action where
  | createOwner (owner : OwnerId)
  | enq (args : Enq)
  | convert (request : RequestId) (type : Level) (lckWait : Int) (ast : Option Ast)
  | downgrade (request : RequestId)
  | deq (request : RequestId)
  | wakeUp (timedOut woken : Bool) (wait : Wait)
  | leaveWait (wait : Wait)
  | finishWait (wait : Wait)
  | purgeOwner (owner : OwnerId)
  | blockingAction (owner : OwnerId)
  | rePost (owner : OwnerId) (request : RequestId)
  deriving DecidableEq

namespace Table

def Pending (id : RequestId) (t : Table) : Prop := ∃ p ∈ t.getRequest id, p.2.pending = true

def Idle (id : RequestId) (t : Table) : Prop :=
  (t.getRequest id).isSome ∧ ¬ t.Pending id ∧ ∀ w ∈ t.waits, w.request ≠ id

/-- The owner waits for no request; an owner waits for one request at a time. -/
def Awake (owner : OwnerId) (t : Table) : Prop := ∀ w ∈ t.waits, w.owner ≠ owner

def Fresh (id : RequestId) (t : Table) : Prop :=
  (∀ r ∈ t.requests, r.id ≠ id) ∧ ∀ o ∈ t.owners, id ∉ o.blocks

instance (id : RequestId) (t : Table) : Decidable (t.Pending id) :=
  inferInstanceAs (Decidable (∃ p ∈ t.getRequest id, p.2.pending = true))

instance (id : RequestId) (t : Table) : Decidable (t.Idle id) :=
  inferInstanceAs (Decidable (_ ∧ ¬ t.Pending id ∧ _))

instance (owner : OwnerId) (t : Table) : Decidable (t.Awake owner) :=
  inferInstanceAs (Decidable (∀ w ∈ t.waits, w.owner ≠ owner))

instance (id : RequestId) (t : Table) : Decidable (t.Fresh id) :=
  inferInstanceAs (Decidable (_ ∧ ∀ o ∈ t.owners, id ∉ o.blocks))

end Table

namespace Action

/-- How the lock manager may be called: live owners use live requests that are not just in another
call, series and key lengths fit a byte, and a block that is allocated was free. -/
def Legal (ordering : Bool) (t : Table) : Action → Prop
  | createOwner owner => t.getOwner owner = none
  | enq a =>
    a.series ≤ 255 ∧ a.value.length ≤ 255 ∧
      (∃ o ∈ t.owners, o.id = a.owner) ∧ (∀ p ∈ a.priorRequest, t.Idle p) ∧
      (a.lckWait ≠ 0 → t.Awake a.owner) ∧
      (∀ id ∈ a.request, (a.afterPrior ordering t).Fresh id) ∧
      ∀ id ∈ a.lock, ∀ l ∈ (a.afterPrior ordering t).locks, l.id ≠ id
  | convert id _ lckWait _ =>
    t.Idle id ∧ (lckWait ≠ 0 → ∀ p ∈ t.getRequest id, t.Awake p.2.owner)
  | downgrade id => t.Idle id
  | deq id => t.Idle id
  | wakeUp _ _ w => w ∈ t.waits ∧ w.left = false ∧ t.Pending w.request
  | leaveWait w => w ∈ t.waits ∧ w.left = false ∧ ¬ t.Pending w.request
  | finishWait w => w ∈ t.waits ∧ w.left = true
  | purgeOwner owner => ∃ o ∈ t.owners, o.id = owner
  | blockingAction owner => ∃ o ∈ t.owners, o.id = owner
  | rePost owner id => (∃ o ∈ t.owners, o.id = owner) ∧ t.Fresh id

instance (ordering : Bool) (t : Table) : (a : Action) → Decidable (a.Legal ordering t)
  | createOwner owner => inferInstanceAs (Decidable (t.getOwner owner = none))
  | enq _ => inferInstanceAs (Decidable (_ ∧ _ ∧ _ ∧ _ ∧ _ ∧ _ ∧ _))
  | convert _ _ _ _ => inferInstanceAs (Decidable (_ ∧ _))
  | downgrade id => inferInstanceAs (Decidable (t.Idle id))
  | deq id => inferInstanceAs (Decidable (t.Idle id))
  | wakeUp _ _ _ => inferInstanceAs (Decidable (_ ∧ _ ∧ _))
  | leaveWait _ => inferInstanceAs (Decidable (_ ∧ _ ∧ _))
  | finishWait _ => inferInstanceAs (Decidable (_ ∧ _))
  | purgeOwner owner => inferInstanceAs (Decidable (∃ o ∈ t.owners, o.id = owner))
  | blockingAction owner => inferInstanceAs (Decidable (∃ o ∈ t.owners, o.id = owner))
  | rePost _ id => inferInstanceAs (Decidable (_ ∧ t.Fresh id))

def apply (ordering : Bool) : Action → Table → Table
  | createOwner owner => Lock.createOwner owner
  | enq a => lockEnq ordering a
  | convert id type lckWait ast => Lock.convert ordering id type lckWait ast
  | downgrade id => lockDowngrade ordering id
  | deq id => dequeue ordering id
  | wakeUp timedOut woken w => Lock.wakeUp ordering timedOut woken w
  | leaveWait w => Lock.leaveWait w
  | finishWait w => Lock.finishWait ordering w
  | purgeOwner owner => Lock.purgeOwner ordering owner
  | blockingAction owner => blockingAction2 owner
  | rePost owner id => lockRePost owner id

end Action

def runActions (ordering : Bool) (as : List Action) (t : Table) : Table :=
  as.foldl (fun t a => a.apply ordering t) t

/-- Every action is legal when its turn comes, and satisfies the further condition `G` then. -/
def LegalRun (ordering : Bool) (G : Action → Table → Prop) : List Action → Table → Prop
  | [], _ => True
  | a :: as, t => a.Legal ordering t ∧ G a t ∧ LegalRun ordering G as (a.apply ordering t)

instance decidableLegalRun (ordering : Bool) (G : Action → Table → Prop)
    [inst : ∀ a t, Decidable (G a t)] :
    (as : List Action) → (t : Table) → Decidable (LegalRun ordering G as t)
  | [], _ => isTrue trivial
  | a :: as, t =>
    have := decidableLegalRun ordering G as (a.apply ordering t)
    inferInstanceAs (Decidable (a.Legal ordering t ∧ G a t ∧ _))

/-- The table as `init_lock_table` leaves it. -/
def initTable : Table := ⟨[], [], fun _ => false, fun _ => false, []⟩

end Firebird.Lock
