import Mathlib.Data.List.Perm.Basic
import Firebird.Lock.Level

/-!
# Lock blocks and their requests

A lock block (`lbl`) with its queue of requests (`lrq`), and the functions of the lock manager
that work on one lock: `lock_state`, `grant` and `post_pending`. The counters of the block are 16
bits wide.
-/
namespace Firebird.Lock

abbrev RequestId := Nat
abbrev OwnerId := Nat
abbrev LockId := Nat

structure Ast where
  routine : Nat
  argument : Nat
  deriving DecidableEq

/-- A lock request. The bits of `lrq_flags` are separate fields; `LRQ_deadlock` and `LRQ_scanned`,
which only the deadlock scan touches, are kept with the table. -/
structure Lrq where
  id : RequestId
  owner : OwnerId
  requested : Level
  state : Level
  pending : Bool
  rejected : Bool
  blocking : Bool
  blockingSeen : Bool
  justGranted : Bool
  ast : Option Ast
  data : Int
  deriving DecidableEq

structure Lbl where
  id : LockId
  parent : Option LockId
  series : Nat
  key : List UInt8
  requests : List Lrq
  state : Level
  counts : Level → UInt16
  pendingLrqCount : UInt16
  data : Int

namespace Lbl

/-- What the lock is on: the parent lock, the series and the key. -/
def resource (l : Lbl) : Option LockId × Nat × List UInt8 := (l.parent, l.series, l.key)

/-- `++lbl_counts[s]` -/
def incCount (s : Level) (l : Lbl) : Lbl :=
  { l with counts := Function.update l.counts s (l.counts s + 1) }

/-- `--lbl_counts[s]` -/
def decCount (s : Level) (l : Lbl) : Lbl :=
  { l with counts := Function.update l.counts s (l.counts s - 1) }

end Lbl

def lockState (l : Lbl) : Level :=
  if l.counts .ex ≠ 0 then .ex
  else if l.counts .pw ≠ 0 then .pw
  else if l.counts .sw ≠ 0 then .sw
  else if l.counts .pr ≠ 0 then .pr
  else if l.counts .sr ≠ 0 then .sr
  else if l.counts .null ≠ 0 then .null
  else .none

/-- Grant a request; a caller that converts has taken the former level off the counts. The
request in the queue of `l` is left to the caller, who also wakes the owner. -/
def grant (r : Lrq) (l : Lbl) : Lrq × Lbl :=
  let l := l.incCount r.requested
  let l := if r.data ≠ 0 then { l with data := r.data } else l
  let l := { l with state := lockState l }
  let l := if r.pending then { l with pendingLrqCount := l.pendingLrqCount - 1 } else l
  ({ r with state := r.requested, data := 0, pending := false }, l)

/-- Requests of a lock after a pass over them, the lock, and the owners to wake. -/
structure Posted where
  requests : List Lrq
  lock : Lbl
  woken : List OwnerId

/-- The body of the loop of `post_pending` for a pending request: a conversion is compared with the
state of the lock without its own level, a new request with `lbl_state`. -/
def grantPending (r : Lrq) (l : Lbl) : Option (Lrq × Lbl) :=
  if r.state ≠ .none then
    if compatible r.requested (lockState (l.decCount r.state)) then
      some (grant r (l.decCount r.state))
    else none
  else if compatible r.requested l.state then some (grant r l)
  else none

/-- The loop of `post_pending` that grants what can be granted. With lock ordering it stops at the
first request it has to leave pending. -/
def postPendingLoop (ordering : Bool) : List Lrq → Lbl → Posted
  | [], l => ⟨[], l, []⟩
  | r :: rs, l =>
    if r.pending then
      match grantPending r l with
      | some (r', l') =>
        let p := postPendingLoop ordering rs l'
        ⟨r' :: p.requests, p.lock, r.owner :: p.woken⟩
      | none =>
        if ordering then ⟨r :: rs, l, [r.owner]⟩
        else
          let p := postPendingLoop ordering rs l
          ⟨r :: p.requests, p.lock, r.owner :: p.woken⟩
    else
      let p := postPendingLoop ordering rs l
      ⟨r :: p.requests, p.lock, p.woken⟩

/-- The second loop of `post_pending`: up to the first pending request, those that have not been
told to release are marked. -/
def markJustGranted : List Lrq → List Lrq
  | [] => []
  | r :: rs =>
    if r.pending then r :: rs
    else
      (if !(r.blockingSeen || r.blocking) && r.ast.isSome then { r with justGranted := true }
        else r) :: markJustGranted rs

/-- Grant pending requests after a change in the state of the lock. -/
def postPending (ordering : Bool) (l : Lbl) : Lbl × List OwnerId :=
  if l.pendingLrqCount = 0 then (l, [])
  else
    let p := postPendingLoop ordering l.requests l
    let rs := if p.lock.pendingLrqCount ≠ 0 then markJustGranted p.requests else p.requests
    ({ p.lock with requests := rs }, p.woken)

end Firebird.Lock
