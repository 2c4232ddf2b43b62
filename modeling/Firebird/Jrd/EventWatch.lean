import Firebird.Jrd.EventRun

/-!
# The watcher threads

Every process has a thread that waits until its event is posted and then delivers the completed
requests of the sessions of the process. It holds the mutex of the table but for the calls of the
clients, so that other threads run between its steps.
-/
namespace Firebird.Jrd.Event

/-- Where the watcher thread of a process is, when it does not hold the mutex. -/
inductive Pc where
  | top
  | cleared
  | callback (session : Nat)
  | delivered
  | waiting
  deriving DecidableEq

structure Region where
  evh : Evh
  pc : Nat → Pc

/-- The queue `prb_sessions` of a process. -/
def sessionsOf (evh : Evh) (process : Nat) : List Nat :=
  (evh.evhSessions.filter fun s => s.sesProcess = process).map Ses.offset

def nextSessions (evh : Evh) (process session : Nat) : List Nat :=
  ((sessionsOf evh process).dropWhile (· ≠ session)).tail

def completedRequest (evh : Evh) (session : Nat) : Option (Ses × EvtReq) :=
  match evh.session session with
  | none => none
  | some s => (s.sesRequests.find? (requestCompleted evh.evhEvents)).map fun r => (s, r)

def purged (evh : Evh) (session : Nat) : Bool := ((evh.session session).map Ses.purge).getD false

/-- The end of the loop of `deliver` for one session: a purged one ends the whole loop. -/
def endSession (next : Evh → Evh × Pc) (evh : Evh) (session : Nat) : Evh × Pc :=
  if purged evh session then (endDelivering evh session, .delivered)
  else next (endDelivering evh session)

def deliverRequests (next : Evh → Evh × Pc) (evh : Evh) (session : Nat) : Evh × Pc :=
  match completedRequest evh session with
  | some (s, r) => ((deliverRequest evh s r).2, .callback session)
  | none => endSession next evh session

/-- The loop of `deliver` over the sessions, up to the call of a client. -/
def deliverSessions : List Nat → Evh → Evh × Pc
  | [], evh => (evh, .delivered)
  | session :: rest, evh =>
    deliverRequests (deliverSessions rest) (startDelivering evh session) session

/-- `deliver` after the call of a client. -/
def resumeDeliver (evh : Evh) (process session : Nat) : Evh × Pc :=
  let next := fun evh => deliverSessions (nextSessions evh process session) evh
  if purged evh session then endSession next evh session else deliverRequests next evh session

def updateProcess (processes : List Prb) (offset : Nat) (f : Prb → Prb) : List Prb :=
  processes.map fun p => if p.offset = offset then f p else p

/-- One step: a call of a client, or what a watcher thread does while it holds the mutex. -/
inductive Step where
  | call (c : Call)
  | clear (process : Nat)
  | deliver (process : Nat)
  | resume (process : Nat)
  | wait (process : Nat)
  | wake (process : Nat)

/-- The calls that are not parts of `deliver`. -/
def Call.isClient : Call → Bool
  | .startDelivering _ | .deliverRequest _ _ | .endDelivering _ => false
  | _ => true

def Region.go (σ : Region) (process : Nat) (r : Evh × Pc) : Region :=
  { evh := r.1, pc := Function.update σ.pc process r.2 }

def Evh.hasProcess (evh : Evh) (process : Nat) : Bool :=
  evh.evhProcesses.any fun p => p.offset = process

/-- `watcher_thread`, whose loop `clear` begins and `wait` ends, and the calls of the clients. -/
def watch (σ : Region) : Step → Region
  | .call c => if c.isClient then { σ with evh := call σ.evh c } else σ
  | .clear o =>
    if σ.evh.hasProcess o ∧ σ.pc o = .top then
      σ.go o ({ σ.evh with evhProcesses := updateProcess σ.evh.evhProcesses o fun p =>
        { p with wakeup := false, posted := false } }, .cleared)
    else σ
  | .deliver o =>
    if σ.evh.hasProcess o ∧ σ.pc o = .cleared then
      σ.go o (deliverSessions (sessionsOf σ.evh o) { σ.evh with
        evhProcesses := updateProcess σ.evh.evhProcesses o fun p => { p with pending := false } })
    else σ
  | .resume o =>
    match σ.pc o with
    | .callback session => σ.go o (resumeDeliver σ.evh o session)
    | _ => σ
  | .wait o =>
    if σ.evh.hasProcess o ∧ σ.pc o = .delivered then
      σ.go o ({ σ.evh with evhProcesses := updateProcess σ.evh.evhProcesses o fun p =>
        { p with dontRemap := true } }, .waiting)
    else σ
  | .wake o =>
    if (σ.evh.evhProcesses.any fun p => p.offset = o ∧ p.posted) ∧ σ.pc o = .waiting then
      σ.go o ({ σ.evh with evhProcesses := updateProcess σ.evh.evhProcesses o fun p =>
        { p with dontRemap := false } }, .top)
    else σ

def initialRegion : Region := { evh := initialEvh, pc := fun _ => .top }

end Firebird.Jrd.Event
