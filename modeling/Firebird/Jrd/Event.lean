import Mathlib.Data.List.Basic
import Mathlib.Tactic.Ring

/-!
# The event table

The blocks that `event.cpp` keeps in shared memory and the functions that a process calls on them,
each of them under the mutex of the table. A block is known by its offset; a new one gets an offset
not used before. The queues of the sources are lists, in the order of the queue. An event block, as
a client passes it, is the list of its names and counts.
-/
namespace Firebird.Jrd.Event

def slong (x : Int) : Int := (x + 2 ^ 31) % 2 ^ 32 - 2 ^ 31

theorem slong_eq {x : Int} (h₀ : 0 ≤ x) (h : x < 2 ^ 31) : slong x = x := by
  unfold slong
  omega

structure Rint where
  offset : Nat
  rintEvent : Nat
  rintRequest : Option Nat
  rintCount : Int
  deriving DecidableEq

structure EvtReq where
  offset : Nat
  reqProcess : Nat
  reqSession : Nat
  reqInterests : List Rint
  reqRequestId : Nat
  deriving DecidableEq

structure Ses where
  offset : Nat
  sesProcess : Nat
  sesRequests : List EvtReq
  sesInterests : List Rint
  delivering : Bool
  purge : Bool
  deriving DecidableEq

/-- An event, or with no parent the name of a database. -/
structure Evnt where
  offset : Nat
  evntParent : Option Nat
  evntCount : Int
  evntName : List UInt8
  evntInterests : List Nat

/-- A process; `posted` is the state of `prb_event`. -/
structure Prb where
  offset : Nat
  wakeup : Bool
  pending : Bool
  dontRemap : Bool
  posted : Bool

/-- The table. The sessions of a process are those of `evhSessions` with its offset. -/
structure Evh where
  evhEvents : List Evnt
  evhProcesses : List Prb
  evhSessions : List Ses
  evhRequestId : Nat
  evhFree : Nat

structure Entry where
  name : List UInt8
  count : Int

def findEvent (events : List Evnt) (name : List UInt8) (parent : Option Nat) : Option Evnt :=
  events.find? fun e => e.evntParent = parent ∧ e.evntName = name

def updateEvent (events : List Evnt) (offset : Nat) (f : Evnt → Evnt) : List Evnt :=
  events.map fun e => if e.offset = offset then f e else e

/-- `++parent->evnt_count` or `--parent->evnt_count`. The table is too small for this to wrap. -/
def addCount (n : Int) (e : Evnt) : Evnt := { e with evntCount := e.evntCount + n }

/-- The block that `make_event` fills. -/
def newEvent (offset : Nat) (name : List UInt8) (parent : Option Nat) : Evnt :=
  { offset, evntParent := parent, evntCount := 0, evntName := name, evntInterests := [] }

def makeEvent (events : List Evnt) (offset : Nat) (name : List UInt8) (parent : Option Nat) :
    List Evnt :=
  let events := events ++ [newEvent offset name parent]
  match parent with
  | none => events
  | some p => updateEvent events p (addCount 1)

def eventCount (events : List Evnt) (offset : Nat) : Int :=
  ((events.find? fun e => e.offset = offset).map Evnt.evntCount).getD 0

/-- `delete_event` of an event with a parent, which is deleted after its last child. -/
def deleteEvent (events : List Evnt) (event : Evnt) : List Evnt :=
  let events := events.filter fun e => e.offset ≠ event.offset
  match event.evntParent with
  | none => events
  | some p =>
    let events := updateEvent events p (addCount (-1))
    if eventCount events p = 0 then events.filter fun e => e.offset ≠ p else events

def historicalInterest (interests : List Rint) (event : Nat) : Option Rint :=
  interests.find? fun i => i.rintEvent = event

/-- `insert_tail(&event->evnt_interests, &interest->rint_interests)` -/
def insertInterest (events : List Evnt) (event interest : Nat) : List Evnt :=
  updateEvent events event fun e => { e with evntInterests := e.evntInterests ++ [interest] }

/-- `remove_que(&interest->rint_interests)` -/
def removeInterest (events : List Evnt) (i : Rint) : List Evnt :=
  updateEvent events i.rintEvent fun e => { e with evntInterests := e.evntInterests.erase i.offset }

/-- The loop of `delete_request`: an interest becomes historical if the session has no historical
one for its event yet. -/
def releaseInterests (events : List Evnt) (history : List Rint) :
    List Rint → List Evnt × List Rint
  | [] => (events, history)
  | i :: rest =>
    if (historicalInterest history i.rintEvent).isSome then
      releaseInterests (removeInterest events i) history rest
    else releaseInterests events ({ i with rintRequest := none } :: history) rest

/-- The last loop of `delete_session`. -/
def releaseHistory (events : List Evnt) : List Rint → List Evnt
  | [] => events
  | i :: rest =>
    let events := removeInterest events i
    match events.find? fun e => e.offset = i.rintEvent with
    | none => releaseHistory events rest
    | some event =>
      releaseHistory (if event.evntInterests = [] then deleteEvent events event else events) rest

def updateSession (sessions : List Ses) (offset : Nat) (f : Ses → Ses) : List Ses :=
  sessions.map fun s => if s.offset = offset then f s else s

def Evh.session (evh : Evh) (offset : Nat) : Option Ses :=
  evh.evhSessions.find? fun s => s.offset = offset

def deleteRequest (evh : Evh) (session : Ses) (request : EvtReq) : Evh :=
  let (events, history) := releaseInterests evh.evhEvents session.sesInterests request.reqInterests
  { evh with
    evhEvents := events
    evhSessions := updateSession evh.evhSessions session.offset fun s =>
      { s with
        sesRequests := s.sesRequests.filter fun r => r.offset ≠ request.offset
        sesInterests := history } }

/-- The first loop of `delete_session`. -/
def deleteRequests (evh : Evh) (session : Nat) : List EvtReq → Evh
  | [] => evh
  | request :: rest =>
    match evh.session session with
    | none => evh
    | some s => deleteRequests (deleteRequest evh s request) session rest

/-- `delete_session`. One that delivers an event is deleted later. -/
def deleteSession (evh : Evh) (offset : Nat) : Evh :=
  match evh.session offset with
  | none => evh
  | some session =>
    if session.delivering then
      { evh with evhSessions := updateSession evh.evhSessions offset fun s =>
        { s with purge := true } }
    else
      let evh := deleteRequests evh offset session.sesRequests
      { evh with
        evhEvents := releaseHistory evh.evhEvents
          (((evh.session offset).map Ses.sesInterests).getD [])
        evhSessions := evh.evhSessions.filter fun s => s.offset ≠ offset }

def postProcess (processes : List Prb) (process : Nat) : List Prb :=
  processes.map fun p =>
    if p.offset = process then { p with wakeup := false, pending := true, posted := true } else p

/-! ## The calls -/

def createProcess (evh : Evh) : Evh :=
  { evh with
    evhProcesses := evh.evhProcesses ++
      [{ offset := evh.evhFree, wakeup := false, pending := false, dontRemap := false,
         posted := false }]
    evhFree := evh.evhFree + 1 }

def eventCreateSession (evh : Evh) (process : Nat) : Evh :=
  { evh with
    evhSessions := evh.evhSessions ++
      [{ offset := evh.evhFree, sesProcess := process, sesRequests := [], sesInterests := [],
         delivering := false, purge := false }]
    evhFree := evh.evhFree + 1 }

def findRequestId (evh : Evh) (process requestId : Nat) : Option (Ses × EvtReq) :=
  evh.evhSessions.findSome? fun s =>
    if s.sesProcess = process then
      (s.sesRequests.find? fun r => r.reqRequestId = requestId).map fun r => (s, r)
    else none

def eventCancel (evh : Evh) (process requestId : Nat) : Evh :=
  match findRequestId evh process requestId with
  | none => evh
  | some (session, request) => deleteRequest evh session request

def stripBlanks (name : List UInt8) : List UInt8 := (name.reverse.dropWhile (· = 32)).reverse

/-- What the loop of `EVENT_que` changes: the events, the historical interests of the session and
the interests of the request. -/
structure Que where
  events : List Evnt
  history : List Rint
  interests : List Rint
  free : Nat
  flag : Bool

def queEvent (parent : Nat) (q : Que) (name : List UInt8) : Nat × Que :=
  match findEvent q.events name (some parent) with
  | some e => (e.offset, q)
  | none => (q.free, { q with events := makeEvent q.events q.free name (some parent), free := q.free
    + 1 })

def queInterest (request event : Nat) (count : Int) (q : Que) : Que :=
  match historicalInterest q.history event with
  | some i => { q with
      history := q.history.eraseP fun i => i.rintEvent = event
      interests := q.interests ++ [{ i with rintRequest := some request, rintCount := count }]
      flag := q.flag || count ≤ eventCount q.events event }
  | none => { q with
      events := insertInterest q.events event q.free
      interests := q.interests ++
        [{ offset := q.free, rintEvent := event, rintRequest := some request, rintCount := count }]
      free := q.free + 1
      flag := q.flag || count ≤ eventCount q.events event }

/-- One turn of the loop of `EVENT_que`. -/
def queEntry (request parent : Nat) (q : Que) (entry : Entry) : Que :=
  let (event, q) := queEvent parent q (stripBlanks entry.name)
  queInterest request event entry.count q

/-- The parent that `EVENT_que` finds or makes. -/
def queParent (events : List Evnt) (free : Nat) (name : List UInt8) : Nat × List Evnt × Nat :=
  match findEvent events name none with
  | some e => (e.offset, events, free)
  | none => (free, makeEvent events free name none, free + 1)

/-- `EVENT_que`, for a session of the process. -/
def eventQue (evh : Evh) (process session : Nat) (string : List UInt8) (entries : List Entry) :
    Evh :=
  match evh.session session with
  | none => evh
  | some s =>
    let request := evh.evhFree
    let (parent, events, free) := queParent evh.evhEvents (evh.evhFree + 1) string
    let q := entries.foldl (queEntry request parent)
      { events, history := s.sesInterests, interests := [], free, flag := false }
    { evhEvents := q.events
      evhProcesses := if q.flag then postProcess evh.evhProcesses process else evh.evhProcesses
      evhSessions := updateSession evh.evhSessions session fun s =>
        { s with
          sesInterests := q.history
          sesRequests := s.sesRequests ++
            [{ offset := request, reqProcess := process, reqSession := session,
               reqInterests := q.interests, reqRequestId := evh.evhRequestId + 1 }] }
      evhRequestId := evh.evhRequestId + 1
      evhFree := q.free }

def Ses.rints (s : Ses) : List Rint := s.sesRequests.flatMap EvtReq.reqInterests ++ s.sesInterests

def Evh.rints (evh : Evh) : List Rint := evh.evhSessions.flatMap Ses.rints

def Evh.rint (evh : Evh) (offset : Nat) : Option Rint := evh.rints.find? fun i => i.offset = offset

def Evh.request (evh : Evh) (offset : Nat) : Option EvtReq :=
  (evh.evhSessions.flatMap Ses.sesRequests).find? fun r => r.offset = offset

def wakeupProcess (evh : Evh) (count : Int) (interest : Nat) : Option Nat :=
  match evh.rint interest with
  | none => none
  | some i =>
    match i.rintRequest with
    | none => none
    | some r => if i.rintCount ≤ count then (evh.request r).map EvtReq.reqProcess else none

def eventPost (evh : Evh) (major minor : List UInt8) (count : Nat) : Evh :=
  match findEvent evh.evhEvents major none with
  | none => evh
  | some parent =>
    match findEvent evh.evhEvents minor (some parent.offset) with
    | none => evh
    | some event =>
      let n := slong (event.evntCount + count)
      let targets := event.evntInterests.filterMap (wakeupProcess evh n)
      { evh with
        evhEvents := updateEvent evh.evhEvents event.offset fun e => { e with evntCount := n }
        evhProcesses := evh.evhProcesses.map fun p =>
          if p.offset ∈ targets then { p with wakeup := true } else p }

/-- `EVENT_deliver`: every process with a wakeup is posted, until there is none. -/
def eventDeliver (evh : Evh) : Evh :=
  { evh with
    evhProcesses := evh.evhProcesses.map fun p =>
      if p.wakeup then { p with wakeup := false, pending := true, posted := true } else p }

def requestCompleted (events : List Evnt) (request : EvtReq) : Bool :=
  request.reqInterests.any fun i => i.rintCount ≤ eventCount events i.rintEvent

def maxEventBuffer : Nat := 65500

/-- The loop of `deliver_request`: the names and counts sent to the client. `p` bytes are in use. -/
def eventBuffer (events : List Evnt) : List Rint → Nat → Nat → List (List UInt8 × Int)
  | [], _, _ => []
  | i :: rest, p, limit =>
    match events.find? fun e => e.offset = i.rintEvent with
    | none => []
    | some event =>
      let entry := (event.evntName, slong (event.evntCount + 1))
      let next := p + event.evntName.length + 5
      if limit < next then
        if limit = 512 then entry :: eventBuffer events rest next maxEventBuffer else []
      else entry :: eventBuffer events rest next limit

/-- `deliver_request`, up to the call of the client: what is sent, and the table. -/
def deliverRequest (evh : Evh) (session : Ses) (request : EvtReq) :
    List (List UInt8 × Int) × Evh :=
  (eventBuffer evh.evhEvents request.reqInterests 1 512, deleteRequest evh session request)

/-- What `deliver` does to a session before it looks at its requests. -/
def startDelivering (evh : Evh) (session : Nat) : Evh :=
  { evh with
    evhSessions := updateSession evh.evhSessions session fun s => { s with delivering := true } }

/-- What `deliver` does to a session after its requests: it is deleted if that was asked for. -/
def endDelivering (evh : Evh) (session : Nat) : Evh :=
  let evh := { evh with
    evhSessions := updateSession evh.evhSessions session fun s => { s with delivering := false } }
  match evh.session session with
  | none => evh
  | some s => if s.purge then deleteSession evh session else evh

/-- What is done to the table while one process holds its mutex. -/
inductive Call where
  | createProcess
  | createSession (process : Nat)
  | que (session : Nat) (string : List UInt8) (entries : List Entry)
  | post (major minor : List UInt8) (count : Nat)
  | deliver
  | cancel (process requestId : Nat)
  | deleteSession (session : Nat)
  | startDelivering (session : Nat)
  | deliverRequest (session request : Nat)
  | endDelivering (session : Nat)

def Evh.requestOf (evh : Evh) (session request : Nat) : Option (Ses × EvtReq) :=
  match evh.session session with
  | none => none
  | some s => (s.sesRequests.find? fun r => r.offset = request).map fun r => (s, r)

def call (evh : Evh) : Call → Evh
  | .createProcess => createProcess evh
  | .createSession process => eventCreateSession evh process
  | .que session string entries =>
    match evh.session session with
    | none => evh
    | some s => eventQue evh s.sesProcess session string entries
  | .post major minor count => eventPost evh major minor count
  | .deliver => eventDeliver evh
  | .cancel process requestId => eventCancel evh process requestId
  | .deleteSession session => deleteSession evh session
  | .startDelivering session => startDelivering evh session
  | .deliverRequest session request =>
    match evh.requestOf session request with
    | none => evh
    | some (s, r) => (deliverRequest evh s r).2
  | .endDelivering session => endDelivering evh session

/-- The table that `init` makes. -/
def initialEvh : Evh :=
  { evhEvents := [], evhProcesses := [], evhSessions := [], evhRequestId := 0, evhFree := 1 }

end Firebird.Jrd.Event
