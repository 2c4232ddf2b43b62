import Mathlib.Logic.Function.Basic

/-!
# The page cache and the order of its writes

The functions of `cch.cpp` that decide when a page goes to disk. A precedence says that a page has
to be written before another one. `superServer` stands for a build with `SUPERSERVER`; the other
ones have no latches. Writes do not fail here, and every page has a buffer of its own.
-/
namespace Firebird.Jrd

structure PageNumber where
  pageSpaceID : Nat
  pageNum : Int
  deriving DecidableEq

namespace PageNumber

def dbPageSpace : Nat := 1

def tempPageSpace : Nat := 256

def isTemporary (p : PageNumber) : Bool := decide (tempPageSpace ≤ p.pageSpaceID)

end PageNumber

/-- The flags of a buffer. `version` counts the changes to the page. -/
structure BufferDesc where
  writer : Bool
  dirty : Bool
  dbDirty : Bool
  marked : Bool
  faked : Bool
  mustWrite : Bool
  version : Nat

structure Precedence where
  preLow : PageNumber
  preHi : PageNumber
  cleared : Bool
  deriving DecidableEq

/-- What `write_buffer` does with a page at last: it is written, or passed over with these flags. -/
inductive CacheEvent where
  | wrote (page : PageNumber) (version : Nat)
  | passed (page : PageNumber) (faked marked : Bool)
  deriving DecidableEq

/-- The buffers, the precedence blocks with the last one first, and what was written, last first. -/
structure Cache where
  bdb : PageNumber → BufferDesc
  links : List Precedence
  log : List CacheEvent

/-- How a function ends. `deadlock` stands for a latch that the caller itself keeps from being
granted: the wait for it times out, and the cache unwinds. -/
inductive Outcome where
  | status (n : Nat)
  | bugcheck (n : Nat)
  | deadlock
  deriving DecidableEq

namespace Cache

def update (page : PageNumber) (f : BufferDesc → BufferDesc) (c : Cache) : Cache :=
  { c with bdb := Function.update c.bdb page (f (c.bdb page)) }

/-- The queue `bdb_higher`: `QUE_INSERT` puts a block at its head. -/
def higher (page : PageNumber) (c : Cache) : List Precedence :=
  c.links.filter fun l => l.preLow = page

/-- The queue `bdb_lower`. -/
def lower (page : PageNumber) (c : Cache) : List Precedence :=
  c.links.filter fun l => l.preHi = page

def unlink (l : Precedence) (c : Cache) : Cache := { c with links := c.links.erase l }

def link (low high : PageNumber) (c : Cache) : Cache :=
  { c with links := ⟨low, high, false⟩ :: c.links }

def clearPrecedence (page : PageNumber) (c : Cache) : Cache :=
  { c with links := c.links.filter fun l => l.preHi ≠ page }

def writePage (superServer : Bool) (page : PageNumber) (c : Cache) : Cache :=
  { c.update page fun b =>
      { b with dirty := false, dbDirty := b.dbDirty && !superServer, mustWrite := false } with
    log := .wrote page (c.bdb page).version :: c.log }

def passPage (page : PageNumber) (c : Cache) : Cache :=
  { c with log := .passed page (c.bdb page).faked (c.bdb page).marked :: c.log }

/-- The end of `write_buffer`, after the loop over the pages to be written before. -/
def writeThis (superServer writeThru thisPage : Bool) (page : PageNumber) (c : Cache) :
    Outcome × Cache :=
  let b := c.bdb page
  let c' := if (b.dirty || writeThru && b.dbDirty) && !b.marked then c.writePage superServer page
    else c.passPage page
  (.status (if superServer && !thisPage then 2 else 1), c'.clearPrecedence page)

mutual

/-- `write_buffer`; `fuel` bounds its calls and the turns of their loops. -/
def writeBuffer (superServer : Bool) :
    Nat → Bool → Bool → PageNumber → Cache → Option (Outcome × Cache)
  | 0, _, _, _, _ => none
  | fuel + 1, writeThru, thisPage, page, c =>
    let b := c.bdb page
    -- The mark latch keeps others from the io latch.
    if superServer && b.marked then some (.deadlock, c)
    else if b.marked && !b.faked then some (.bugcheck 217, c)
    else if !b.dirty && !(writeThru && b.dbDirty) then some (.status 1, c.clearPrecedence page)
    else writeHigher superServer fuel writeThru thisPage page c

/-- The loop over `bdb_higher`, and the rest. -/
def writeHigher (superServer : Bool) :
    Nat → Bool → Bool → PageNumber → Cache → Option (Outcome × Cache)
  | 0, _, _, _, _ => none
  | fuel + 1, writeThru, thisPage, page, c =>
    match c.higher page with
    | [] => some (c.writeThis superServer writeThru thisPage page)
    | l :: _ =>
      if l.cleared then writeHigher superServer fuel writeThru thisPage page (c.unlink l)
      else
        match writeBuffer superServer fuel writeThru false l.preHi c with
        | some (.status _, c') =>
          if superServer && !thisPage then some (.status 2, c')
          else if superServer && (c'.bdb page).marked then some (.deadlock, c')
          else writeHigher superServer fuel writeThru thisPage page c'
        | r => r

end

/-- What `related` returns: `PRE_EXISTS`, `PRE_UNKNOWN` or what is left of the limit. -/
inductive Related where
  | exists
  | unknown
  | limit (n : Nat)
  deriving DecidableEq

def preSearchLimit : Nat := 100

/-- The loop of `related` over what is left of a queue. -/
def relatedQue (c : Cache) (high : PageNumber) : Nat → List Precedence → Nat → Related
  | 0, _, _ => .unknown
  | _ + 1, [], limit => .limit limit
  | fuel + 1, l :: ls, limit =>
    if limit - 1 = 0 then .unknown
    else if l.cleared then relatedQue c high fuel ls (limit - 1)
    else if l.preHi = high then .exists
    else
      match relatedQue c high fuel (c.higher l.preHi) (limit - 1) with
      | .limit n => relatedQue c high fuel ls n
      | r => r

def related (c : Cache) (low high : PageNumber) (limit : Nat) : Related :=
  relatedQue c high limit (c.higher low) limit

/-- The page that `check_precedence` is about: a negative page number is a transaction, whose page
is the header page unless that has been written since. -/
def precedencePage (page : PageNumber) (lastHeaderWrite : Int) : Option PageNumber :=
  if page.pageSpaceID = PageNumber.dbPageSpace ∧ page.pageNum < 0 then
    if -page.pageNum ≤ lastHeaderWrite then none else some ⟨PageNumber.dbPageSpace, 0⟩
  else some page

/-- The end of `check_precedence`: a new block, after a write of the low page if there might be a
cycle. -/
def establish (superServer : Bool) (fuel : Nat) (low high : PageNumber) (c : Cache) :
    Option (Outcome × Cache) :=
  let relationship := if c.lower low = [] then .limit 0 else related c high low preSearchLimit
  match relationship with
  | .limit _ => some (.status 1, c.link low high)
  | _ =>
    match writeBuffer superServer fuel false true low c with
    | some (.status _, c') => some (.status 1, c'.link low high)
    | r => r

def checkPrecedence (superServer : Bool) (fuel : Nat) (low page : PageNumber)
    (lastHeaderWrite : Int) (c : Cache) : Option (Outcome × Cache) :=
  match precedencePage page lastHeaderWrite with
  | none => some (.status 1, c)
  | some high =>
    if !(c.bdb high).dirty || high = low then some (.status 1, c)
    else if (c.bdb low).marked && !(c.bdb low).faked then some (.bugcheck 212, c)
    else
      let relationship := if c.lower high = [] then .limit 0 else related c low high preSearchLimit
      match relationship with
      | .exists => some (.status 1, c)
      | .unknown => writeBuffer superServer fuel false true high c
      | .limit _ => establish superServer fuel low high c

def cchPrecedence (superServer : Bool) (fuel : Nat) (low page : PageNumber)
    (lastHeaderWrite : Int) (c : Cache) : Option (Outcome × Cache) :=
  if page.pageNum = 0 then some (.status 1, c)
  else if page.isTemporary || low.isTemporary then some (.status 1, c)
  else checkPrecedence superServer fuel low page lastHeaderWrite c

/-- `get_buffer` for a page that has a buffer. -/
def getBuffer (page : PageNumber) (c : Cache) : Cache :=
  c.update page fun b => { b with faked := false }

/-- `CCH_fetch` for write. -/
def cchFetch (page : PageNumber) (c : Cache) : Cache :=
  (c.getBuffer page).update page fun b => { b with writer := true }

def cchMark (superServer mustWrite : Bool) (page : PageNumber) (c : Cache) : Outcome × Cache :=
  if !(c.bdb page).writer then (.bugcheck 208, c)
  else
    (.status 1, c.update page fun b =>
      { b with
        dirty := true, marked := true, dbDirty := b.dbDirty || superServer
        mustWrite := b.mustWrite || mustWrite })

def cchMustWrite (page : PageNumber) (c : Cache) : Outcome × Cache :=
  if !(c.bdb page).marked || !(c.bdb page).dirty then (.bugcheck 208, c)
  else (.status 1, c.update page fun b => { b with dirty := true, mustWrite := true })

def change (page : PageNumber) (c : Cache) : Cache :=
  c.update page fun b => { b with version := b.version + 1 }

/-- `CCH_release` of the only window on the page. -/
def cchRelease (superServer : Bool) (fuel : Nat) (page : PageNumber) (c : Cache) :
    Option (Outcome × Cache) :=
  let c := c.update page fun b => { b with writer := false, marked := false, faked := false }
  if (c.bdb page).mustWrite then writeBuffer superServer fuel false true page c
  else some (.status 1, c)

/-- The buffer that `CCH_fake` gives out: cleared and marked. -/
def fakePage (superServer : Bool) (page : PageNumber) (c : Cache) : Cache :=
  (cchMark superServer false page <| change page <| c.update page fun b =>
    { b with
      writer := true, faked := true, dirty := false, dbDirty := false, marked := false
      mustWrite := false }).2

/-- `CCH_fake`; `status 0` if it returns no page. -/
def cchFake (superServer latchWait : Bool) (fuel : Nat) (page : PageNumber) (c : Cache) :
    Option (Outcome × Cache) :=
  let c := c.getBuffer page
  if (c.bdb page).dirty || (c.bdb page).dbDirty then
    if !latchWait then some (.status 0, c)
    else
      match writeBuffer superServer fuel true true page c with
      | some (.status _, c') => some (.status 1, c'.fakePage superServer page)
      | r => r
  else some (.status 1, (c.clearPrecedence page).fakePage superServer page)

end Cache

inductive CacheAction where
  | fetch (page : PageNumber)
  | mark (mustWrite : Bool) (page : PageNumber)
  | mustWrite (page : PageNumber)
  | change (page : PageNumber)
  | release (page : PageNumber)
  | fake (latchWait : Bool) (page : PageNumber)
  | precedence (low page : PageNumber) (lastHeaderWrite : Int)
  | write (writeThru : Bool) (page : PageNumber)

def CacheAction.exec (superServer : Bool) (fuel : Nat) (c : Cache) :
    CacheAction → Option (Outcome × Cache)
  | .fetch page => some (.status 1, c.cchFetch page)
  | .mark must page => some (c.cchMark superServer must page)
  | .mustWrite page => some (c.cchMustWrite page)
  | .change page => some (.status 1, c.change page)
  | .release page => c.cchRelease superServer fuel page
  | .fake latchWait page => c.cchFake superServer latchWait fuel page
  | .precedence low page lastHeaderWrite =>
    c.cchPrecedence superServer fuel low page lastHeaderWrite
  | .write writeThru page => c.writeBuffer superServer fuel writeThru true page

def runCache (superServer : Bool) (fuel : Nat) : List CacheAction → Cache → Option Cache
  | [], c => some c
  | a :: as, c =>
    match a.exec superServer fuel c with
    | none => none
    | some (.status _, c') => runCache superServer fuel as c'
    | some (_, c') => some c'

def Cache.init : Cache :=
  ⟨fun _ => ⟨false, false, false, false, false, false, 0⟩, [], []⟩

end Firebird.Jrd
