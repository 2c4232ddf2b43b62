import Mathlib.Data.List.Range
import Firebird.Lib.Crumb

/-!
# The transaction inventory pages and their cache

The functions of `tra.cpp` and `tpc.cpp` that read and write the two-bit states of transactions, on
the inventory pages, in the vector of a snapshot and in the blocks of the cache. Numbers are below
`2 ^ 31` and a page holds less than `2 ^ 17` of them, so no unsigned sum wraps; a difference can.
Every page up to the one of the next transaction exists.
-/
namespace Firebird.Jrd.Tpc

open Lib

/-- `tra_active` to `tra_committed` -/
inductive TraState where
  | active
  | limbo
  | dead
  | committed
  deriving DecidableEq

namespace TraState

def bits : TraState → BitVec 8
  | active => 0
  | limbo => 1
  | dead => 2
  | committed => 3

def ofBits (b : BitVec 8) : TraState :=
  if b = 0 then active else if b = 1 then limbo else if b = 2 then dead else committed

def Final (s : TraState) : Prop := s = committed ∨ s = dead

@[simp] theorem ofBits_bits (s : TraState) : ofBits s.bits = s := by cases s <;> rfl

theorem bits_lt (s : TraState) : s.bits.toNat < 4 := by cases s <;> decide

end TraState

abbrev Bytes := Nat → BitVec 8

def maxTraNumber : Nat := 2 ^ 31 - 1

def transOffset (number : Nat) : Nat := number / 4

def transShift (number : Nat) : Nat := 2 * (number % 4)

/-- `TRA_state`. The difference is unsigned. -/
def traState (bitVector : Bytes) (oldest number : Nat) : TraState :=
  let base := oldest / 4 * 4
  let byte := transOffset ((number + 2 ^ 32 - base) % 2 ^ 32)
  .ofBits (bitVector byte >>> transShift number &&& 3)

/-- `MOVE_FAST (q + s, p + t, l)` -/
def moveFast (q : Bytes) (s : Nat) (p : Bytes) (t l : Nat) : Bytes :=
  fun i => if t ≤ i ∧ i < t + l then q (s + (i - t)) else p i

structure TxPageCache where
  tpcBase : Nat
  tpcTransactions : Bytes

def TxPageCache.Holds (tpc : TxPageCache) (transPerTip number : Nat) : Prop :=
  tpc.tpcBase ≤ number ∧ number < tpc.tpcBase + transPerTip

instance (tpc : TxPageCache) (t n : Nat) : Decidable (tpc.Holds t n) :=
  inferInstanceAs (Decidable (_ ∧ _))

def TxPageCache.state (tpc : TxPageCache) (number : Nat) : TraState :=
  traState tpc.tpcTransactions tpc.tpcBase number

/-- The fields of `Database` in use, with the inventory pages by sequence and the header page. -/
structure Database where
  transPerTIP : Nat
  dbbReadOnly : Bool
  dbbTipCache : List TxPageCache
  dbbOldestTransaction : Nat
  dbbPcTransactions : List Nat
  tip : Nat → Bytes
  hdrOldestTransaction : Nat
  hdrNextTransaction : Nat

def Database.tipState (dbb : Database) (number : Nat) : TraState :=
  .ofBits (dbb.tip (number / dbb.transPerTIP) (transOffset (number % dbb.transPerTIP)) >>>
    transShift number &&& 3)

/-- The blocks from the first one on that `dbb_oldest_transaction` has not passed. -/
def releaseBlocks (oldest transPerTip : Nat) (cache : List TxPageCache) : List TxPageCache :=
  cache.dropWhile fun tpc => tpc.tpcBase + transPerTip ≤ oldest

/-- Changes the first block that `p` holds of. -/
def updateFirst (p : TxPageCache → Bool) (f : Bytes → Bytes) : List TxPageCache → List TxPageCache
  | [] => []
  | tpc :: rest =>
    if p tpc then { tpc with tpcTransactions := f tpc.tpcTransactions } :: rest
    else tpc :: updateFirst p f rest

/-- `TPC_update_cache`. The length is an unsigned short. -/
def tpcUpdateCache (dbb : Database) (tipPage : Bytes) (sequence : Nat) : Database :=
  let transPerTip := dbb.transPerTIP
  let firstTrans := sequence * transPerTip
  let cache := releaseBlocks dbb.dbbOldestTransaction transPerTip dbb.dbbTipCache
  let l := transOffset transPerTip % 2 ^ 16
  { dbb with
    dbbTipCache :=
      updateFirst (fun tpc => firstTrans == tpc.tpcBase) (fun p => moveFast tipPage 0 p 0 l) cache }

def fetchInventoryPage (dbb : Database) (sequence : Nat) : Bytes × Database :=
  let tip := dbb.tip sequence
  (tip, tpcUpdateCache dbb tip sequence)

/-- The bit vector of `TRA_get_inventory`, or none for a null pointer, the bytes moved to it so far,
and the database with its cache. -/
structure Inventory where
  bitVector : Option Bytes
  moved : Nat
  dbb : Database

/-- `MOVE_FAST(q, p, l); p += l`, for a pointer that is not null. -/
def Inventory.move (inv : Inventory) (q : Bytes) (s l : Nat) : Inventory :=
  match inv.bitVector with
  | none => inv
  | some p => { inv with bitVector := some (moveFast q s p inv.moved l), moved := inv.moved + l }

/-- The first page of `TRA_get_inventory`. -/
def firstPage (dbb : Database) (bitVector : Option Bytes) (base top : Nat) : Inventory :=
  let transPerTip := dbb.transPerTIP
  let (tip, dbb) := fetchInventoryPage dbb (base / transPerTip)
  let l := base % transPerTip
  let inv : Inventory := { bitVector, moved := 0, dbb }
  inv.move tip (transOffset l) (transOffset (min (top + 3 - base) (transPerTip - l)))

/-- One turn of the loop of `TRA_get_inventory`. -/
def nextPage (top : Nat) (inv : Inventory) (sequence : Nat) : Inventory :=
  let transPerTip := inv.dbb.transPerTIP
  let base := sequence * transPerTip
  let (tip, dbb) := fetchInventoryPage inv.dbb sequence
  { inv with dbb }.move tip 0 (transOffset (min (top + 3 - base) transPerTip))

def traGetInventory (dbb : Database) (bitVector : Option Bytes) (base top : Nat) : Inventory :=
  let sequence := base / dbb.transPerTIP
  let last := top / dbb.transPerTIP
  (List.range' (sequence + 1) (last - sequence)).foldl (nextPage top)
    (firstPage dbb bitVector base top)

def tpcSetState (dbb : Database) (number : Nat) (state : TraState) : Database :=
  let byte := transOffset (number % dbb.transPerTIP)
  { dbb with
    dbbTipCache :=
      updateFirst (fun tpc => number < tpc.tpcBase + dbb.transPerTIP)
        (fun p => Function.update p byte (Crumb.put (p byte) state.bits (transShift number)))
        dbb.dbbTipCache }

/-- The fields of `jrd_tra` that `TRA_set_state` reads. -/
structure Transaction where
  traNumber : Nat
  precommitted : Bool

/-- The test of `TRA_set_state` for a transaction that ends itself after a precommit. -/
def endsPrecommitted (transaction : Option Transaction) (number : Nat) : Bool :=
  transaction.any fun tra => tra.traNumber == number && tra.precommitted

def Database.cacheOnly (dbb : Database) : Bool := dbb.dbbReadOnly && !dbb.dbbTipCache.isEmpty

def traSetState (dbb : Database) (transaction : Option Transaction) (number : Nat)
    (state : TraState) : Database :=
  if endsPrecommitted transaction number then dbb
  else if dbb.cacheOnly then tpcSetState dbb number state
  else
    let sequence := number / dbb.transPerTIP
    let byte := transOffset (number % dbb.transPerTIP)
    let (tip, dbb) := fetchInventoryPage dbb sequence
    let address := Crumb.put (tip byte) state.bits (transShift number)
    let dbb := { dbb with tip := Function.update dbb.tip sequence (Function.update tip byte address)
      }
    if dbb.dbbTipCache.isEmpty then dbb else tpcSetState dbb number state

/-- What the routines answer, `tra_precommitted` included. -/
inductive Answer where
  | state (s : TraState)
  | precommitted
  deriving DecidableEq

/-- `TRA_state` on a block, or none for a number that is not in its range: the read is then outside
of the block. -/
def TxPageCache.lookup (tpc : TxPageCache) (transPerTip number : Nat) : Option TraState :=
  if tpc.Holds transPerTip number then some (tpc.state number) else none

def findBlock (transPerTip number : Nat) (cache : List TxPageCache) : Option TxPageCache :=
  cache.find? fun tpc => number < tpc.tpcBase + transPerTip

/-- The blocks that `cache_transactions` allocates, from `base` to `top`. -/
def allocateBlocks (transPerTip top : Nat) : Nat → Nat → List TxPageCache
  | 0, _ => []
  | fuel + 1, base =>
    if base ≤ top then
      ⟨base, fun _ => 0⟩ ::
        if maxTraNumber - transPerTip ≤ base then []
        else allocateBlocks transPerTip top fuel (base + transPerTip)
    else []

/-- `cache_transactions`, which appends to the cache. It answers the oldest transaction of the
header. -/
def cacheTransactions (dbb : Database) (oldest : Nat) : Nat × Database :=
  let transPerTip := dbb.transPerTIP
  let top := dbb.hdrNextTransaction
  let hdrOldest := dbb.hdrOldestTransaction
  let oldest := max oldest hdrOldest
  let blocks := allocateBlocks transPerTip top (top / transPerTip + 1)
    (oldest - oldest % transPerTip)
  let dbb := { dbb with dbbTipCache := dbb.dbbTipCache ++ blocks }
  let dbb := (traGetInventory dbb none oldest top).dbb
  (hdrOldest, { dbb with
    dbbTipCache := dbb.dbbTipCache.dropWhile fun tpc => tpc.tpcBase + transPerTip < hdrOldest })

def tpcInitializeTpc (dbb : Database) (number : Nat) : Database :=
  match dbb.dbbTipCache.getLast? with
  | none => (cacheTransactions dbb 0).2
  | some last =>
    if number < last.tpcBase + dbb.transPerTIP then dbb
    else if last.tpcBase < maxTraNumber - dbb.transPerTIP then
      (cacheTransactions dbb (last.tpcBase + dbb.transPerTIP)).2
    else dbb

/-- The state in the block found for a number, `tra_active` if there is none. -/
def blockState (dbb : Database) (number : Nat) : Option Answer :=
  match findBlock dbb.transPerTIP number dbb.dbbTipCache with
  | some tpc => (tpc.lookup dbb.transPerTIP number).map .state
  | none => some (.state .active)

/-- `extend_cache`. The cache is not empty when it is called. -/
def extendCache (dbb : Database) (number : Nat) : Option Answer × Database :=
  match dbb.dbbTipCache.getLast? with
  | none => (none, dbb)
  | some last =>
    if last.tpcBase < maxTraNumber - dbb.transPerTIP then
      let (oldest, dbb) := cacheTransactions dbb (last.tpcBase + dbb.transPerTIP)
      if number < oldest then (some (.state .committed), dbb) else (blockState dbb number, dbb)
    else (blockState dbb number, dbb)

/-- `number && dbb->dbb_pc_transactions && TRA_precommited (number, number)` -/
def traPrecommited (dbb : Database) (number : Nat) : Bool :=
  number != 0 && dbb.dbbPcTransactions.contains number

/-- `TPC_cache_state`. There is no answer after a read outside of a block, or of no block. -/
def tpcCacheState (dbb : Database) (number : Nat) : Option Answer × Database :=
  let dbb := if dbb.dbbTipCache.isEmpty then tpcInitializeTpc dbb number else dbb
  if traPrecommited dbb number then (some .precommitted, dbb)
  else
    match dbb.dbbTipCache.head? with
    | none => (none, dbb)
    | some first =>
      if number < first.tpcBase ∨ number = 0 then (some (.state .committed), dbb)
      else (blockState dbb number, dbb)

def traFetchState (dbb : Database) (number : Nat) : TraState × Database :=
  let (tip, dbb) := fetchInventoryPage dbb (number / dbb.transPerTIP)
  (.ofBits (tip (transOffset (number % dbb.transPerTIP)) >>> transShift number &&& 3), dbb)

/-- The end of `TPC_snapshot_state`, from the search for the block on. -/
def snapshotBlock (dbb : Database) (number : Nat) (lockFree : Bool) : Option Answer × Database :=
  match findBlock dbb.transPerTIP number dbb.dbbTipCache with
  | none => extendCache dbb number
  | some tpc =>
    match tpc.lookup dbb.transPerTIP number with
    | none => (none, dbb)
    | some state =>
      if state = .committed ∨ state = .dead then (some (.state state), dbb)
      else if lockFree then
        let (state, dbb) := traFetchState dbb number
        (some (.state state), dbb)
      else (some (.state .active), dbb)

/-- `TPC_snapshot_state`. `lockFree` says if a lock on the transaction can be had. -/
def tpcSnapshotState (dbb : Database) (number : Nat) (lockFree : Bool) : Option Answer × Database :=
  let dbb := if dbb.dbbTipCache.isEmpty then (cacheTransactions dbb 0).2 else dbb
  if traPrecommited dbb number then (some .precommitted, dbb)
  else
    match dbb.dbbTipCache.head? with
    | none => (none, dbb)
    | some first =>
      if number < first.tpcBase ∨ number = 0 then (some (.state .committed), dbb)
      else snapshotBlock dbb number lockFree

end Firebird.Jrd.Tpc
