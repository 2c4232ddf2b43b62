import Mathlib.Data.List.Basic
import Mathlib.Tactic.Ring

/-!
# Searching an index page

The functions of `btr.cpp` and `btn.cpp` that search a page of an index with large keys. A page is
the list of the nodes that `BTreeNode::readNode` reads from it one after another, and a pointer to a
node, as well as the offset in a jump node, is an index into that list. What is called `prefix` in
the source is `nodePrefix` or `jumpPrefix` in a node, and `common` where it is computed.
-/
namespace Firebird.Jrd.Btr

structure IndexNode where
  nodePrefix : Nat
  data : List UInt8
  recordNumber : Int
  pageNumber : Int
  isEndBucket : Bool
  isEndLevel : Bool

structure IndexJumpNode where
  jumpPrefix : Nat
  data : List UInt8
  offset : Nat

/-- A page: its nodes, its jump table, and what its header says. -/
structure BtreePage where
  nodes : List IndexNode
  jumpNodes : List IndexJumpNode
  leaf : Bool
  allRecordNumber : Bool
  jumpInfo : Bool

inductive Stop
  | bugcheck (msg : Nat)
  | undefined
  deriving DecidableEq

/-- `memcpy` to a place in a buffer. -/
def memcpy (buffer : List UInt8) (offset : Nat) (data : List UInt8) : List UInt8 :=
  buffer.take offset ++ data ++ buffer.drop (offset + data.length)

/-- The end of a comparison: the search is done, possibly at a node with exactly the key, or it
goes on behind the node, with so many more bytes in common. -/
inductive Walk
  | done (exact : Bool)
  | go (matched : Nat)
  deriving DecidableEq

def Walk.succ : Walk → Walk
  | done exact => done exact
  | go matched => go (matched + 1)

/-- The loop that compares the rest of the key with the data of a node. In a descending index a
node that is the beginning of the key is behind it. -/
def walk (descending retrieval : Bool) : List UInt8 → List UInt8 → Walk
  | [], [] => .done true
  | [], _ :: _ => if descending && !retrieval then .go 0 else .done false
  | _ :: _, [] => if descending then .done false else .go 0
  | a :: p, b :: q =>
    if a > b then .go 0
    else if a < b then .done false
    else (walk descending retrieval p q).succ

/-- What is known of the start: the jump key, the bytes it has in common with the key, the node to
start at, with its common bytes, and the value. -/
structure Area where
  jumpKey : List UInt8
  testPrefix : Nat
  common : Nat
  start : Nat
  value : Option (List UInt8)

/-- The walk between the jump nodes of duplicates. `j` is the current jump node, and `node` the
node it refers to. -/
def duplicateArea (page : BtreePage) (descending : Bool) (keyLength : Nat) (find : Int) :
    List IndexJumpNode → IndexJumpNode → IndexNode → Area → Except Stop Area
  | [], _, _, a => .ok a
  | j' :: jumps, j, node, a =>
    if find ≤ node.recordNumber then .ok a
    else
      let a := { a with common := j.jumpPrefix + j.data.length, start := j.offset }
      match page.nodes[j'.offset]? with
      | none => .error .undefined
      | some node' =>
        if !node'.data.isEmpty || node'.nodePrefix != j.jumpPrefix + j.data.length ||
            (descending && decide (node'.nodePrefix < keyLength)) ||
            j'.jumpPrefix != j.jumpPrefix + j.data.length || node'.isEndBucket ||
              node'.isEndLevel then
          .ok a
        else duplicateArea page descending keyLength find jumps j' node' a

def areaLoop (page : BtreePage) (key : List UInt8) (descending retrieval : Bool)
    (find : Option Int) :
    List IndexJumpNode → Area → Except Stop Area
  | [], a => .ok a
  | j :: jumps, a =>
    match page.nodes[j.offset]? with
    | none => .error .undefined
    | some node =>
      let jumpKey := memcpy (memcpy a.jumpKey j.jumpPrefix j.data) node.nodePrefix node.data
      let keyLength := node.nodePrefix + node.data.length
      let total := j.jumpPrefix + j.data.length
      let next (testPrefix : Nat) : Area :=
        { jumpKey := jumpKey
          testPrefix := testPrefix
          common := min total testPrefix
          start := j.offset
          value := a.value.map (memcpy · 0 (jumpKey.take total)) }
      if j.jumpPrefix ≤ a.testPrefix then
        match walk descending retrieval (key.drop j.jumpPrefix)
            ((jumpKey.take keyLength).drop j.jumpPrefix) with
        | .go matched =>
          areaLoop page key descending retrieval find jumps (next (j.jumpPrefix + matched))
        | .done exact =>
          match exact, find with
          | true, some find => duplicateArea page descending keyLength find jumps j node a
          | _, _ => .ok a
      else areaLoop page key descending retrieval find jumps (next a.testPrefix)

def findAreaStartPoint (page : BtreePage) (key : List UInt8) (value : Option (List UInt8))
    (descending retrieval : Bool) (find : Option Int) : Except Stop Area :=
  let a : Area := ⟨[], 0, 0, 0, value⟩
  if page.jumpInfo then
    areaLoop page key descending retrieval (if page.allRecordNumber then find else none)
      page.jumpNodes a
  else .ok a

/-- The node that has been found: its index, the bytes the key has in common with what is in front
of it, and the value. -/
structure Found where
  index : Nat
  common : Nat
  value : Option (List UInt8)
  deriving DecidableEq

/-- The comparison of a node, if it has to be made: a duplicate is skipped in an ascending index. -/
def compareNode (key : List UInt8) (descending retrieval : Bool) (node : IndexNode) (common : Nat)
    (firstPass : Bool) : Walk :=
  if node.nodePrefix = common ∧ (descending || !node.data.isEmpty || firstPass) then
    walk descending retrieval (key.drop common) node.data
  else .go 0

/-- `firstPass` behind a node. -/
def passed (descending : Bool) (node : IndexNode) (common : Nat) (firstPass : Bool) : Bool :=
  firstPass && (descending || node.nodePrefix != common)

/-- The loop of `find_node_start_point`. -/
def nodeLoop (key : List UInt8) (descending retrieval pointerByMarker : Bool) :
    List IndexNode → Found → Bool → Except Stop (Option Found)
  | [], _, _ => .error (.bugcheck 204)
  | node :: nodes, f, firstPass =>
    let f := { f with value := f.value.map (memcpy · node.nodePrefix node.data) }
    if node.isEndLevel || node.nodePrefix < f.common then .ok (some f)
    else
      match compareNode key descending retrieval node f.common firstPass with
      | .done _ => .ok (some f)
      | .go matched =>
        let firstPass := passed descending node f.common firstPass
        let f := { f with common := f.common + matched }
        if node.isEndBucket then
          if pointerByMarker ∧ f.common = key.length ∧
              f.common = node.nodePrefix + node.data.length then .ok (some f)
          else .ok none
        else
          nodeLoop key descending retrieval pointerByMarker nodes { f with index := f.index + 1 }
            firstPass

def findNodeStartPoint (page : BtreePage) (key : List UInt8) (value : Option (List UInt8))
    (descending retrieval pointerByMarker : Bool) (find : Option Int) :
    Except Stop (Option Found) := do
  let a ← findAreaStartPoint page key value descending retrieval find
  match page.nodes.drop a.start with
  | [] => .error (.bugcheck 204)
  | node :: nodes =>
    -- The dummy node at the front of a level.
    if !page.leaf && descending && a.start == 0 && node.data.isEmpty then
      nodeLoop key descending retrieval pointerByMarker nodes ⟨1, a.common, a.value⟩ true
    else
      nodeLoop key descending retrieval pointerByMarker (node :: nodes) ⟨a.start, a.common, a.value⟩
        true

def findPageInDuplicates (find : Int) : List IndexNode → Int → Except Stop Int
  | [], _ => .error .undefined
  | node :: nodes, previousNumber =>
    if node.isEndBucket || find ≤ node.recordNumber then .ok previousNumber
    else
      match nodes with
      | [] => .error .undefined
      | next :: nodes =>
        if next.isEndLevel || !next.data.isEmpty ||
            next.nodePrefix != node.data.length + node.nodePrefix then .ok node.pageNumber
        else findPageInDuplicates find (next :: nodes) node.pageNumber

/-- The loop of `find_page`. -/
def pageLoop (key : List UInt8) (descending retrieval : Bool) (find : Option Int) :
    List IndexNode → Nat → Bool → Int → Except Stop Int
  | [], _, _, _ => .error (.bugcheck 204)
  | node :: nodes, common, firstPass, previousNumber =>
    if node.isEndLevel || node.nodePrefix < common then .ok previousNumber
    else
      match compareNode key descending retrieval node common firstPass with
      | .done exact =>
        match exact, find with
        | true, some find => findPageInDuplicates find (node :: nodes) previousNumber
        | _, _ => .ok previousNumber
      | .go matched =>
        if node.isEndBucket then .ok node.pageNumber
        else
          pageLoop key descending retrieval find nodes (common + matched)
            (passed descending node common firstPass) node.pageNumber

/-- `find_page` from a node. -/
def findPageFrom (page : BtreePage) (key : List UInt8) (descending retrieval : Bool)
    (find : Option Int) (start common : Nat) : Except Stop Int :=
  match page.nodes.drop start with
  | [] => .error (.bugcheck 204)
  | node :: nodes =>
    if node.isEndLevel then .error (.bugcheck 206)
    else if start = 0 then
      if node.nodePrefix = 0 ∧ node.data = [] then
        pageLoop key descending retrieval find nodes 0 true node.pageNumber
      else pageLoop key descending retrieval find (node :: nodes) 0 true node.pageNumber
    else pageLoop key descending retrieval find (node :: nodes) common true node.pageNumber

/-- `find_page`; `validateDuplicates` stands for a unique index. -/
def findPage (page : BtreePage) (key : List UInt8) (descending retrieval validateDuplicates : Bool)
    (find : Option Int) : Except Stop Int := do
  let find := if !page.allRecordNumber || validateDuplicates then none else find
  let a ← findAreaStartPoint page key none descending retrieval find
  match page.nodes[a.start]? with
  | none => .error (.bugcheck 204)
  | some node =>
    if node.isEndBucket || node.isEndLevel then
      findPageFrom page key descending retrieval find 0 a.common
    else findPageFrom page key descending retrieval find a.start a.common

end Firebird.Jrd.Btr
