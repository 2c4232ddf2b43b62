import Mathlib.Data.Finset.Basic
import Mathlib.Logic.Function.Basic

/-!
# The pages of a tree

`BePlusTree` as it is in memory: pages of items and pages of children, with their links. Each field
of the pages is a map from addresses; a page of items has no `nodes` and no level, a page of
children no `items`. The array `recovery_map` is a list with the entry for the highest level first.
-/
namespace Firebird.Common.Pages

abbrev Addr := Nat

/-- The allocator: which address a new page gets is left open. -/
structure Allocator where
  allocate : Finset Addr → Addr
  fresh : ∀ live, allocate live ∉ live

structure Template (α κ : Type) where
  pool : Allocator
  key : α → κ
  leafCount : Nat
  nodeCount : Nat
  two_le_leafCount : 2 ≤ leafCount
  two_le_nodeCount : 2 ≤ nodeCount

/-- `BePlusTree` with its pages. -/
structure Tree (α : Type) where
  items : Addr → List α
  nodes : Addr → List Addr
  nodeLevel : Addr → Nat
  parent : Addr → Option Addr
  next : Addr → Option Addr
  prev : Addr → Option Addr
  live : Finset Addr
  level : Nat
  root : Option Addr

variable {α κ : Type}

def Tree.empty : Tree α :=
  ⟨fun _ => [], fun _ => [], fun _ => 0, fun _ => none, fun _ => none, fun _ => none, ∅, 0, none⟩

def Tree.setItems (t : Tree α) (a : Addr) (l : List α) : Tree α :=
  { t with items := Function.update t.items a l }

def Tree.setNodes (t : Tree α) (a : Addr) (l : List Addr) : Tree α :=
  { t with nodes := Function.update t.nodes a l }

def Tree.setNodeParent (t : Tree α) (node : Addr) (parent : Option Addr) : Tree α :=
  { t with parent := Function.update t.parent node parent }

def Tree.setNodeParentAndLevel (t : Tree α) (node : Addr) (level : Nat) (parent : Addr) : Tree α :=
  match level with
  | 0 => t.setNodeParent node (some parent)
  | level + 1 =>
    { t.setNodeParent node (some parent) with
      nodeLevel := Function.update t.nodeLevel node level }

/-- `setNodeParent` for all nodes of a list. -/
def Tree.setNodeParents (t : Tree α) (nodes : List Addr) (parent : Addr) : Tree α :=
  nodes.foldl (fun t node => t.setNodeParent node (some parent)) t

def Tree.setNext (t : Tree α) (a : Option Addr) (b : Option Addr) : Tree α :=
  match a with
  | none => t
  | some a => { t with next := Function.update t.next a b }

def Tree.setPrev (t : Tree α) (a : Option Addr) (b : Option Addr) : Tree α :=
  match a with
  | none => t
  | some a => { t with prev := Function.update t.prev a b }

def Tree.allocate (pool : Allocator) (t : Tree α) : Addr × Tree α :=
  let a := pool.allocate t.live
  (a, { t with
    items := Function.update t.items a []
    nodes := Function.update t.nodes a []
    parent := Function.update t.parent a none
    next := Function.update t.next a none
    prev := Function.update t.prev a none
    live := insert a t.live })

/-- The constructors of `ItemList` and `NodeList` that add the page to the list, behind a page. -/
def Tree.allocateAfter (pool : Allocator) (t : Tree α) (items : Addr) : Addr × Tree α :=
  let (a, t) := t.allocate pool
  let t := t.setNext (some a) (t.next items)
  let t := t.setPrev (t.next items) (some a)
  let t := t.setPrev (some a) (some items)
  (a, t.setNext (some items) (some a))

def Tree.deallocate (t : Tree α) (a : Addr) : Tree α :=
  { t with live := t.live.erase a }

/-- Allocations that will not fail; `none` if none will. -/
def takeRoom : Option Nat → Option (Option Nat)
  | none => some none
  | some 0 => none
  | some (n + 1) => some (some n)

/-- `MAX_TREE_LEVEL`, the length of `recovery_map`. -/
def maxTreeLevel : Nat := 30

def needMerge (currentCount pageCount : Nat) : Bool := currentCount * 4 / 3 ≤ pageCount

/-- `NodeList::generate`: the first item of the first page below. -/
def Tree.generate (t : Tree α) : Nat → Addr → Option α
  | 0, item => (t.items item).head?
  | lev + 1, item => (t.nodes item).head?.bind (t.generate lev)

section

variable [LinearOrder κ] (p : Template α κ)

/-- `Cmp::greaterThan(item, generate(..))` -/
def greaterThan (k : κ) (x : Option α) : Bool :=
  match x with
  | none => false
  | some x => p.key x < k

variable {β : Type} (generate : β → Option α) (data : List β) (k : κ)

def findLoop : Nat → Nat → Nat → Nat × Nat
  | 0, lowBound, highBound => (lowBound, highBound)
  | fuel + 1, lowBound, highBound =>
    if lowBound < highBound then
      let temp := (highBound + lowBound) / 2
      if greaterThan p k (data[temp]?.bind generate) then findLoop fuel (temp + 1) highBound
      else findLoop fuel lowBound temp
    else (lowBound, highBound)

def find : Bool × Nat :=
  let (lowBound, highBound) := findLoop p generate data k (data.length + 1) 0 data.length
  (highBound ≠ data.length ∧
    (data[lowBound]?.bind generate).all (fun x => ¬k < p.key x), lowBound)

end

section

variable [LinearOrder κ] (p : Template α κ)

/-- `find` of an `ItemList` -/
def Tree.findItem (t : Tree α) (leaf : Addr) (k : κ) : Bool × Nat :=
  find p some (t.items leaf) k

/-- `find` of a `NodeList` -/
def Tree.findNode (t : Tree α) (list : Addr) (k : κ) : Bool × Nat :=
  find p (t.generate (t.nodeLevel list)) (t.nodes list) k

/-- The key of a node in a list, and `find` for it. -/
def Tree.findNodeOf (t : Tree α) (list node : Addr) : Nat :=
  match t.generate (t.nodeLevel list) node with
  | none => 0
  | some x => (t.findNode p list (p.key x)).2

/-- The page of items for a key, from a page of some level on. -/
def Tree.findLeaf (t : Tree α) (k : κ) : Nat → Addr → Addr
  | 0, list => list
  | lev + 1, list =>
    let (found, pos) := t.findNode p list k
    let pos := if ¬found ∧ pos > 0 then pos - 1 else pos
    t.findLeaf k lev ((t.nodes list).getD pos list)

/-- What `add` ends with; an item that is there already is at a position of a page. `overrun` is a
write behind the end of `recovery_map`. -/
inductive AddResult
  | added
  | found (leaf : Addr) (pos : Nat)
  | thrown
  | overrun
  deriving DecidableEq

/-- The recovery of `add` above the items: from the new page at `curLevel`, with the recovery map
from there down. -/
def Tree.recover (t : Tree α) (newNode : Addr) : List (Option Nat) → Tree α
  | [] => t
  | [entry] =>
    let t := match entry, t.prev newNode with
      | some pos, some prev =>
        t.setItems prev ((t.items prev).eraseIdx pos ++ (t.items newNode).take 1)
      | _, _ => t
    t.deallocate newNode
  | entry :: map =>
    let (lower, t) := match entry, t.prev newNode with
      | some pos, some prev =>
        let lower := (t.nodes prev).getD pos newNode
        let first := (t.nodes newNode).headD newNode
        let t := t.setNodes prev ((t.nodes prev).eraseIdx pos ++ [first])
        (lower, t.setNodeParent first (some prev))
      | _, _ => ((t.nodes newNode).headD newNode, t)
    (t.deallocate newNode).recover lower map

def Tree.growRoot (t : Tree α) (room : Option Nat) (newNode : Addr) (map : List (Option Nat)) :
    AddResult × Tree α :=
  match takeRoom room, t.root with
  | some _, some root =>
    let (nodeList, t) := t.allocate p.pool
    let t := { t with nodeLevel := Function.update t.nodeLevel nodeList t.level }
    let t := t.setNodes nodeList [root]
    let t := t.setNodeParentAndLevel newNode t.level nodeList
    let t := t.setNodeParent root (some nodeList)
    let t := t.setNodes nodeList
      ((t.nodes nodeList).insertIdx (t.findNodeOf p nodeList newNode) newNode)
    (.added, { t with root := some nodeList, level := t.level + 1 })
  | _, _ => (.thrown, t.recover newNode map)

/-- The climb of `add` with a new page, which is not in its parent yet. -/
def Tree.climb : Nat → Tree α → Option Nat → Addr → Option Addr → Nat → List (Option Nat) →
    AddResult × Tree α
  | _, t, room, newNode, none, _, map => t.growRoot p room newNode map
  | 0, t, _, _, some _, _, _ => (.thrown, t)
  | fuel + 1, t, room, newNode, some nodeList, curLevel, map =>
    let count := (t.nodes nodeList).length
    if count < p.nodeCount then
      let t := t.setNodeParentAndLevel newNode curLevel nodeList
      (.added, t.setNodes nodeList
        ((t.nodes nodeList).insertIdx (t.findNodeOf p nodeList newNode) newNode))
    else
      let pos := t.findNodeOf p nodeList newNode
      match (t.next nodeList).filter (fun list => (t.nodes list).length < p.nodeCount),
          (t.prev nodeList).filter (fun list => (t.nodes list).length < p.nodeCount) with
      | some list, _ =>
        -- Found space on the next page.
        if pos = p.nodeCount then
          let t := t.setNodeParentAndLevel newNode curLevel list
          (.added, t.setNodes list (newNode :: t.nodes list))
        else
          let last := (t.nodes nodeList).getD (p.nodeCount - 1) newNode
          let t := t.setNodeParent last (some list)
          let t := t.setNodes list (last :: t.nodes list)
          let t := t.setNodes nodeList ((t.nodes nodeList).take (p.nodeCount - 1))
          let t := t.setNodeParentAndLevel newNode curLevel nodeList
          (.added, t.setNodes nodeList ((t.nodes nodeList).insertIdx pos newNode))
      | none, some list =>
        -- Found space on the previous page.
        if pos = 0 then
          let t := t.setNodeParentAndLevel newNode curLevel list
          (.added, t.setNodes list (t.nodes list ++ [newNode]))
        else
          let first := (t.nodes nodeList).headD newNode
          let t := t.setNodeParent first (some list)
          let t := t.setNodes list (t.nodes list ++ [first])
          let t := t.setNodes nodeList ((t.nodes nodeList).eraseIdx 0)
          let t := t.setNodeParentAndLevel newNode curLevel nodeList
          (.added, t.setNodes nodeList ((t.nodes nodeList).insertIdx (pos - 1) newNode))
      | none, none =>
        match takeRoom room with
        | none => (.thrown, t.recover newNode map)
        | some room =>
          let (newList, t) := t.allocateAfter p.pool nodeList
          if curLevel + 1 ≥ maxTreeLevel then (.overrun, t)
          else if pos = p.nodeCount then
            let t := t.setNodeParentAndLevel newNode curLevel newList
            let t := t.setNodes newList [newNode]
            t.climb fuel room newList (t.parent nodeList) (curLevel + 1) (none :: map)
          else
            let last := (t.nodes nodeList).getD (p.nodeCount - 1) newNode
            let t := t.setNodeParent last (some newList)
            let t := t.setNodes newList [last]
            let t := t.setNodes nodeList ((t.nodes nodeList).take (p.nodeCount - 1))
            let t := t.setNodeParentAndLevel newNode curLevel nodeList
            let t := t.setNodes nodeList ((t.nodes nodeList).insertIdx pos newNode)
            t.climb fuel room newList (t.parent nodeList) (curLevel + 1) (some pos :: map)

/-- `add` from the root on. -/
def Tree.addFrom (t : Tree α) (room : Option Nat) (root : Addr) (item : α) : AddResult × Tree α :=
  let leaf := t.findLeaf p (p.key item) t.level root
  let (found, pos) := t.findItem p leaf (p.key item)
  if found then (.found leaf pos, t)
  else if (t.items leaf).length < p.leafCount then
    (.added, t.setItems leaf ((t.items leaf).insertIdx pos item))
  else
    match (t.next leaf).filter (fun temp => (t.items temp).length < p.leafCount),
        (t.prev leaf).filter (fun temp => (t.items temp).length < p.leafCount) with
    | some temp, _ =>
      -- Found space on the next page.
      if pos = p.leafCount then (.added, t.setItems temp (item :: t.items temp))
      else
        let t := t.setItems temp ((t.items leaf).drop (p.leafCount - 1) ++ t.items temp)
        (.added, t.setItems leaf (((t.items leaf).take (p.leafCount - 1)).insertIdx pos item))
    | none, some temp =>
      -- Found space on the previous page.
      if pos = 0 then (.added, t.setItems temp (t.items temp ++ [item]))
      else
        let t := t.setItems temp (t.items temp ++ (t.items leaf).take 1)
        (.added, t.setItems leaf (((t.items leaf).eraseIdx 0).insertIdx (pos - 1) item))
    | none, none =>
      match takeRoom room with
      | none => (.thrown, t)
      | some room =>
        let (newLeaf, t) := t.allocateAfter p.pool leaf
        if pos = p.leafCount then
          let t := t.setItems newLeaf [item]
          t.climb p (t.level + 1) room newLeaf (t.parent leaf) 0 [none]
        else
          let t := t.setItems newLeaf ((t.items leaf).drop (p.leafCount - 1))
          let t := t.setItems leaf (((t.items leaf).take (p.leafCount - 1)).insertIdx pos item)
          t.climb p (t.level + 1) room newLeaf (t.parent leaf) 0 [some pos]

/-- `add`, where `room` says how many allocations will not fail. -/
def Tree.add (t : Tree α) (room : Option Nat) (item : α) : AddResult × Tree α :=
  match t.root with
  | some root => t.addFrom p room root item
  | none =>
    match takeRoom room with
    | none => (.thrown, t)
    | some room =>
      let (root, t) := t.allocate p.pool
      { t with root := some root }.addFrom p room root item

/-- The links of a page that is removed from the list of its level. -/
def Tree.unlink (t : Tree α) (node : Addr) : Tree α :=
  let t := t.setNext (t.prev node) (t.next node)
  t.setPrev (t.next node) (t.prev node)

def Tree.removePage : Nat → Tree α → Addr → Tree α
  | 0, t, _ => t
  | fuel + 1, t, node =>
    let t := t.unlink node
    let t := match t.parent node with
      | none => t
      | some list =>
        if (t.nodes list).length = 1 then
          -- The only child can't be removed directly.
          if ((t.prev list).any fun temp => needMerge (t.nodes temp).length p.nodeCount) ∨
              ((t.next list).any fun temp => needMerge (t.nodes temp).length p.nodeCount) then
            t.removePage fuel list
          else
            match t.prev list, t.next list with
            | some temp, _ =>
              let last := (t.nodes temp).getLastD node
              let t := t.setNodes list [last]
              let t := t.setNodeParent last (some list)
              t.setNodes temp (t.nodes temp).dropLast
            | none, some temp =>
              let first := (t.nodes temp).headD node
              let t := t.setNodes list [first]
              let t := t.setNodeParent first (some list)
              t.setNodes temp ((t.nodes temp).eraseIdx 0)
            | none, none => t
        else
          let t := t.setNodes list ((t.nodes list).eraseIdx (t.findNodeOf p list node))
          if t.root = some list ∧ (t.nodes list).length = 1 then
            let root := (t.nodes list).headD list
            let t := { t with root := some root, level := t.level - 1 }
            let t := t.setNodeParent root none
            t.deallocate list
          else
            let merges := fun temp =>
              needMerge ((t.nodes temp).length + (t.nodes list).length) p.nodeCount
            match (t.prev list).filter merges, (t.next list).filter merges with
            | some temp, _ =>
              let t := t.setNodes temp (t.nodes temp ++ t.nodes list)
              let t := t.setNodeParents (t.nodes list) temp
              t.removePage fuel list
            | none, some temp =>
              let t := t.setNodes list (t.nodes list ++ t.nodes temp)
              let t := t.setNodeParents (t.nodes temp) list
              t.removePage fuel temp
            | none, none => t
    t.deallocate node

/-- The position of an accessor: a page and a place on it; `none` is behind the last item. -/
structure Position where
  curr : Option Addr
  curPos : Nat

def Tree.adjust (t : Tree α) (curr : Addr) (curPos : Nat) : (Bool × Position) × Tree α :=
  if curPos ≥ (t.items curr).length then (((t.next curr).isSome, ⟨t.next curr, 0⟩), t)
  else ((true, ⟨some curr, curPos⟩), t)

/-- `fastRemove` for an item of a page: whether there is a next item, and its position. -/
def Tree.fastRemove (t : Tree α) (curr : Addr) (curPos : Nat) : (Bool × Position) × Tree α :=
  if t.level = 0 then
    let t := t.setItems curr ((t.items curr).eraseIdx curPos)
    ((curPos < (t.items curr).length, ⟨some curr, curPos⟩), t)
  else if (t.items curr).length = 1 then
    -- The only item of a page can't be removed directly.
    let merges := fun temp => needMerge (t.items temp).length p.leafCount
    if (t.prev curr).any merges then
      (((t.next curr).isSome, ⟨t.next curr, curPos⟩), t.removePage p (t.level + 1) curr)
    else if (t.next curr).any merges then
      ((true, ⟨t.next curr, curPos⟩), t.removePage p (t.level + 1) curr)
    else
      match t.prev curr, t.next curr with
      | some temp, next =>
        let t := t.setItems curr ((t.items temp).drop ((t.items temp).length - 1))
        ((next.isSome, ⟨next, curPos⟩), t.setItems temp (t.items temp).dropLast)
      | none, some temp =>
        let t := t.setItems curr ((t.items temp).take 1)
        ((true, ⟨some curr, curPos⟩), t.setItems temp ((t.items temp).eraseIdx 0))
      | none, none => ((false, ⟨some curr, curPos⟩), t)
  else
    let t := t.setItems curr ((t.items curr).eraseIdx curPos)
    let merges := fun temp =>
      needMerge ((t.items temp).length + (t.items curr).length) p.leafCount
    match (t.prev curr).filter merges, (t.next curr).filter merges with
    | some temp, _ =>
      let pos := curPos + (t.items temp).length
      let t := t.setItems temp (t.items temp ++ t.items curr)
      let t := t.removePage p (t.level + 1) curr
      t.adjust temp pos
    | none, some temp =>
      let t := t.setItems curr (t.items curr ++ t.items temp)
      ((true, ⟨some curr, curPos⟩), t.removePage p (t.level + 1) temp)
    | none, none => t.adjust curr curPos

end

end Firebird.Common.Pages
