import Mathlib.Data.List.Sort
import Mathlib.Tactic.Ring

/-!
# A tree as the list of its items

The operations of `BePlusTree` and its default accessor, on the list of the items of the tree in the
order of their keys. The position of the accessor is an index into that list.
-/
namespace Firebird.Common

open List

/-- `BePlusTree`, and the position of its default accessor. -/
structure BePlusTree (α : Type) where
  items : List α
  curPos : Nat
  deriving DecidableEq

inductive LocType
  | locEqual
  | locLess
  | locGreat
  | locGreatEqual
  | locLessEqual
  deriving DecidableEq

variable {α : Type} (key : α → Nat)

/-- `SortedVector::find`: the first item that is not less than the key. -/
def find (items : List α) (k : Nat) : Nat :=
  items.findIdx (fun item => k ≤ key item)

/-- `add`: an item with the key of the new one stays, and the accessor moves to it. -/
def BePlusTree.add (tree : BePlusTree α) (item : α) : Bool × BePlusTree α :=
  let pos := find key tree.items (key item)
  match tree.items[pos]? with
  | some item' =>
    if key item' = key item then (false, { tree with curPos := pos })
    else (true, { tree with items := tree.items.insertIdx pos item })
  | none => (true, { tree with items := tree.items.insertIdx pos item })

def BePlusTree.locate (tree : BePlusTree α) (lt : LocType) (k : Nat) : Bool × BePlusTree α :=
  let pos := find key tree.items k
  match lt with
  | .locEqual => (tree.items[pos]?.map key == some k, { tree with curPos := pos })
  | .locGreatEqual => (pos < tree.items.length, { tree with curPos := pos })
  | .locLessEqual =>
    if tree.items[pos]?.map key == some k then (true, { tree with curPos := pos })
    else if pos = 0 then (false, tree)
    else (true, { tree with curPos := pos - 1 })
  | .locLess => if pos = 0 then (false, tree) else (true, { tree with curPos := pos - 1 })
  | .locGreat =>
    let pos := if tree.items[pos]?.map key == some k then pos + 1 else pos
    (pos < tree.items.length, { tree with curPos := pos })

def BePlusTree.getFirst (tree : BePlusTree α) : Bool × BePlusTree α :=
  (!tree.items.isEmpty, { tree with curPos := 0 })

def BePlusTree.getLast (tree : BePlusTree α) : Bool × BePlusTree α :=
  (!tree.items.isEmpty, { tree with curPos := tree.items.length - 1 })

def BePlusTree.getNext (tree : BePlusTree α) : Bool × BePlusTree α :=
  if tree.curPos + 1 < tree.items.length then (true, { tree with curPos := tree.curPos + 1 })
  else (false, tree)

def BePlusTree.getPrev (tree : BePlusTree α) : Bool × BePlusTree α :=
  if tree.curPos = 0 then (false, tree) else (true, { tree with curPos := tree.curPos - 1 })

def BePlusTree.current (tree : BePlusTree α) : Option α := tree.items[tree.curPos]?

/-- A change of an item through the reference that `current` has returned for its position. -/
def BePlusTree.modify (tree : BePlusTree α) (pos : Nat) (f : α → α) : BePlusTree α :=
  { tree with items := tree.items.modify pos f }

/-- `fastRemove`: the accessor moves to the next item, if there is one. -/
def BePlusTree.fastRemove (tree : BePlusTree α) : Bool × BePlusTree α :=
  let items := tree.items.eraseIdx tree.curPos
  (tree.curPos < items.length, { tree with items := items })

variable {key} {before after : List α} {item : α} {k : Nat}

theorem find_append (hbefore : ∀ x ∈ before, key x < k) (hafter : ∀ x ∈ after.head?, k ≤ key x) :
    find key (before ++ after) k = before.length := by
  induction before with
  | nil =>
    cases after with
    | nil => rfl
    | cons x after =>
      have hx : k ≤ key x := hafter x rfl
      simp [find, findIdx_cons, hx]
  | cons x before ih =>
    have hx : ¬ k ≤ key x := Nat.not_le.mpr (hbefore x mem_cons_self)
    have hrest := ih fun y hy => hbefore y (mem_cons_of_mem x hy)
    rw [find] at hrest ⊢
    simp [findIdx_cons, hx, hrest]

theorem exists_split (key : α → Nat) (items : List α) (k : Nat) :
    ∃ before after, items = before ++ after ∧ (∀ x ∈ before, key x < k) ∧
      ∀ x ∈ after.head?, k ≤ key x := by
  induction items with
  | nil => exact ⟨[], [], rfl, by simp, by simp⟩
  | cons x items ih =>
    by_cases hx : key x < k
    · obtain ⟨before, after, rfl, hbefore, hafter⟩ := ih
      refine ⟨x :: before, after, rfl, ?_, hafter⟩
      intro y hy
      rcases mem_cons.mp hy with rfl | hy
      · exact hx
      · exact hbefore y hy
    · exact ⟨[], x :: items, rfl, by simp, by simpa using hx⟩

theorem modify_append (f : α → α) :
    (before ++ item :: after).modify before.length f = before ++ f item :: after := by
  induction before with
  | nil => rfl
  | cons x before ih => simpa using ih

theorem eraseIdx_append : (before ++ item :: after).eraseIdx before.length = before ++ after := by
  induction before with
  | nil => rfl
  | cons x before ih => simpa using ih

theorem insertIdx_append :
    (before ++ after).insertIdx before.length item = before ++ item :: after := by
  induction before with
  | nil => cases after <;> rfl
  | cons x before ih => simpa using ih

theorem add_append {pos : Nat} (hbefore : ∀ x ∈ before, key x < key item)
    (hafter : ∀ x ∈ after.head?, key item < key x) :
    BePlusTree.add key ⟨before ++ after, pos⟩ item = (true, ⟨before ++ item :: after, pos⟩) := by
  have hfind : find key (before ++ after) (key item) = before.length :=
    find_append hbefore fun x hx => Nat.le_of_lt (hafter x hx)
  rw [BePlusTree.add]
  simp only [hfind]
  cases after with
  | nil => simp
  | cons x after =>
    have hne : ¬ key x = key item := Nat.ne_of_gt (hafter x rfl)
    simp [hne, insertIdx_append]

end Firebird.Common
