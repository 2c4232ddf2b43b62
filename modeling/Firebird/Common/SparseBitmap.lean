import Firebird.Common.Tree

/-!
# Sparse bitmaps

`SparseBitmap`: a set of numbers of an unsigned type, kept as buckets of bits in a tree, or as the
only number in it. The pages of a tree are known here by its `Shape` only, which decides what
`bit_or` and `bit_and` write to.
-/
namespace Firebird.Common

/-- `Bucket`; a bunch has `n` bits. -/
structure Bucket (n : Nat) where
  startValue : Nat
  bits : BitVec n

structure SparseBitmap (n : Nat) where
  singular : Bool
  singularValue : Nat
  tree : BePlusTree (Bucket n)

/-- The level of a tree, and how many entries its root page has, if there is one. -/
structure Shape where
  level : Nat
  root : Option Nat

def Shape.seemsBiggerThan (this other : Shape) : Bool :=
  if this.level ≠ other.level then this.level > other.level
  else
    match this.root, other.root with
    | none, none => true
    | none, some _ => false
    | some _, none => true
    | some count, some count' => count > count'

def BePlusTree.isPositioned {α : Type} (key : α → Nat) (tree : BePlusTree α) (k : Nat) : Bool :=
  tree.current.map key == some k

/-- `isPositioned || locate` -/
def BePlusTree.seek {α : Type} (key : α → Nat) (tree : BePlusTree α) (k : Nat) :
    Bool × BePlusTree α :=
  if tree.isPositioned key k then (true, tree) else tree.locate key .locEqual k

variable {n : Nat}

/-- `value & ~(T) (BUNCH_BITS - 1)` -/
def aligned (n value : Nat) : Nat := value - (value &&& (n - 1))

/-- `BUNCH_ONE << (value - val_aligned)` -/
def bitMask (n value : Nat) : BitVec n := 1#n <<< (value - aligned n value)

def Bucket.of (n value : Nat) : Bucket n := ⟨aligned n value, bitMask n value⟩

def Bucket.or (bits : BitVec n) (b : Bucket n) : Bucket n := { b with bits := b.bits ||| bits }

def Bucket.and (bits : BitVec n) (b : Bucket n) : Bucket n := { b with bits := b.bits &&& bits }

namespace SparseBitmap

def new (n : Nat) : SparseBitmap n := ⟨false, 0, ⟨[], 0⟩⟩

/-- The end of `set`: the bit in the tree. -/
def setBit (tree : BePlusTree (Bucket n)) (value : Nat) : BePlusTree (Bucket n) :=
  if tree.isPositioned Bucket.startValue (aligned n value) then
    tree.modify tree.curPos (Bucket.or (bitMask n value))
  else
    let (added, tree) := tree.add Bucket.startValue (Bucket.of n value)
    if added then tree else tree.modify tree.curPos (Bucket.or (bitMask n value))

def set (b : SparseBitmap n) (value : Nat) : SparseBitmap n :=
  if b.singular then
    if b.singularValue = value then b
    else
      let tree := (b.tree.add Bucket.startValue (Bucket.of n b.singularValue)).2
      { b with singular := false, tree := setBit tree value }
  else if b.tree.items.isEmpty then { b with singular := true, singularValue := value }
  else { b with tree := setBit b.tree value }

/-- `clear` of a value. -/
def clear (b : SparseBitmap n) (value : Nat) : Bool × SparseBitmap n :=
  if b.singular then
    if value = b.singularValue then (true, { b with singular := false }) else (false, b)
  else
    let (found, tree) := b.tree.seek Bucket.startValue (aligned n value)
    match found, tree.current with
    | true, some bucket =>
      if bucket.bits &&& bitMask n value ≠ 0 then
        let bits := bucket.bits &&& ~~~bitMask n value
        let tree := tree.modify tree.curPos (Bucket.and (~~~bitMask n value))
        if bits = 0 then (true, { b with tree := tree.fastRemove.2 })
        else (true, { b with tree := tree })
      else (false, { b with tree := tree })
    | _, _ => (false, { b with tree := tree })

/-- `clear` of the bitmap. -/
def clearAll (b : SparseBitmap n) : SparseBitmap n :=
  { b with singular := false, tree := ⟨[], 0⟩ }

def test (b : SparseBitmap n) (value : Nat) : Bool × SparseBitmap n :=
  if b.singular then (value = b.singularValue, b)
  else
    let (found, tree) := b.tree.seek Bucket.startValue (aligned n value)
    match found, tree.current with
    | true, some bucket => (bucket.bits &&& bitMask n value ≠ 0, { b with tree := tree })
    | _, _ => (false, { b with tree := tree })

def valueOf (tree : BePlusTree (Bucket n)) (value : Nat) : Nat :=
  (tree.current.map Bucket.startValue).getD value

/-- The loop of `bit_or`. The source is what is left of its buckets, the current one first. -/
def orLoop : Nat → List (Bucket n) → BePlusTree (Bucket n) → Bool → Nat →
    Option (BePlusTree (Bucket n))
  | _, [], dest, _, _ => some dest
  | 0, _ :: _, _, _, _ => none
  | fuel + 1, s :: source, dest, destFound, destValue =>
    if destFound then
      if destValue < s.startValue then
        let (destFound, dest) := dest.getNext
        orLoop fuel (s :: source) dest destFound (valueOf dest destValue)
      else if destValue = s.startValue then
        let dest := dest.modify dest.curPos (Bucket.or s.bits)
        let (destFound, dest) := dest.getNext
        orLoop fuel source dest destFound (valueOf dest destValue)
      else
        let dest := (dest.add Bucket.startValue s).2
        match source with
        | [] => some dest
        | next :: _ =>
          -- The accessor is resynced only when the row of added buckets ends.
          let dest :=
            if destValue ≤ next.startValue then
              (dest.locate Bucket.startValue .locEqual destValue).2
            else dest
          orLoop fuel source dest true destValue
    else some ((s :: source).foldl (fun dest s => (dest.add Bucket.startValue s).2) dest)

/-- The tree that `bit_or` leaves in the destination. -/
def orTree (dest source : BePlusTree (Bucket n)) : Option (BePlusTree (Bucket n)) :=
  match source.items with
  | [] => some dest
  | s :: rest =>
    let (destFound, dest) := dest.getFirst
    if destFound then
      orLoop (dest.items.length + (s :: rest).length) (s :: rest) dest true (valueOf dest 0)
    else some dest

/-- `while (fastRemove())` -/
def removeAll : Nat → BePlusTree (Bucket n) → Option (BePlusTree (Bucket n))
  | 0, _ => none
  | fuel + 1, dest =>
    let (destFound, dest) := dest.fastRemove
    if destFound then removeAll fuel dest else some dest

/-- The loop of `bit_and`. -/
def andLoop : Nat → List (Bucket n) → BePlusTree (Bucket n) → Bool → Nat →
    Option (BePlusTree (Bucket n))
  | 0, _, dest, destFound, _ => if destFound then none else some dest
  | fuel + 1, source, dest, destFound, destValue =>
    if destFound then
      match source with
      | [] => removeAll (dest.items.length + 1) dest
      | s :: source =>
        if s.startValue < destValue then andLoop fuel source dest true destValue
        else if s.startValue = destValue then
          let bits := (dest.current.map Bucket.bits).getD 0 &&& s.bits
          let dest := dest.modify dest.curPos (Bucket.and s.bits)
          let (destFound, dest) := if bits ≠ 0 then dest.getNext else dest.fastRemove
          andLoop fuel source dest destFound (valueOf dest destValue)
        else
          let (destFound, dest) := dest.fastRemove
          andLoop fuel (s :: source) dest destFound (valueOf dest destValue)
    else some dest

/-- The tree that `bit_and` leaves in the destination. -/
def andTree (dest source : BePlusTree (Bucket n)) : Option (BePlusTree (Bucket n)) :=
  let (destFound, dest) := dest.getFirst
  if destFound then
    match source.items with
    | [] => some dest
    | s :: rest =>
      andLoop (dest.items.length + (s :: rest).length) (s :: rest) dest true (valueOf dest 0)
  else some dest

/-- `bit_or`: the bitmap that is returned, which is one of the two; an operand may be NULL. -/
def bitOr (map₁ map₂ : Option (SparseBitmap n)) (shape₁ shape₂ : Shape) :
    Option (Option (SparseBitmap n)) :=
  match map₁, map₂ with
  | none, map₂ => some map₂
  | some map₁, none => some (some map₁)
  | some map₁, some map₂ =>
    if map₁.singular then some (some (map₂.set map₁.singularValue))
    else if map₂.singular then some (some (map₁.set map₂.singularValue))
    else if shape₂.seemsBiggerThan shape₁ then
      (orTree map₂.tree map₁.tree).map fun tree => some { map₂ with tree := tree }
    else (orTree map₁.tree map₂.tree).map fun tree => some { map₁ with tree := tree }

/-- `bit_and`: the bitmap that is returned. -/
def bitAnd (map₁ map₂ : Option (SparseBitmap n)) (shape₁ shape₂ : Shape) :
    Option (Option (SparseBitmap n)) :=
  match map₁, map₂ with
  | some map₁, some map₂ =>
    if map₁.singular then
      some (if (map₂.test map₁.singularValue).1 then some map₁ else none)
    else if map₂.singular then
      some (if (map₁.test map₂.singularValue).1 then some map₂ else none)
    else if shape₁.seemsBiggerThan shape₂ then
      (andTree map₂.tree map₁.tree).map fun tree => some { map₂ with tree := tree }
    else (andTree map₁.tree map₂.tree).map fun tree => some { map₁ with tree := tree }
  | _, _ => some none

end SparseBitmap

end Firebird.Common
