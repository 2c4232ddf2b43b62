import Firebird.Common.SparseMerge

/-!
# Navigation in sparse bitmaps

`SparseBitmap::Accessor`. Its values are numbers of an unsigned type, and go round at both ends of
its range: `top` is the number of values of that type. The tree is walked by an accessor of its own.
-/
namespace Firebird.Common.SparseBitmap

variable {n : Nat}

/-- `Accessor`; NULL bitmaps are allowed. -/
structure Accessor (n : Nat) where
  bitmap : Option (SparseBitmap n)
  curPos : Nat
  bitMask : BitVec n
  currentValue : Nat

def Accessor.new (bitmap : Option (SparseBitmap n)) : Accessor n := ⟨bitmap, 0, 1#n, 0⟩

/-- The loops that look for a set bit upwards: whether there is one, with the mask and the value
they end with. The mask has lost its bit after at most `n` turns. -/
def scanUp (top : Nat) (bits : BitVec n) : Nat → BitVec n → Nat → Bool × BitVec n × Nat
  | 0, mask, value => (false, mask, value)
  | fuel + 1, mask, value =>
    if mask = 0 then (false, mask, value)
    else if bits &&& mask ≠ 0 then (true, mask, value)
    else scanUp top bits fuel (mask <<< 1) ((value + 1) % top)

def scanDown (top : Nat) (bits : BitVec n) : Nat → BitVec n → Nat → Bool × BitVec n × Nat
  | 0, mask, value => (false, mask, value)
  | fuel + 1, mask, value =>
    if mask = 0 then (false, mask, value)
    else if bits &&& mask ≠ 0 then (true, mask, value)
    else scanDown top bits fuel (mask >>> 1) ((value + (top - 1)) % top)

def treeAccessor (b : SparseBitmap n) (curPos : Nat) : BePlusTree (Bucket n) :=
  ⟨b.tree.items, curPos⟩

/-- `BUNCH_ONE << (BUNCH_BITS - 1)` -/
def highBit (n : Nat) : BitVec n := 1#n <<< (n - 1)

namespace Accessor

def stop (acc : Accessor n) (r : Bool × BitVec n × Nat) : Bool × Accessor n :=
  (r.1, { acc with bitMask := r.2.1, currentValue := r.2.2 })

/-- The case `locLessEqual` of `locate`, the tree being on a bucket. -/
def lessEqual (top : Nat) (acc : Accessor n) (b : SparseBitmap n) (key : Nat) : Bool × Accessor n :=
  match (treeAccessor b acc.curPos).current with
  | none => (false, acc)
  | some bucket =>
    let r :=
      if bucket.startValue = aligned n key then
        scanDown top bucket.bits (n + 1) (Common.bitMask n key) key
      else scanDown top bucket.bits (n + 1) (highBit n) bucket.startValue
    if r.1 then acc.stop r
    else
      let acc := (acc.stop r).2
      let (found, tree) := (treeAccessor b acc.curPos).getPrev
      if !found then (false, acc)
      else
        match tree.current with
        | none => (false, acc)
        | some bucket =>
          { acc with curPos := tree.curPos }.stop
            (scanDown top bucket.bits (n + 1) (highBit n) ((bucket.startValue + n - 1) % top))

/-- The case `locGreatEqual` of `locate`, the tree being on a bucket. It has no end of its own. -/
def greatEqual (top : Nat) (acc : Accessor n) (b : SparseBitmap n) (key : Nat) :
    Bool × Accessor n :=
  match (treeAccessor b acc.curPos).current with
  | none => (false, acc)
  | some bucket =>
    let r :=
      if bucket.startValue = aligned n key then
        scanUp top bucket.bits (n + 1) (Common.bitMask n key) key
      else scanUp top bucket.bits (n + 1) 1#n bucket.startValue
    if r.1 then acc.stop r
    else
      let acc := (acc.stop r).2
      let (found, tree) := (treeAccessor b acc.curPos).getNext
      if !found then (false, acc)
      else
        match tree.current with
        | none => (false, acc)
        | some bucket =>
          let acc := { acc with curPos := tree.curPos }
          let r := scanUp top bucket.bits (n + 1) 1#n bucket.startValue
          if r.1 then acc.stop r else (acc.stop r).2.lessEqual top b key

/-- `locate` in a bitmap that is not singular, with `locLess` and `locGreat` transformed. -/
def locateBucket (top : Nat) (acc : Accessor n) (b : SparseBitmap n) (lt : LocType) (key : Nat) :
    Bool × Accessor n :=
  let (found, tree) := (treeAccessor b acc.curPos).locate Bucket.startValue lt (aligned n key)
  let acc := { acc with curPos := tree.curPos }
  if !found then (false, acc)
  else
    match lt with
    | .locEqual =>
      match tree.current with
      | none => (false, acc)
      | some bucket =>
        (bucket.bits &&& Common.bitMask n key ≠ 0,
          { acc with currentValue := key, bitMask := Common.bitMask n key })
    | .locGreatEqual => acc.greatEqual top b key
    | .locLessEqual => acc.lessEqual top b key
    | _ => (false, acc)

def locate (top : Nat) (acc : Accessor n) (lt : LocType) (key : Nat) : Bool × Accessor n :=
  match acc.bitmap with
  | none => (false, acc)
  | some b =>
    if b.singular then
      let acc := { acc with currentValue := b.singularValue }
      match lt with
      | .locEqual => (acc.currentValue = key, acc)
      | .locGreatEqual => (acc.currentValue ≥ key, acc)
      | .locLessEqual => (acc.currentValue ≤ key, acc)
      | .locLess => (acc.currentValue < key, acc)
      | .locGreat => (acc.currentValue > key, acc)
    else
      match lt with
      | .locLess =>
        if key = 0 then (false, acc) else acc.locateBucket top b .locLessEqual (key - 1)
      | .locGreat =>
        if key = top - 1 then (false, acc) else acc.locateBucket top b .locGreatEqual (key + 1)
      | lt => acc.locateBucket top b lt key

def getFirst (top : Nat) (acc : Accessor n) : Bool × Accessor n :=
  match acc.bitmap with
  | none => (false, acc)
  | some b =>
    if b.singular then (true, { acc with currentValue := b.singularValue })
    else
      let (found, tree) := (treeAccessor b acc.curPos).getFirst
      match found, tree.current with
      | true, some bucket =>
        { acc with curPos := tree.curPos }.stop
          (scanUp top bucket.bits (n + 1) 1#n bucket.startValue)
      | _, _ => (false, acc)

def getLast (top : Nat) (acc : Accessor n) : Bool × Accessor n :=
  match acc.bitmap with
  | none => (false, acc)
  | some b =>
    if b.singular then (true, { acc with currentValue := b.singularValue })
    else
      let (found, tree) := (treeAccessor b acc.curPos).getLast
      match found, tree.current with
      | true, some bucket =>
        { acc with curPos := tree.curPos }.stop
          (scanDown top bucket.bits (n + 1) (highBit n) ((bucket.startValue + n - 1) % top))
      | _, _ => (false, acc)

/-- `getNext`. A position is given up only for another one. -/
def getNext (top : Nat) (acc : Accessor n) : Bool × Accessor n :=
  match acc.bitmap with
  | none => (false, acc)
  | some b =>
    if b.singular then (false, acc)
    else
      match (treeAccessor b acc.curPos).current with
      | none => (false, acc)
      | some bucket =>
        let r := scanUp top bucket.bits (n + 1) (acc.bitMask <<< 1) ((acc.currentValue + 1) % top)
        if r.1 then acc.stop r
        else
          let (found, tree) := (treeAccessor b acc.curPos).getNext
          match found, tree.current with
          | true, some bucket =>
            let acc := { acc with curPos := tree.curPos }
            let r := scanUp top bucket.bits (n + 1) 1#n bucket.startValue
            if r.1 then acc.stop r else (false, acc)
          | _, _ => (false, acc)

/-- `getPrev`. The second loop goes on as long as `bit_mask` is set, not its own mask: it ends
because it finds a bit. -/
def getPrev (top : Nat) (acc : Accessor n) : Bool × Accessor n :=
  match acc.bitmap with
  | none => (false, acc)
  | some b =>
    if b.singular then (false, acc)
    else
      match (treeAccessor b acc.curPos).current with
      | none => (false, acc)
      | some bucket =>
        let r := scanDown top bucket.bits (n + 1) (acc.bitMask >>> 1)
          ((acc.currentValue + (top - 1)) % top)
        if r.1 then acc.stop r
        else
          let (found, tree) := (treeAccessor b acc.curPos).getPrev
          match found, tree.current with
          | true, some bucket =>
            let acc := { acc with curPos := tree.curPos }
            let r := scanDown top bucket.bits (n + 1) (highBit n)
              ((bucket.startValue + n - 1) % top)
            if r.1 then acc.stop r else (false, acc)
          | _, _ => (false, acc)

end Accessor

end Firebird.Common.SparseBitmap
