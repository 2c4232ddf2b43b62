import Firebird.Common.ClumpletWrite

/-!
# Editing a block

Insertions and deletions at the current clumplet, `deleteWithTag` and `reset` of `ClumpletWriter`,
with the array that holds the block. The array grows in the course of an insertion, and the pool may
refuse to give the memory.
-/
namespace Firebird.Common.Clumplet

open List

/-- What is thrown: an error of the clumplets, or `BadAlloc` from the pool. -/
inductive Thrown
  | error (e : Error)
  | badAlloc
  deriving DecidableEq

/-- A writer with the capacity of `dynamic_buffer`. -/
structure Held extends Writer where
  capacity : Nat

/-- The writer that is left, and what comes back or is thrown. -/
abbrev Outcome (α : Type) := Held × Except Thrown α

namespace Held

/-- `ensureCapacity`. The pool gives memory of the sizes for which `alloc` holds. -/
def ensureCapacity (alloc : Nat → Bool) (newCapacity : Nat) (h : Held) : Except Held Held :=
  if newCapacity > h.capacity then
    let newCapacity := if newCapacity < h.capacity * 2 then h.capacity * 2 else newCapacity
    if alloc newCapacity then .ok { h with capacity := newCapacity } else .error h
  else .ok h

/-- `dynamic_buffer.insert` -/
def arrayInsert (alloc : Nat → Bool) (offset : Nat) (bytes : List UInt8) (h : Held) :
    Except Held Held := do
  let h ← h.ensureCapacity alloc (h.buffer.length + bytes.length)
  .ok { h with buffer := Writer.insert h.buffer offset bytes }

/-- `dynamic_buffer.push`, for one byte after the other. -/
def pushAll (alloc : Nat → Bool) : List UInt8 → Held → Except Held Held
  | [], h => .ok h
  | b :: bytes, h => do
    let h ← h.ensureCapacity alloc (h.buffer.length + 1)
    pushAll alloc bytes { h with buffer := h.buffer ++ [b] }

/-- `dynamic_buffer.insert(cur_offset++, tag)`: the offset is counted up before the call. -/
def putTag (alloc : Nat → Bool) (tag : UInt8) (h : Held) : Except Held Held :=
  arrayInsert alloc h.curOffset [tag] { h with curOffset := h.curOffset + 1 }

def putLength (alloc : Nat → Bool) (lenSize length : Nat) (h : Held) : Except Held Held :=
  match lenSize with
  | 0 => .ok h
  | 1 => arrayInsert alloc h.curOffset (Writer.littleEndian 1 length)
      { h with curOffset := h.curOffset + 1 }
  | n => do
    let h ← h.arrayInsert alloc h.curOffset (Writer.littleEndian n length)
    .ok { h with curOffset := h.curOffset + n }

def putBytes (alloc : Nat → Bool) (bytes : List UInt8) (h : Held) : Except Held Held := do
  let h ← h.arrayInsert alloc h.curOffset bytes
  .ok { h with curOffset := h.curOffset + bytes.length }

def putClumplet (alloc : Nat → Bool) (tag : UInt8) (lenSize : Nat) (bytes : List UInt8) (h : Held) :
    Except Held Held := do
  let h ← h.putTag alloc tag
  let h ← h.putLength alloc lenSize bytes.length
  h.putBytes alloc bytes

/-- The checks of `insertBytesLengthCheck`, which give the size of the length. -/
def checkInsert (s : Space) (tag : UInt8) (bytes : List UInt8) (h : Held) : Except Error Nat :=
  if h.curOffset > h.buffer.length then .error (.usageMistake "write past EOF")
  else do
    let type ← getClumpletType h.kind h.spbState tag
    let lenSize ← Writer.checkLength bytes.length type
    if (h.buffer.length + bytes.length + lenSize + 1) % 2 ^ s.bits > h.sizeLimit then
      .error .sizeOverflow
    else .ok lenSize

def insertBytesLengthCheck (alloc : Nat → Bool) (s : Space) (tag : UInt8) (bytes : List UInt8)
    (h : Held) : Outcome Unit :=
  match h.checkInsert s tag bytes with
  | .error e => (h, .error (.error e))
  | .ok lenSize =>
    let savedOffset := h.curOffset
    match h.putClumplet alloc tag lenSize bytes with
    | .error h => (h, .error .badAlloc)
    | .ok h =>
      let newOffset := h.curOffset
      match Reader.adjustSpbState { h.toReader with curOffset := savedOffset } with
      | .error e => ({ h with curOffset := savedOffset }, .error (.error e))
      | .ok r => ({ h with spbState := r.spbState, curOffset := newOffset }, .ok ())

def deleteClumplet (s : Space) (h : Held) : Outcome Unit :=
  if h.curOffset ≥ h.buffer.length then (h, .error (.error (.usageMistake "write past EOF")))
  else if h.buffer.length - h.curOffset < 2 then
    ({ h with buffer := h.buffer.take h.curOffset }, .ok ())
  else
    match h.getClumpletSize s true true true with
    | .error e => (h, .error (.error e))
    | .ok n =>
      ({ h with buffer := h.buffer.take h.curOffset ++ h.buffer.drop (h.curOffset + n) }, .ok ())

end Held

/-- The loop of `find`; `none` is a loop that takes more rounds. -/
def Reader.findLoop (s : Space) (tag : UInt8) : Nat → Reader → Option (Reader × Except Error Bool)
  | 0, _ => none
  | n + 1, r =>
    if r.isEof then some (r, .ok false)
    else
      match r.getClumpTag with
      | .error e => some (r, .error e)
      | .ok t =>
        if tag = t then some (r, .ok true)
        else
          match r.moveNext s with
          | .error e => some (r, .error e)
          | .ok r => findLoop s tag n r

def Reader.find (s : Space) (tag : UInt8) (rounds : Nat) (r : Reader) :
    Option (Reader × Except Error Bool) :=
  match (r.rewind s).findLoop s tag rounds with
  | some (r', .ok false) => some ({ r' with curOffset := r.curOffset }, .ok false)
  | result => result

namespace Held

def deleteWithTagLoop (s : Space) (tag : UInt8) : Nat → Bool → Held → Option (Outcome Bool)
  | 0, _, _ => none
  | n + 1, rc, h =>
    match h.find s tag (h.buffer.length + 1) with
    | none => none
    | some (r, .error e) => some ({ h with toReader := r }, .error (.error e))
    | some (r, .ok false) => some ({ h with toReader := r }, .ok rc)
    | some (r, .ok true) =>
      match deleteClumplet s { h with toReader := r } with
      | (h, .error e) => some (h, .error e)
      | (h, .ok _) => deleteWithTagLoop s tag n true h

def deleteWithTag (s : Space) (tag : UInt8) (h : Held) : Option (Outcome Bool) :=
  deleteWithTagLoop s tag (h.buffer.length + 1) false h

end Held

def Reader.getBufferTag (r : Reader) : Except Error UInt8 :=
  match r.kind with
  | .tpb | .tagged | .wideTagged =>
    match r.buffer with
    | [] => .error (.invalidStructure "empty buffer")
    | tag :: _ => .ok tag
  | .spbStart | .unTagged | .wideUnTagged | .spbItems =>
    .error (.usageMistake "buffer is not tagged")
  | .spbAttach =>
    match r.buffer with
    | [] => .error (.invalidStructure "empty buffer")
    | version :: rest =>
      if version = iscSpbVersion1 then .ok version
      else if version = iscSpbVersion then
        match rest with
        | [] => .error (.invalidStructure "buffer too short (1 byte)")
        | tag :: _ => .ok tag
      else .error (.invalidStructure
        "spb in service attach should begin with isc_spb_version1 or isc_spb_version")

/-- `reset(NULL, 0)`. The kinds for which the buffer is asked for its tag are those that have
none. -/
def Held.reset (alloc : Nat → Bool) (s : Space) (h : Held) : Outcome Unit :=
  let h := { h with buffer := [] }
  match (if h.kind = .spbStart ∨ h.kind = .unTagged ∨ h.kind = .wideUnTagged then h.getBufferTag
    else .ok 0) with
  | .error e => (h, .error (.error e))
  | .ok tag =>
    match h.pushAll alloc (Writer.initNewBuffer h.kind tag) with
    | .error h => (h, .error .badAlloc)
    | .ok h => ({ h with toReader := h.rewind s }, .ok ())

structure Item where
  tag : UInt8
  data : List UInt8

namespace Item

def lenSize (kind : Kind) (i : Item) : Nat :=
  match getClumpletType kind 0 i.tag with
  | .ok .wide => 4
  | .ok .traditionalDpb => 1
  | .ok .stringSpb => 2
  | _ => 0

def encode (kind : Kind) (i : Item) : List UInt8 := written i.tag (i.lenSize kind) i.data

def Fits (kind : Kind) (i : Item) : Prop :=
  ∃ type, getClumpletType kind 0 i.tag = .ok type ∧
    Writer.checkLength i.data.length type = .ok (i.lenSize kind)

end Item

def encodeAll (kind : Kind) (items : List Item) : List UInt8 := items.flatMap (·.encode kind)

def IsHeader : Kind → List UInt8 → Prop
  | .tagged, hdr | .tpb, hdr | .wideTagged, hdr => ∃ tag, hdr = [tag]
  | .spbAttach, hdr => hdr = [iscSpbVersion1] ∨ ∃ tag, hdr = [iscSpbVersion, tag]
  | .unTagged, hdr | .wideUnTagged, hdr | .spbItems, hdr => hdr = []
  | .spbStart, _ => False

/-- The block has the clumplets `before ++ after`, and the current one is the first of `after`.
Behind the last clumplet the offset may also be past the end, as `insertEndMarker` leaves it. -/
structure Shows (r : Reader) (hdr : List UInt8) (before after : List Item) : Prop where
  header : IsHeader r.kind hdr
  buffer : r.buffer = hdr ++ encodeAll r.kind before ++ encodeAll r.kind after
  fits : ∀ i ∈ before ++ after, i.Fits r.kind
  offset : r.curOffset = (hdr ++ encodeAll r.kind before).length ∨
    after = [] ∧ r.buffer.length < r.curOffset

inductive Edit
  | insert (tag : UInt8) (bytes : List UInt8)
  | deleteClumplet
  | deleteWithTag (tag : UInt8)
  | reset
  deriving DecidableEq

def Unchanged (h h' : Held) : Prop := h'.buffer = h.buffer ∧ h'.curOffset = h.curOffset

/-- What is expected of an edit of the block `before ++ after`. -/
def Edit.Right (alloc : Nat → Bool) (s : Space) (h : Held) (hdr : List UInt8)
    (before after : List Item) : Edit → Prop
  | insert tag bytes =>
    match h.insertBytesLengthCheck alloc s tag bytes with
    | (h', .error _) => Unchanged h h'
    | (h', .ok _) => Shows h'.toReader hdr (before ++ [⟨tag, bytes⟩]) after ∧
        h'.curOffset ≤ h'.buffer.length
  | deleteClumplet =>
    match h.deleteClumplet s with
    | (h', .error _) => Unchanged h h'
    | (h', .ok _) => after ≠ [] ∧ Shows h'.toReader hdr before after.tail
  | deleteWithTag tag =>
    match h.deleteWithTag s tag with
    | none => False
    | some (h', .error _) => Unchanged h h'
    | some (h', .ok found) =>
      (∃ before' after', Shows h'.toReader hdr before' after' ∧
        before' ++ after' = (before ++ after).filter fun i => i.tag ≠ tag) ∧
      (found = true ↔ ∃ i ∈ before ++ after, i.tag = tag)
  | reset =>
    match h.reset alloc s with
    | (_, .error _) => False
    | (h', .ok _) => Shows h'.toReader hdr [] [] ∧ h'.curOffset = h'.buffer.length

/-- The capacity after `ensureCapacity`. -/
def grown (alloc : Nat → Bool) (capacity n : Nat) : Option Nat :=
  if n > capacity then
    let c := if n < capacity * 2 then capacity * 2 else n
    if alloc c then some c else none
  else some capacity

def Grows (alloc : Nat → Bool) : Nat → List Nat → Prop
  | _, [] => True
  | capacity, n :: ns => ∃ c, grown alloc capacity n = some c ∧ Grows alloc c ns

def Edit.Condition (alloc : Nat → Bool) (s : Space) (h : Held) : Edit → Prop
  | insert tag bytes => ∀ lenSize, h.checkInsert s tag bytes = .ok lenSize →
      let n := h.buffer.length + 1
      Grows alloc h.capacity [n, n + lenSize, n + lenSize + bytes.length]
  | deleteClumplet | deleteWithTag _ => True
  | reset => h.kind = .spbItems ∨ h.getBufferTag = .ok 0

/-! ## Insertion -/

variable {s : Space} {kind : Kind} {tag : UInt8} {bytes hdr : List UInt8} {type : ClumpletType}
variable {lenSize : Nat} {r r' : Reader} {alloc : Nat → Bool} {h h' : Held}
variable {before after : List Item}

theorem ensureCapacity_eq (alloc : Nat → Bool) (n : Nat) (h : Held) :
    h.ensureCapacity alloc n =
      match grown alloc h.capacity n with
      | some c => .ok { h with capacity := c }
      | none => .error h := by
  unfold Held.ensureCapacity grown
  by_cases hn : n > h.capacity
  · rw [if_pos hn, if_pos hn]
    by_cases ha : alloc (if n < h.capacity * 2 then h.capacity * 2 else n)
    · rw [if_pos ha, if_pos ha]
    · rw [if_neg ha, if_neg ha]
  · rw [if_neg hn, if_neg hn]

theorem le_of_grown {capacity n c : Nat} (hc : grown alloc capacity n = some c) : n ≤ c := by
  unfold grown at hc
  dsimp only at hc
  split_ifs at hc <;> cases hc <;> omega

theorem grown_of_le {capacity n : Nat} (hle : n ≤ capacity) :
    grown alloc capacity n = some capacity :=
  if_neg (by omega)

theorem arrayInsert_eq (alloc : Nat → Bool) (offset : Nat) (bytes : List UInt8) (h : Held) :
    h.arrayInsert alloc offset bytes =
      match grown alloc h.capacity (h.buffer.length + bytes.length) with
      | some c => .ok { h with capacity := c, buffer := Writer.insert h.buffer offset bytes }
      | none => .error h := by
  unfold Held.arrayInsert
  rw [ensureCapacity_eq]
  cases grown alloc h.capacity (h.buffer.length + bytes.length) <;> rfl

theorem putLength_eq (alloc : Nat → Bool) (lenSize length : Nat) (h : Held)
    (hcap : h.buffer.length ≤ h.capacity) :
    match grown alloc h.capacity (h.buffer.length + lenSize) with
    | some c => h.putLength alloc lenSize length = .ok { h with
        capacity := c
        curOffset := h.curOffset + lenSize
        buffer := Writer.insert h.buffer h.curOffset (Writer.littleEndian lenSize length) }
    | none => ∃ h', h.putLength alloc lenSize length = .error h' ∧ h'.buffer = h.buffer := by
  match lenSize with
  | 0 =>
    rw [Nat.add_zero, grown_of_le hcap]
    simp [Held.putLength, Writer.littleEndian, Writer.insert]
  | 1 =>
    rw [Held.putLength, arrayInsert_eq, length_littleEndian]
    cases grown alloc h.capacity (h.buffer.length + 1) with
    | some c => rfl
    | none => exact ⟨_, rfl, rfl⟩
  | n + 2 =>
    rw [Held.putLength, arrayInsert_eq, length_littleEndian]
    · cases grown alloc h.capacity (h.buffer.length + (n + 2)) with
      | some c => rfl
      | none => exact ⟨_, rfl, rfl⟩
    · omega
    · omega

theorem insert_at (pre post bytes : List UInt8) :
    Writer.insert (pre ++ post) pre.length bytes = pre ++ bytes ++ post := by
  rw [Writer.insert, take_left, drop_left]

theorem length_insert (buffer bytes : List UInt8) (offset : Nat) :
    (Writer.insert buffer offset bytes).length = buffer.length + bytes.length := by
  rw [Writer.insert, length_append, length_append, length_take, length_drop]
  omega

/-- Either the array can grow as it has to, and the clumplet is in the block and the offset behind
it, or something has changed when the memory runs out. -/
theorem putClumplet_spec (alloc : Nat → Bool) (tag : UInt8) (lenSize : Nat) (bytes : List UInt8)
    (h : Held) {pre post : List UInt8}
    (hbuffer : h.buffer = pre ++ post) (hoffset : h.curOffset = pre.length) :
    let n := h.buffer.length + 1
    (Grows alloc h.capacity [n, n + lenSize, n + lenSize + bytes.length] →
      ∃ c, h.putClumplet alloc tag lenSize bytes = .ok { h with
        capacity := c
        buffer := pre ++ written tag lenSize bytes ++ post
        curOffset := pre.length + (1 + lenSize + bytes.length) }) ∧
    (¬Grows alloc h.capacity [n, n + lenSize, n + lenSize + bytes.length] →
      ∃ h', h.putClumplet alloc tag lenSize bytes = .error h' ∧ ¬Unchanged h h') := by
  intro n
  have htag : h.putTag alloc tag = match grown alloc h.capacity n with
      | some c => .ok { h with
          capacity := c, curOffset := pre.length + 1, buffer := pre ++ [tag] ++ post }
      | none => .error { h with curOffset := pre.length + 1 } := by
    have hins : Writer.insert h.buffer pre.length [tag] = pre ++ [tag] ++ post := by
      rw [hbuffer, insert_at]
    simp only [Held.putTag, arrayInsert_eq, hins, hoffset]
    rfl
  unfold Held.putClumplet
  rw [htag]
  cases hc₁ : grown alloc h.capacity n with
  | none =>
    refine ⟨?_, fun _ => ⟨_, rfl, fun hsame => ?_⟩⟩
    · rintro ⟨c, hc, -⟩
      rw [hc₁] at hc
      cases hc
    · have := hsame.2
      dsimp only at this
      omega
  | some c₁ =>
    -- the tag is in
    set h₁ : Held := { h with
      capacity := c₁, curOffset := pre.length + 1, buffer := pre ++ [tag] ++ post } with hh₁
    have hlen₁ : h₁.buffer.length = n := by
      simp only [hh₁, n, hbuffer, length_append, length_singleton]
      omega
    have hpre₁ : h₁.curOffset = (pre ++ [tag]).length := by simp [hh₁]
    have hput := putLength_eq alloc lenSize bytes.length h₁ (hlen₁ ▸ le_of_grown hc₁)
    rw [hlen₁] at hput
    simp only [bind, Except.bind]
    have hmore : ∀ {h' : Held}, n ≤ h'.buffer.length → ¬Unchanged h h' := by
      rintro h' hle ⟨hsame, -⟩
      have := congrArg List.length hsame
      omega
    cases hc₂ : grown alloc c₁ (n + lenSize) with
    | none =>
      have hc₂' : grown alloc h₁.capacity (n + lenSize) = none := hc₂
      rw [hc₂'] at hput
      obtain ⟨h', hput, hsame⟩ := hput
      rw [hput]
      refine ⟨?_, fun _ => ⟨h', rfl, hmore ?_⟩⟩
      · rintro ⟨c, hc, c', hc', -⟩
        rw [hc₁] at hc
        cases hc
        rw [hc₂] at hc'
        cases hc'
      · rw [hsame, hlen₁]
    | some c₂ =>
      have hc₂' : grown alloc h₁.capacity (n + lenSize) = some c₂ := hc₂
      rw [hc₂'] at hput
      rw [hput]
      -- the length is in, too
      set len := Writer.littleEndian lenSize bytes.length with hlen
      have hlenlen : len.length = lenSize := length_littleEndian _ _
      have hbuf₂ : Writer.insert h₁.buffer h₁.curOffset len = pre ++ [tag] ++ len ++ post := by
        rw [hpre₁]
        exact insert_at (pre ++ [tag]) post len
      have hlen₂ : (pre ++ [tag] ++ len ++ post).length = n + lenSize := by
        rw [← hbuf₂, length_insert, hlen₁, hlenlen]
      have hpre₂ : h₁.curOffset + lenSize = (pre ++ [tag] ++ len).length := by
        rw [hpre₁, ← hlenlen, ← length_append]
      simp only [Held.putBytes, arrayInsert_eq, hbuf₂, hlen₂, hpre₂]
      cases hc₃ : grown alloc c₂ (n + lenSize + bytes.length) with
      | none =>
        refine ⟨?_, fun _ => ⟨_, rfl, hmore ?_⟩⟩
        · rintro ⟨c, hc, c', hc', c'', hc'', -⟩
          rw [hc₁] at hc
          cases hc
          rw [hc₂] at hc'
          cases hc'
          rw [hc₃] at hc''
          cases hc''
        · have hle : n ≤ (pre ++ [tag] ++ len ++ post).length := by
            rw [hlen₂]
            exact Nat.le_add_right _ _
          exact hle
      | some c₃ =>
        refine ⟨fun _ => ⟨c₃, ?_⟩, fun hno => absurd ?_ hno⟩
        · simp only [bind, Except.bind, insert_at]
          have hwritten : pre ++ written tag lenSize bytes ++ post =
              pre ++ [tag] ++ len ++ bytes ++ post := by
            simp [written, hlen]
          rw [hwritten]
          simp only [length_append, length_singleton, hlenlen]
          have hsum : pre.length + 1 + lenSize + bytes.length =
              pre.length + (1 + lenSize + bytes.length) := by omega
          rw [hsum]
        · exact ⟨c₁, hc₁, c₂, hc₂, c₃, hc₃, trivial⟩

theorem kind_ne_of_header {kind : Kind} (hheader : IsHeader kind hdr) : kind ≠ .spbStart := by
  rintro rfl
  exact hheader

theorem getClumpletType_eq (hkind : kind ≠ .spbStart) (spbState tag : UInt8) :
    getClumpletType kind spbState tag = getClumpletType kind 0 tag := by
  cases kind with
  | spbStart => exact absurd rfl hkind
  | _ => rfl

theorem adjustSpbState_of_ne (hkind : r.kind ≠ .spbStart) : r.adjustSpbState = .ok r := by
  rw [Reader.adjustSpbState, if_neg fun hc => hkind hc.1]

theorem lenSize_eq (htype : getClumpletType kind 0 tag = .ok type)
    (hlen : Writer.checkLength bytes.length type = .ok lenSize) :
    Item.lenSize kind ⟨tag, bytes⟩ = lenSize := by
  rw [Item.lenSize, htype]
  rcases checkLength_lenSize hlen with ⟨rfl, rfl, -⟩ | ⟨rfl, rfl, -⟩ | ⟨rfl, rfl, -⟩ |
    ⟨rfl, rfl, -⟩ | ⟨rfl, rfl, -⟩ | ⟨rfl, rfl, -⟩ <;> rfl

theorem checkInsert_spec (hkind : h.kind ≠ .spbStart) (hcheck : h.checkInsert s tag bytes =
    .ok lenSize) : h.curOffset ≤ h.buffer.length ∧ Item.lenSize h.kind ⟨tag, bytes⟩ = lenSize ∧
      Item.Fits h.kind ⟨tag, bytes⟩ := by
  unfold Held.checkInsert at hcheck
  split at hcheck
  · cases hcheck
  · next hle =>
    rw [getClumpletType_eq hkind] at hcheck
    cases htype : getClumpletType h.kind 0 tag with
    | error e =>
      simp only [htype] at hcheck
      cases hcheck
    | ok type =>
      cases hlen : Writer.checkLength bytes.length type with
      | error e =>
        simp only [htype, hlen, bind, Except.bind] at hcheck
        cases hcheck
      | ok n =>
        simp only [htype, hlen, bind, Except.bind] at hcheck
        split_ifs at hcheck
        cases hcheck
        have hsize := lenSize_eq htype hlen
        exact ⟨by omega, hsize, type, htype, by rw [hsize]; exact hlen⟩

theorem encodeAll_append (kind : Kind) (xs ys : List Item) :
    encodeAll kind (xs ++ ys) = encodeAll kind xs ++ encodeAll kind ys :=
  flatMap_append

theorem encodeAll_singleton (kind : Kind) (i : Item) : encodeAll kind [i] = i.encode kind :=
  flatMap_singleton _ _

theorem insert_right_iff (hshow : Shows h.toReader hdr before after) (tag : UInt8)
    (bytes : List UInt8) :
    (Edit.insert tag bytes).Right alloc s h hdr before after ↔
      (Edit.insert tag bytes).Condition alloc s h := by
  have hkind := kind_ne_of_header hshow.header
  unfold Edit.Right Edit.Condition Held.insertBytesLengthCheck
  dsimp only
  cases hcheck : h.checkInsert s tag bytes with
  | error e =>
    refine iff_of_true ⟨rfl, rfl⟩ fun lenSize hok => ?_
    cases hok
  | ok lenSize =>
    obtain ⟨hle, hsize, hfits⟩ := checkInsert_spec hkind hcheck
    have hoffset : h.curOffset = (hdr ++ encodeAll h.kind before).length :=
      hshow.offset.resolve_right fun hpast => absurd hpast.2 (by omega)
    obtain ⟨hyes, hno⟩ := putClumplet_spec alloc tag lenSize bytes h hshow.buffer hoffset
    dsimp only
    by_cases hgrows : Grows alloc h.capacity [h.buffer.length + 1, h.buffer.length + 1 + lenSize,
        h.buffer.length + 1 + lenSize + bytes.length]
    · obtain ⟨c, hput⟩ := hyes hgrows
      refine iff_of_true ?_ fun n hn => (Except.ok.inj hn) ▸ hgrows
      rw [hput]
      dsimp only
      have hadjust : Reader.adjustSpbState ⟨h.kind, hdr ++ encodeAll h.kind before ++
          written tag lenSize bytes ++ encodeAll h.kind after, h.curOffset, h.spbState⟩ = .ok _ :=
        adjustSpbState_of_ne hkind
      rw [hadjust]
      have hencode : written tag lenSize bytes = encodeAll h.kind [⟨tag, bytes⟩] := by
        rw [encodeAll_singleton, Item.encode, hsize]
      refine ⟨⟨hshow.header, ?_, ?_, .inl ?_⟩, ?_⟩
      · simp [encodeAll_append, hencode]
      · intro i hi
        rw [append_assoc, mem_append, mem_append, mem_singleton] at hi
        rcases hi with hi | rfl | hi
        · exact hshow.fits i (mem_append_left _ hi)
        · exact hfits
        · exact hshow.fits i (mem_append_right _ hi)
      · simp only [encodeAll_append, ← hencode, length_append, length_written]
        omega
      · simp only [length_append, length_written]
        omega
    · obtain ⟨h', hput, hchanged⟩ := hno hgrows
      rw [hput]
      exact iff_of_false hchanged fun hall => hgrows (hall lenSize rfl)

theorem Shows.at {i : Item} (hshow : Shows r hdr before (i :: after)) :
    ∃ type, At r i.tag i.data type (i.lenSize r.kind) := by
  obtain ⟨type, htype, hlen⟩ := hshow.fits i (by simp)
  refine ⟨type, ⟨hdr ++ encodeAll r.kind before, encodeAll r.kind after, ?_, ?_⟩, ?_, hlen⟩
  · rw [hshow.buffer]
    rfl
  · exact hshow.offset.resolve_right fun hpast => cons_ne_nil _ _ hpast.1
  · rw [getClumpletType_eq (kind_ne_of_header hshow.header)]
    exact htype

theorem Shows.started (hshow : Shows r hdr before after)
    (hoffset : r.curOffset = (hdr ++ encodeAll r.kind before).length) :
    Started r.kind r.curOffset := by
  have hheader := hshow.header
  rw [hoffset, length_append]
  refine Started.add ?_ _
  cases hkind : r.kind with
  | unTagged | wideUnTagged | spbItems => simp [Started]
  | spbStart => exact absurd hkind (kind_ne_of_header hheader)
  | tagged | tpb | wideTagged =>
    rw [hkind] at hheader
    obtain ⟨t, rfl⟩ := hheader
    simp [Started]
  | spbAttach =>
    rw [hkind] at hheader
    rcases hheader with rfl | ⟨t, rfl⟩ <;> simp [Started]

theorem Shows.isEof (hshow : Shows r hdr before ([] : List Item)) : r.isEof = true := by
  have hle := Reader.getBufferLength_le (r := r)
  have hbuffer := congrArg List.length hshow.buffer
  have hoffset := hshow.offset
  simp only [encodeAll, flatMap_nil, append_nil] at hbuffer hoffset
  refine decide_eq_true (?_ : r.curOffset ≥ r.getBufferLength)
  rcases hoffset with hoffset | hoffset <;> omega

theorem Shows.moveNext {i : Item} (hshow : Shows r hdr before (i :: after))
    (hs : s.Holds r.buffer.length) :
    r.isEof = false ∧ r.getClumpTag = .ok i.tag ∧
      ∃ r', r.moveNext s = .ok r' ∧ r'.buffer = r.buffer ∧ r'.kind = r.kind ∧
        Shows r' hdr (before ++ [i]) after := by
  obtain ⟨type, hat⟩ := hshow.at
  have hoffset := hshow.offset.resolve_right fun hpast => cons_ne_nil _ _ hpast.1
  have hin := hat.inside
  have heof := isEof_eq_false (hshow.started hoffset) (by omega)
  refine ⟨heof, hat.getClumpTag_eq, _, hat.moveNext_eq hs heof, rfl, rfl, hshow.header, ?_, ?_,
    .inl ?_⟩
  · simp only [hshow.buffer, encodeAll_append, encodeAll_singleton, append_assoc]
    rfl
  · intro j hj
    exact hshow.fits j (by simpa using hj)
  · simp only [hoffset, encodeAll_append, encodeAll_singleton, Item.encode, length_append,
      length_written]
    omega

theorem holds_of_le {n m : Nat} (hs : s.Holds n) (hle : m ≤ n) : s.Holds m :=
  ⟨hs.bits, by have := hs.fits; omega, fun hnull => by have := hs.null hnull; omega⟩

theorem deleteClumplet_eq {i : Item} (hs : s.Holds h.buffer.length)
    (hshow : Shows h.toReader hdr before (i :: after)) :
    ∃ h', h.deleteClumplet s = (h', .ok ()) ∧ Shows h'.toReader hdr before after ∧
      h'.buffer.length ≤ h.buffer.length := by
  obtain ⟨type, hat⟩ := hshow.at
  have hoffset := hshow.offset.resolve_right fun hpast => cons_ne_nil _ _ hpast.1
  set pre := hdr ++ encodeAll h.kind before with hpre
  have hbuffer : h.buffer = pre ++ i.encode h.kind ++ encodeAll h.kind after := by
    rw [append_assoc]
    exact hshow.buffer
  have hsize : (i.encode h.kind).length = 1 + i.lenSize h.kind + i.data.length := length_written
  have hlen := congrArg List.length hbuffer
  rw [length_append, length_append, hsize] at hlen
  have hrest : Shows { h.toReader with buffer := pre ++ encodeAll h.kind after } hdr before after :=
    ⟨hshow.header, rfl, fun j hj => hshow.fits j (by
      rcases mem_append.mp hj with hj | hj
      · exact mem_append_left _ hj
      · exact mem_append_right _ (mem_cons_of_mem _ hj)), .inl hoffset⟩
  have htake : h.buffer.take h.curOffset = pre := by
    rw [hbuffer, hoffset, append_assoc, take_left]
  unfold Held.deleteClumplet
  rw [if_neg (by omega)]
  split
  · -- one byte is left, and that is the clumplet
    have hnil : encodeAll h.kind after = [] := eq_nil_of_length_eq_zero (by omega)
    rw [hnil, append_nil] at hrest
    refine ⟨_, rfl, ?_, ?_⟩
    · simp only [htake]
      exact hrest
    · simp only [htake]
      omega
  · have hdrop : h.buffer.drop (h.curOffset + (1 + i.lenSize h.kind + i.data.length)) =
        encodeAll h.kind after := by
      rw [hbuffer, hoffset, ← hsize, ← length_append, drop_left]
    rw [hat.getClumpletSize_eq hs]
    simp only [if_true, htake, hdrop]
    refine ⟨_, rfl, hrest, ?_⟩
    simp only [length_append]
    omega

theorem deleteClumplet_right (hs : s.Holds h.buffer.length)
    (hshow : Shows h.toReader hdr before after) :
    Edit.deleteClumplet.Right alloc s h hdr before after := by
  unfold Edit.Right
  cases after with
  | nil =>
    have hend : h.curOffset ≥ h.buffer.length := by
      have hbuffer := congrArg List.length hshow.buffer
      have hoffset := hshow.offset
      simp only [encodeAll, flatMap_nil, append_nil] at hbuffer hoffset
      rcases hoffset with hoffset | hoffset <;> omega
    rw [Held.deleteClumplet, if_pos hend]
    exact ⟨rfl, rfl⟩
  | cons i after =>
    obtain ⟨h', hdelete, hshow', -⟩ := deleteClumplet_eq hs hshow
    rw [hdelete]
    exact ⟨cons_ne_nil _ _, hshow'⟩

theorem findLoop_spec {n : Nat} (hs : s.Holds r.buffer.length)
    (hshow : Shows r hdr before after) (hn : after.length < n) :
    ∃ r', r'.buffer = r.buffer ∧ r'.kind = r.kind ∧
      ((r.findLoop s tag n = some (r', .ok false) ∧ ∀ i ∈ after, i.tag ≠ tag) ∨
        ∃ pre i post, after = pre ++ i :: post ∧ i.tag = tag ∧
          r.findLoop s tag n = some (r', .ok true) ∧ Shows r' hdr (before ++ pre) (i :: post)) := by
  induction after generalizing r before n with
  | nil =>
    obtain ⟨n, rfl⟩ : ∃ m, n = m + 1 := ⟨n - 1, by simp only [length_nil] at hn; omega⟩
    refine ⟨r, rfl, rfl, .inl ⟨?_, by simp⟩⟩
    rw [Reader.findLoop, if_pos hshow.isEof]
  | cons i after ih =>
    rw [length_cons] at hn
    obtain ⟨n, rfl⟩ : ∃ m, n = m + 1 := ⟨n - 1, by omega⟩
    obtain ⟨heof, hget, r₁, hnext, hsame, hkind, hshow₁⟩ := hshow.moveNext hs
    by_cases htag : tag = i.tag
    · refine ⟨r, rfl, rfl, .inr ⟨[], i, after, rfl, htag.symm, ?_, by simpa using hshow⟩⟩
      rw [Reader.findLoop, if_neg (by simp [heof]), hget]
      simp [if_pos htag]
    · have hstep : r.findLoop s tag (n + 1) = r₁.findLoop s tag n := by
        rw [Reader.findLoop, if_neg (by simp [heof]), hget]
        simp [if_neg htag, hnext]
      obtain ⟨r', hbuffer, hkind', hcases⟩ := ih (hsame ▸ hs) hshow₁ (by omega : after.length < n)
      refine ⟨r', hbuffer.trans hsame, hkind'.trans hkind, ?_⟩
      rw [hstep]
      rcases hcases with ⟨hfind, hall⟩ | ⟨pre, j, post, rfl, hj, hfind, hshow'⟩
      · refine .inl ⟨hfind, fun j hj => ?_⟩
        rcases mem_cons.mp hj with rfl | hj
        · exact fun e => htag e.symm
        · exact hall j hj
      · exact .inr ⟨i :: pre, j, post, rfl, hj, hfind, by simpa using hshow'⟩

theorem Shows.rewind (haddress : 0 < s.address) (hshow : Shows r hdr before after) :
    (r.rewind s).buffer = r.buffer ∧ (r.rewind s).kind = r.kind ∧
      Shows (r.rewind s) hdr [] (before ++ after) := by
  have hrest : ∀ r' : Reader, r'.buffer = r.buffer → r'.kind = r.kind →
      r'.curOffset = hdr.length → Shows r' hdr [] (before ++ after) := by
    intro r' hbuffer hkind hoffset
    refine ⟨hkind ▸ hshow.header, ?_, fun i hi => hkind ▸ hshow.fits i hi, .inl ?_⟩
    · rw [hbuffer, hkind, hshow.buffer, encodeAll_append]
      simp [encodeAll]
    · simpa [encodeAll] using hoffset
  have hrewind : r.rewind s = { r with curOffset := hdr.length, spbState := 0 } := by
    have hheader := hshow.header
    have hne : s.address ≠ 0 := by omega
    have hbuffer := hshow.buffer
    have hversion : iscSpbVersion ≠ iscSpbVersion1 := by decide
    cases hkind : r.kind with
    | unTagged | wideUnTagged | spbItems =>
      rw [hkind] at hheader
      obtain rfl : hdr = [] := hheader
      simp [Reader.rewind, hkind]
    | spbStart => exact absurd hkind (kind_ne_of_header hheader)
    | tagged | tpb | wideTagged =>
      rw [hkind] at hheader
      obtain ⟨t, rfl⟩ := hheader
      simp [Reader.rewind, hne, hkind]
    | spbAttach =>
      rw [hkind] at hheader
      rcases hheader with rfl | ⟨t, rfl⟩
      · simp [Reader.rewind, hne, hkind, hbuffer]
      · simp [Reader.rewind, hne, hkind, hbuffer, Reader.getBufferLength, hversion]
  rw [hrewind]
  exact ⟨rfl, rfl, hrest _ rfl rfl rfl⟩

theorem Shows.length_le (hshow : Shows r hdr before after) :
    (before ++ after).length ≤ r.buffer.length := by
  have hpos : ∀ items : List Item, items.length ≤ (encodeAll r.kind items).length := by
    intro items
    induction items with
    | nil => exact Nat.zero_le _
    | cons i items ih =>
      have hcons : encodeAll r.kind (i :: items) = i.encode r.kind ++ encodeAll r.kind items := rfl
      rw [hcons, length_append, length_cons, Item.encode, length_written]
      omega
  have hlen := hpos (before ++ after)
  rw [hshow.buffer, append_assoc, ← encodeAll_append]
  simp only [length_append] at hlen ⊢
  omega

theorem find_spec (tag : UInt8) (haddress : 0 < s.address) (hs : s.Holds r.buffer.length)
    (hshow : Shows r hdr before after) :
    ∃ r', r'.buffer = r.buffer ∧ r'.kind = r.kind ∧
      ((r.find s tag (r.buffer.length + 1) = some (r', .ok false) ∧ Shows r' hdr before after ∧
          ∀ i ∈ before ++ after, i.tag ≠ tag) ∨
        ∃ pre i post, before ++ after = pre ++ i :: post ∧ i.tag = tag ∧
          r.find s tag (r.buffer.length + 1) = some (r', .ok true) ∧
            Shows r' hdr pre (i :: post)) := by
  obtain ⟨hbuffer, hkind, hstart⟩ := hshow.rewind haddress
  have hrounds := Nat.lt_succ_of_le hshow.length_le
  obtain ⟨r', hsame, hkind', hcases⟩ := findLoop_spec (hbuffer.symm ▸ hs) hstart hrounds
  unfold Reader.find
  rcases hcases with ⟨hfind, hall⟩ | ⟨pre, i, post, hsplit, htag, hfind, hshow'⟩
  · refine ⟨{ r' with curOffset := r.curOffset }, hsame.trans hbuffer, hkind'.trans hkind,
      .inl ⟨by rw [hfind], ?_, hall⟩⟩
    have hk : r'.kind = r.kind := hkind'.trans hkind
    have hb : r'.buffer = r.buffer := hsame.trans hbuffer
    refine ⟨hk ▸ hshow.header, ?_, fun i hi => hk ▸ hshow.fits i hi, ?_⟩
    · simp only [hk, hb]
      exact hshow.buffer
    · simp only [hk, hb]
      exact hshow.offset
  · exact ⟨r', hsame.trans hbuffer, hkind'.trans hkind,
      .inr ⟨pre, i, post, hsplit, htag, by rw [hfind], hshow'⟩⟩

theorem deleteWithTagLoop_spec {n : Nat} (tag : UInt8) (rc : Bool) (haddress : 0 < s.address)
    (hs : s.Holds h.buffer.length) (hshow : Shows h.toReader hdr before after)
    (hn : (before ++ after).length < n) :
    ∃ h' found, h.deleteWithTagLoop s tag n rc = some (h', .ok found) ∧
      (∃ before' after', Shows h'.toReader hdr before' after' ∧
        before' ++ after' = (before ++ after).filter fun i => i.tag ≠ tag) ∧
      (found = true ↔ rc = true ∨ ∃ i ∈ before ++ after, i.tag = tag) := by
  induction n generalizing h before after rc with
  | zero => omega
  | succ n ih =>
    obtain ⟨r', hbuffer, hkind, hcases⟩ := find_spec tag haddress hs hshow
    unfold Held.deleteWithTagLoop
    rcases hcases with ⟨hfind, hshow', hall⟩ | ⟨pre, i, post, hsplit, htag, hfind, hshow'⟩
    · rw [hfind]
      refine ⟨_, rc, rfl, ⟨before, after, hshow', ?_⟩, ?_⟩
      · exact (filter_eq_self.mpr fun i hi => by simpa using hall i hi).symm
      · simp only [iff_self_or]
        rintro ⟨i, hi, htag⟩
        exact absurd htag (hall i hi)
    · rw [hfind]
      have hs' : s.Holds ({ h with toReader := r' } : Held).buffer.length := hbuffer.symm ▸ hs
      obtain ⟨h', hdelete, hshow'', hle⟩ := deleteClumplet_eq hs' hshow'
      have hn' : (pre ++ post).length < n := by
        have := congrArg List.length hsplit
        simp only [length_append, length_cons] at this hn ⊢
        omega
      obtain ⟨h'', found, hloop, hrest, hfound⟩ := ih true (holds_of_le hs' hle) hshow'' hn'
      refine ⟨h'', found, ?_, ?_, ?_⟩
      · simp only [hdelete]
        exact hloop
      · have hfilter : (before ++ after).filter (fun i => i.tag ≠ tag) =
            (pre ++ post).filter fun i => i.tag ≠ tag := by
          rw [hsplit, filter_append, filter_cons_of_neg (by simp [htag]), ← filter_append]
        rw [hfilter]
        exact hrest
      · refine iff_of_true (hfound.mpr (.inl rfl)) (.inr ⟨i, ?_, htag⟩)
        rw [hsplit]
        simp

theorem deleteWithTag_right (haddress : 0 < s.address) (hs : s.Holds h.buffer.length)
    (hshow : Shows h.toReader hdr before after) (tag : UInt8) :
    (Edit.deleteWithTag tag).Right alloc s h hdr before after := by
  obtain ⟨h', found, hloop, hrest, hfound⟩ :=
    deleteWithTagLoop_spec tag false haddress hs hshow (Nat.lt_succ_of_le hshow.length_le)
  unfold Edit.Right Held.deleteWithTag
  dsimp only
  rw [hloop]
  exact ⟨hrest, hfound.trans (or_iff_right Bool.false_ne_true)⟩

theorem pushAll_eq (alloc : Nat → Bool) (bytes : List UInt8) (h : Held)
    (hle : h.buffer.length + bytes.length ≤ h.capacity) :
    h.pushAll alloc bytes = .ok { h with buffer := h.buffer ++ bytes } := by
  induction bytes generalizing h with
  | nil => simp [Held.pushAll]
  | cons b bytes ih =>
    rw [length_cons] at hle
    have hcap : h.ensureCapacity alloc (h.buffer.length + 1) = .ok h := if_neg (by omega)
    rw [Held.pushAll, hcap]
    simp only [bind, Except.bind]
    rw [ih _ (by simp only [length_append, length_singleton]; omega)]
    simp

/-- A reset goes right in a block that has no tag and is not one of the kinds that are asked for it,
and in a block whose tag is 0 anyway. -/
theorem reset_right_iff (haddress : 0 < s.address) (hcap : 128 ≤ h.capacity)
    (hshow : Shows h.toReader hdr before after) :
    Edit.reset.Right alloc s h hdr before after ↔ Edit.reset.Condition alloc s h := by
  have hheader := hshow.header
  have hbuffer := hshow.buffer
  unfold Edit.Right Edit.Condition Held.reset
  dsimp only
  by_cases hasked : h.kind = .spbStart ∨ h.kind = .unTagged ∨ h.kind = .wideUnTagged
  · rw [if_pos hasked]
    have herror : ∀ r : Reader, r.kind = h.kind →
        r.getBufferTag = .error (.usageMistake "buffer is not tagged") := by
      intro r hr
      unfold Reader.getBufferTag
      rcases hasked with hk | hk | hk <;> rw [hr, hk]
    rw [herror ⟨h.kind, [], h.curOffset, h.spbState⟩ rfl, herror _ rfl]
    refine iff_of_false id ?_
    rintro (hk | hk)
    · rw [hk] at hasked
      revert hasked
      decide
    · cases hk
  rw [if_neg hasked]
  dsimp only
  have hlen : (Writer.initNewBuffer h.kind 0).length ≤ 128 := by
    cases h.kind <;> decide
  rw [pushAll_eq alloc _ _ (by simp only [length_nil]; omega)]
  simp only [nil_append]
  have hrewind := @rewind_append s h.kind 0 haddress h.curOffset h.spbState []
  rw [append_nil] at hrewind
  rw [hrewind]
  -- what matters is that the block starts as it did before
  have hshows : Shows ⟨h.kind, Writer.initNewBuffer h.kind 0,
      (Writer.initNewBuffer h.kind 0).length, 0⟩ hdr [] [] ↔
        Writer.initNewBuffer h.kind 0 = hdr := by
    refine ⟨fun hs => ?_, fun e => ?_⟩
    · have := hs.buffer
      simpa [encodeAll] using this
    · refine ⟨hheader, ?_, by simp, .inl ?_⟩
      · simp [encodeAll, e]
      · simp [encodeAll, e]
  refine (and_iff_left rfl).trans (hshows.trans ?_)
  unfold Reader.getBufferTag
  rw [hbuffer]
  cases hkind : h.kind with
  | spbStart => exact absurd (.inl hkind) hasked
  | unTagged => exact absurd (.inr (.inl hkind)) hasked
  | wideUnTagged => exact absurd (.inr (.inr hkind)) hasked
  | spbItems =>
    rw [hkind] at hheader
    obtain rfl : hdr = [] := hheader
    exact iff_of_true rfl (.inl rfl)
  | tagged | tpb | wideTagged =>
    rw [hkind] at hheader
    obtain ⟨t, rfl⟩ := hheader
    simp [Writer.initNewBuffer, eq_comm]
  | spbAttach =>
    rw [hkind] at hheader
    have hversion : iscSpbVersion ≠ iscSpbVersion1 := by decide
    have hzero : (0 : UInt8) ≠ iscSpbVersion1 := by decide
    rcases hheader with rfl | ⟨t, rfl⟩
    · simp [Writer.initNewBuffer, hzero, hzero.symm]
    · simp [Writer.initNewBuffer, hzero, hversion, eq_comm]

/-- In a well-formed block of any kind that does not start a service, an insertion goes right if and
only if the array can grow for it or it is refused, deletions always go right, and `reset` if and
only if the block has no tag and its kind is not asked for it, or the tag is 0. -/
theorem edit_right_iff (haddress : 0 < s.address) (hs : s.Holds h.buffer.length)
    (hcap : 128 ≤ h.capacity) (hshow : Shows h.toReader hdr before after) (e : Edit) :
    e.Right alloc s h hdr before after ↔ e.Condition alloc s h := by
  cases e with
  | insert tag bytes => exact insert_right_iff hshow tag bytes
  | deleteClumplet => exact iff_of_true (deleteClumplet_right hs hshow) trivial
  | deleteWithTag tag => exact iff_of_true (deleteWithTag_right haddress hs hshow tag) trivial
  | reset => exact reset_right_iff haddress hcap hshow

def parameterBlock : Held :=
  ⟨⟨⟨.tagged, [1, 28, 1, 65, 29, 0], 4, 0⟩, 1024⟩, 128⟩

theorem parameterBlock_shows :
    Shows parameterBlock.toReader [1] [⟨28, [65]⟩] [⟨29, []⟩] := by
  refine ⟨⟨1, rfl⟩, rfl, ?_, .inl rfl⟩
  intro i hi
  simp only [cons_append, nil_append, mem_cons, not_mem_nil, or_false] at hi
  rcases hi with rfl | rfl <;> exact ⟨.traditionalDpb, rfl, rfl⟩

theorem edit_right_iff_insert :
    (Edit.insert 30 [66, 67]).Right (fun _ => true) ⟨32, 4096⟩ parameterBlock [1] [⟨28, [65]⟩]
        [⟨29, []⟩] ↔
      (Edit.insert 30 [66, 67]).Condition (fun _ => true) ⟨32, 4096⟩ parameterBlock :=
  edit_right_iff (by decide) ⟨by decide, by decide, by decide⟩ (by decide) parameterBlock_shows _

/-- After `reset` the block has another tag. -/
theorem reset_loses_tag :
    Shows parameterBlock.toReader [1] [⟨28, [65]⟩] [⟨29, []⟩] ∧
      parameterBlock.reset (fun _ => true) ⟨32, 4096⟩ =
        (⟨⟨⟨.tagged, [0], 1, 0⟩, 1024⟩, 128⟩, .ok ()) ∧
      ¬Edit.reset.Right (fun _ => true) ⟨32, 4096⟩ parameterBlock [1] [⟨28, [65]⟩] [⟨29, []⟩] := by
  have hreset : parameterBlock.reset (fun _ => true) ⟨32, 4096⟩ =
      (⟨⟨⟨.tagged, [0], 1, 0⟩, 1024⟩, 128⟩, .ok ()) := rfl
  refine ⟨parameterBlock_shows, hreset, fun hright => ?_⟩
  exact absurd hright.1.buffer (by decide)

end Firebird.Common.Clumplet
