import Firebird.Lib.Interval
import Firebird.Lib.Memory

/-!
# The index root page

`BTR_reserve_slot` and `compress_root` of `btr.cpp`. The slots of the root page are a list, and the
descriptors of the keys are in the bytes of the page, where the slots take the front. The on-disk
structure is version 11.
-/
namespace Firebird.Jrd.BtrRoot

open Lib Memory Interval List

structure IrtRepeat where
  irtRoot : Int
  irtTransaction : Int
  irtDesc : Nat
  irtKeys : Nat
  irtFlags : Nat

def irtInProgress : Nat := 4

/-- `sizeof(irtd)` -/
def irtdSize : Nat := 8

/-- `index_root_page`, with the size of the page. -/
structure IndexRootPage where
  pageSize : Nat
  irtRpt : List IrtRepeat
  bytes : Nat → UInt8

def maxIndexSegments : Nat := 16

/-- What is used of `index_desc`: `idx_rpt` matches the descriptors byte by byte. -/
structure NewIndex where
  idxCount : Nat
  idxFlags : Nat
  idxRpt : List UInt8
  one_le : 1 ≤ idxCount
  le_max : idxCount ≤ maxIndexSegments
  length_eq : idxRpt.length = idxCount * irtdSize

def IrtRepeat.inProgress (s : IrtRepeat) : Bool := s.irtFlags &&& irtInProgress != 0

def IrtRepeat.used (s : IrtRepeat) : Bool := s.irtRoot != 0 || s.inProgress

def IrtRepeat.size (s : IrtRepeat) : Nat := s.irtKeys * irtdSize

def slotOffset (n : Nat) : Nat := 20 + 12 * n

def maxIdx (pageSize : Nat) : Nat := (pageSize - slotOffset 0) / (12 + irtdSize)

def littleEndian : Nat → Nat → List UInt8
  | 0, _ => []
  | width + 1, n => UInt8.ofNat n :: littleEndian width (n / 256)

def slotBytes (s : IrtRepeat) : List UInt8 :=
  littleEndian 4 (BitVec.ofInt 32 s.irtRoot).toNat ++
    littleEndian 4 (BitVec.ofInt 32 s.irtTransaction).toNat ++ littleEndian 2 s.irtDesc ++
    [UInt8.ofNat s.irtKeys, UInt8.ofNat s.irtFlags]

def putSlot (bytes : Nat → UInt8) (n : Nat) (s : IrtRepeat) : Nat → UInt8 :=
  store bytes (slotOffset n) (slotBytes s)

/-- The loop of `compress_root` from the slot with the number `n` on. -/
def compressLoop (temp : Nat → UInt8) : Nat → List IrtRepeat → Nat → (Nat → UInt8) →
    List IrtRepeat × Nat × (Nat → UInt8)
  | _, [], p, bytes => ([], p, bytes)
  | n, s :: slots, p, bytes =>
    if s.irtRoot ≠ 0 then
      let p := p - s.size
      let bytes := store bytes p (load temp s.irtDesc s.size)
      let s := { s with irtDesc := p }
      let (slots, r) := compressLoop temp (n + 1) slots p (putSlot bytes n s)
      (s :: slots, r)
    else
      let (slots, r) := compressLoop temp (n + 1) slots p bytes
      (s :: slots, r)

/-- The size of the descriptors that `compress_root` moves. -/
def moved (slots : List IrtRepeat) : Nat :=
  (slots.map fun s => if s.irtRoot ≠ 0 then s.size else 0).sum

/-- `compress_root`; `none` if the descriptors run into the slots. -/
def compressRoot (page : IndexRootPage) : Option IndexRootPage :=
  if page.pageSize < slotOffset page.irtRpt.length + moved page.irtRpt then none
  else
    let (slots, _, bytes) := compressLoop page.bytes 0 page.irtRpt page.pageSize page.bytes
    some { page with irtRpt := slots, bytes := bytes }

def highWater (pageSize : Nat) (slots : List IrtRepeat) : Nat :=
  slots.foldl (fun space s => if s.used then min space s.irtDesc else space) pageSize

def emptySlot (useIdxId : Option Nat) : Nat → List IrtRepeat → Option Nat
  | _, [] => none
  | n, s :: slots =>
    if !s.used && (useIdxId == none || useIdxId == some n) then some n
    else emptySlot useIdxId (n + 1) slots

/-- The unsigned number at an address. It is stored again with the same bytes. -/
def getLong (bytes : Nat → UInt8) (p : Nat) : Int :=
  ((load bytes p 4).foldr (fun b n => n * 256 + b.toNat) 0 : Nat)

def extendSlots (page : IndexRootPage) (useIdxId : Option Nat) : IndexRootPage :=
  match useIdxId with
  | none => page
  | some id =>
    let n := page.irtRpt.length
    if id ≥ n then
      { page with
        irtRpt := page.irtRpt ++ List.replicate (id - n + 1) ⟨0, 0, 0, 0, 0⟩
        bytes := store page.bytes (slotOffset n) (List.replicate (12 * (id - n + 1)) 0) }
    else page

/-- One try: `none` if there is not enough room. The space is an `USHORT`. -/
def tryReserve (page : IndexRootPage) (idx : NewIndex) (useIdxId : Option Nat)
    (transaction : Option Int) : Option (IndexRootPage × Nat) :=
  let l := idx.idxCount * irtdSize
  let space := (highWater page.pageSize page.irtRpt + 2 ^ 16 - l) % 2 ^ 16
  let count := page.irtRpt.length
  if space < slotOffset (count + 1) then none
  else
    let n := (emptySlot useIdxId 0 page.irtRpt).getD count
    let s : IrtRepeat :=
      { irtRoot := 0
        irtTransaction := transaction.getD (getLong page.bytes (slotOffset n + 4))
        irtDesc := space
        irtKeys := idx.idxCount
        irtFlags := idx.idxFlags ||| irtInProgress }
    let slots := if n < count then page.irtRpt.set n s else page.irtRpt ++ [s]
    some ({ page with irtRpt := slots, bytes := store (putSlot page.bytes n s) space idx.idxRpt },
      n)

/-- The outcomes of `BTR_reserve_slot`. -/
inductive Reserve
  | maxIdx
  | full (page : IndexRootPage)
  | reserved (page : IndexRootPage) (idxId : Nat)
  | undefined

def btrReserveSlot (page : IndexRootPage) (idx : NewIndex) (useIdxId : Option Nat)
    (transaction : Option Int) : Reserve :=
  if page.irtRpt.length > maxIdx page.pageSize then .maxIdx
  else
    let page := extendSlots page useIdxId
    match tryReserve page idx useIdxId transaction with
    | some (page, n) => .reserved page n
    | none =>
      match compressRoot page with
      | none => .undefined
      | some page =>
        match tryReserve page idx useIdxId transaction with
        | some (page, n) => .reserved page n
        | none => .full page

def IndexRootPage.Has (page : IndexRootPage) (n : Nat) (s : IrtRepeat) : Prop :=
  page.irtRpt[n]? = some s ∧ s.used = true

/-- The descriptors of all indices are on the page, behind the slots, and do not overlap. -/
structure Layout (page : IndexRootPage) : Prop where
  keys_pos : ∀ {n s}, page.Has n s → 1 ≤ s.irtKeys
  above : ∀ {n s}, page.Has n s → slotOffset page.irtRpt.length ≤ s.irtDesc
  inside : ∀ {n s}, page.Has n s → s.irtDesc + s.size ≤ page.pageSize
  apart : ∀ {m n s t}, page.Has m s → page.Has n t → m ≠ n →
    Apart (s.irtDesc, s.size) (t.irtDesc, t.size)

/-- The indices of a page are there, and their descriptors read back unchanged. -/
def Kept (page page' : IndexRootPage) : Prop :=
  ∀ n s, page.Has n s → ∃ s', page'.irtRpt[n]? = some s' ∧ s'.irtRoot = s.irtRoot ∧
    s'.irtKeys = s.irtKeys ∧ s'.irtFlags = s.irtFlags ∧
    load page'.bytes s'.irtDesc s'.size = load page.bytes s.irtDesc s.size

/-- What a reservation is for: there is no room, or a slot that was not used is that of the new
index, and in any case the indices are kept. -/
def Meets (page : IndexRootPage) (idx : NewIndex) : Reserve → Prop
  | .maxIdx => True
  | .full page' => Kept page page'
  | .reserved page' n =>
    Kept page page' ∧ Layout page' ∧ (∀ s, ¬ page.Has n s) ∧
      ∃ s', page'.Has n s' ∧ s'.irtKeys = idx.idxCount ∧
        load page'.bytes s'.irtDesc s'.size = idx.idxRpt
  | .undefined => False

/-- The number of slots after `extendSlots`. -/
def slotCount (page : IndexRootPage) (useIdxId : Option Nat) : Nat :=
  match useIdxId with
  | none => page.irtRpt.length
  | some id => max page.irtRpt.length (id + 1)

def Clear (page : IndexRootPage) : Prop :=
  ∀ n s, page.Has n s → s.irtRoot = 0 → s.irtDesc + s.size ≤ page.pageSize - moved page.irtRpt

/-- The condition for a reservation: cleared slots are in front of all descriptors, the space is not
below 0, and if there is no room then no descriptors of an index under construction are where those
of the other indices are moved to. -/
structure Safe (page : IndexRootPage) (idx : NewIndex) (useIdxId : Option Nat) : Prop where
  extension : ∀ {n s}, page.Has n s → slotOffset (slotCount page useIdxId) ≤ s.irtDesc
  le_space : idx.idxCount * irtdSize ≤ highWater page.pageSize page.irtRpt
  room : slotOffset (slotCount page useIdxId + 1) + idx.idxCount * irtdSize ≤
      highWater page.pageSize page.irtRpt ∨
    Clear page

section

variable {page page' : IndexRootPage} {idx : NewIndex} {useIdxId : Option Nat}
  {transaction : Option Int} {n m k : Nat} {s t : IrtRepeat} {slots : List IrtRepeat}

@[simp]
theorem length_littleEndian (width n : Nat) : (littleEndian width n).length = width := by
  induction width generalizing n with
  | zero => rfl
  | succ width ih => rw [littleEndian, length_cons, ih]

@[simp]
theorem length_slotBytes (s : IrtRepeat) : (slotBytes s).length = 12 := by simp [slotBytes]

theorem le_highWater_iff {pageSize : Nat} :
    k ≤ highWater pageSize slots ↔ k ≤ pageSize ∧ ∀ s ∈ slots, s.used = true → k ≤ s.irtDesc := by
  rw [highWater]
  induction slots generalizing pageSize with
  | nil => simp
  | cons s slots ih =>
    rw [foldl_cons, ih, forall_mem_cons]
    split_ifs with hs
    · simp [hs, and_assoc]
    · simp [hs]

theorem highWater_le_of_has (h : page.Has n s) :
    highWater page.pageSize page.irtRpt ≤ s.irtDesc :=
  (le_highWater_iff.1 le_rfl).2 s (mem_of_getElem? h.1) h.2

theorem highWater_le_pageSize : highWater page.pageSize page.irtRpt ≤ page.pageSize :=
  (le_highWater_iff.1 le_rfl).1

theorem le_highWater (hle : k ≤ page.pageSize) (h : ∀ n s, page.Has n s → k ≤ s.irtDesc) :
    k ≤ highWater page.pageSize page.irtRpt := by
  refine le_highWater_iff.2 ⟨hle, fun s hs hused => ?_⟩
  obtain ⟨n, hn⟩ := getElem?_of_mem hs
  exact h n s ⟨hn, hused⟩

theorem emptySlot_spec (h : emptySlot useIdxId k slots = some n) :
    k ≤ n ∧ ∃ s, slots[n - k]? = some s ∧ s.used = false := by
  induction slots generalizing k with
  | nil => cases h
  | cons s slots ih =>
    rw [emptySlot] at h
    split_ifs at h with hs
    · cases h
      rw [Bool.and_eq_true, Bool.not_eq_true'] at hs
      exact ⟨le_rfl, s, by simp, hs.1⟩
    · obtain ⟨hle, t, ht, hused⟩ := ih h
      refine ⟨by omega, t, ?_, hused⟩
      rwa [show n - k = n - (k + 1) + 1 by omega, getElem?_cons_succ]

/-! ## One try -/

def newSlot (page : IndexRootPage) (useIdxId : Option Nat) : Nat :=
  (emptySlot useIdxId 0 page.irtRpt).getD page.irtRpt.length

theorem newSlot_le : newSlot page useIdxId ≤ page.irtRpt.length := by
  rw [newSlot]
  cases h : emptySlot useIdxId 0 page.irtRpt with
  | none => exact le_rfl
  | some n =>
    obtain ⟨-, s, hs, -⟩ := emptySlot_spec h
    rw [Nat.sub_zero] at hs
    exact (List.getElem?_eq_some_iff.1 hs).1.le

theorem not_has_newSlot : ¬ page.Has (newSlot page useIdxId) s := by
  rintro ⟨hs, hused⟩
  rw [newSlot] at hs
  cases h : emptySlot useIdxId 0 page.irtRpt with
  | none => simp [h] at hs
  | some n =>
    obtain ⟨-, t, ht, hfree⟩ := emptySlot_spec h
    rw [h, Option.getD_some] at hs
    rw [Nat.sub_zero, hs] at ht
    cases ht
    rw [hused] at hfree
    cases hfree

def withSlot (slots : List IrtRepeat) (n : Nat) (s : IrtRepeat) : List IrtRepeat :=
  if n < slots.length then slots.set n s else slots ++ [s]

theorem getElem?_withSlot (h : n ≤ slots.length) :
    (withSlot slots n s)[m]? = if m = n then some s else slots[m]? := by
  rw [withSlot]
  split_ifs with hlt heq heq
  · rw [heq, getElem?_set_self hlt]
  · rw [getElem?_set_ne (Ne.symm heq)]
  · rw [heq, show n = slots.length by omega, getElem?_concat_length]
  · rcases Nat.lt_or_ge m slots.length with hm | hm
    · rw [getElem?_append_left hm]
    · rw [getElem?_eq_none (by rw [length_append, length_singleton]; omega), getElem?_eq_none hm]

theorem length_withSlot_le (slots : List IrtRepeat) (n : Nat) (s : IrtRepeat) :
    slots.length ≤ (withSlot slots n s).length ∧ (withSlot slots n s).length ≤ slots.length +
      1 := by
  rw [withSlot]
  split_ifs <;> simp

def reservedSlot (page : IndexRootPage) (idx : NewIndex) (useIdxId : Option Nat)
    (transaction : Option Int) (space : Nat) : IrtRepeat :=
  { irtRoot := 0
    irtTransaction :=
      transaction.getD (getLong page.bytes (slotOffset (newSlot page useIdxId) + 4))
    irtDesc := space
    irtKeys := idx.idxCount
    irtFlags := idx.idxFlags ||| irtInProgress }

def reservedPage (page : IndexRootPage) (idx : NewIndex) (useIdxId : Option Nat)
    (transaction : Option Int) (space : Nat) : IndexRootPage :=
  let s := reservedSlot page idx useIdxId transaction space
  { page with
    irtRpt := withSlot page.irtRpt (newSlot page useIdxId) s
    bytes := store (putSlot page.bytes (newSlot page useIdxId) s) space idx.idxRpt }

theorem tryReserve_eq (page : IndexRootPage) (idx : NewIndex) (useIdxId : Option Nat)
    (transaction : Option Int) :
    tryReserve page idx useIdxId transaction =
      let space := (highWater page.pageSize page.irtRpt + 2 ^ 16 - idx.idxCount * irtdSize) % 2 ^ 16
      if space < slotOffset (page.irtRpt.length + 1) then none
      else some (reservedPage page idx useIdxId transaction space, newSlot page useIdxId) := rfl

variable {space : Nat}

theorem used_reservedSlot :
    (reservedSlot page idx useIdxId transaction space).used = true := by
  rw [IrtRepeat.used, IrtRepeat.inProgress, reservedSlot, Nat.and_or_distrib_right, Bool.or_eq_true]
  right
  simp [irtInProgress]

theorem reservedPage_bytes {x : Nat} (hx : slotOffset (page.irtRpt.length + 1) ≤ x)
    (hspace : x < space ∨ space + idx.idxCount * irtdSize ≤ x) :
    (reservedPage page idx useIdxId transaction space).bytes x = page.bytes x := by
  have hn := @newSlot_le page useIdxId
  rw [slotOffset] at hx
  rw [reservedPage]
  simp only
  rw [store_frame (by rw [idx.length_eq]; exact hspace), putSlot,
    store_frame (by rw [slotOffset, length_slotBytes]; omega)]

theorem reserved_meets (h : Layout page)
    (hspace : space + idx.idxCount * irtdSize ≤ highWater page.pageSize page.irtRpt)
    (hroom : slotOffset (page.irtRpt.length + 1) ≤ space) :
    Meets page idx (.reserved (reservedPage page idx useIdxId transaction space)
      (newSlot page useIdxId)) := by
  have hlength := length_withSlot_le page.irtRpt (newSlot page useIdxId)
    (reservedSlot page idx useIdxId transaction space)
  have hgetElem (m : Nat) : (reservedPage page idx useIdxId transaction space).irtRpt[m]? =
      if m = newSlot page useIdxId then some (reservedSlot page idx useIdxId transaction space)
      else page.irtRpt[m]? := getElem?_withSlot newSlot_le
  have hpageSize := @highWater_le_pageSize page
  -- a slot of the new page is the new one or was there before
  have hcases {m : Nat} {s : IrtRepeat}
      (hs : (reservedPage page idx useIdxId transaction space).Has m s) :
      m = newSlot page useIdxId ∧ s = reservedSlot page idx useIdxId transaction space ∨
        m ≠ newSlot page useIdxId ∧ page.Has m s := by
    obtain ⟨hs, hused⟩ := hs
    rw [hgetElem] at hs
    split_ifs at hs with hm
    · exact .inl ⟨hm, (Option.some.inj hs).symm⟩
    · exact .inr ⟨hm, hs, hused⟩
  refine ⟨?_, ⟨?_, ?_, ?_, ?_⟩, fun s => not_has_newSlot, ?_⟩
  · intro m s hs
    have hm : m ≠ newSlot page useIdxId := by
      rintro rfl
      exact not_has_newSlot hs
    have hdesc := highWater_le_of_has hs
    refine ⟨s, by rw [hgetElem, if_neg hm]; exact hs.1, rfl, rfl, rfl, load_congr fun x hx _ => ?_⟩
    exact reservedPage_bytes (by omega) (.inr (by omega))
  · intro m s hs
    rcases hcases hs with ⟨-, rfl⟩ | ⟨-, hs⟩
    · exact idx.one_le
    · exact h.keys_pos hs
  · intro m s hs
    have hle : slotOffset (reservedPage page idx useIdxId transaction space).irtRpt.length ≤
        slotOffset (page.irtRpt.length + 1) := by
      rw [slotOffset, slotOffset, reservedPage]
      simp only
      omega
    rcases hcases hs with ⟨-, rfl⟩ | ⟨-, hs⟩
    · exact hle.trans hroom
    · have hdesc := highWater_le_of_has hs
      omega
  · intro m s hs
    rcases hcases hs with ⟨-, rfl⟩ | ⟨-, hs⟩
    · exact hspace.trans hpageSize
    · exact h.inside hs
  · intro m n s t hs ht hmn
    rcases hcases hs with ⟨rfl, rfl⟩ | ⟨-, hs⟩
    · rcases hcases ht with ⟨rfl, -⟩ | ⟨-, ht⟩
      · exact absurd rfl hmn
      · exact .inl (hspace.trans (highWater_le_of_has ht))
    · rcases hcases ht with ⟨-, rfl⟩ | ⟨-, ht⟩
      · exact .inr (hspace.trans (highWater_le_of_has hs))
      · exact h.apart hs ht hmn
  · refine ⟨reservedSlot page idx useIdxId transaction space,
      ⟨by rw [hgetElem, if_pos rfl], used_reservedSlot⟩, rfl, ?_⟩
    have hself := load_store_self (putSlot page.bytes (newSlot page useIdxId)
      (reservedSlot page idx useIdxId transaction space)) space idx.idxRpt
    rwa [idx.length_eq] at hself

theorem moved_cons : moved (s :: slots) = (if s.irtRoot ≠ 0 then s.size else 0) + moved slots := by
  rw [moved, map_cons, sum_cons, moved]

/-- What the loop makes of a slot, between `low` and `high`. -/
structure Packed (temp bytes : Nat → UInt8) (low high : Nat) (s s' : IrtRepeat) : Prop where
  root_eq : s'.irtRoot = s.irtRoot
  keys_eq : s'.irtKeys = s.irtKeys
  flags_eq : s'.irtFlags = s.irtFlags
  same : s.irtRoot = 0 → s' = s
  low_le : s.irtRoot ≠ 0 → low ≤ s'.irtDesc
  le_high : s.irtRoot ≠ 0 → s'.irtDesc + s'.size ≤ high
  load_eq : s.irtRoot ≠ 0 → load bytes s'.irtDesc s'.size = load temp s.irtDesc s.size

/-- What the loop makes of the slots from the number `n` on: the descriptors of the indices with a
root are one below the other, from `p` down, and the other bytes behind the slots stay as they are.
-/
structure Packs (temp : Nat → UInt8) (n p : Nat) (bytes : Nat → UInt8) (slots : List IrtRepeat)
    (r : List IrtRepeat × Nat × (Nat → UInt8)) : Prop where
  length_eq : r.1.length = slots.length
  packed : ∀ {m : Nat} {s : IrtRepeat}, slots[m]? = some s →
    ∃ s', r.1[m]? = some s' ∧ Packed temp r.2.2 (p - moved slots) p s s'
  frame : ∀ {x}, x < slotOffset n ∨ slotOffset (n + slots.length) ≤ x ∧ x < p - moved slots ∨ p ≤
    x →
    r.2.2 x = bytes x
  order : ∀ {l m : Nat} {s t : IrtRepeat}, r.1[l]? = some s → r.1[m]? = some t → l < m →
    s.irtRoot ≠ 0 → t.irtRoot ≠ 0 → t.irtDesc + t.size ≤ s.irtDesc
  cover : ∀ {x}, p - moved slots ≤ x → x < p → ∃ (m : Nat) (s : IrtRepeat), r.1[m]? = some s ∧
    s.irtRoot ≠ 0 ∧ s.irtDesc ≤ x ∧ x < s.irtDesc + s.size
  slot_frame : ∀ {m : Nat} {s : IrtRepeat} {x}, slots[m]? = some s → s.irtRoot = 0 →
    slotOffset (n + m) ≤ x → x < slotOffset (n + m + 1) → r.2.2 x = bytes x

theorem Packed.mono {temp bytes : Nat → UInt8} {low high low' high' : Nat} {s' : IrtRepeat}
    (h : Packed temp bytes low high s s') (hlow : low' ≤ low) (hhigh : high ≤ high') :
    Packed temp bytes low' high' s s' :=
  { h with
    low_le := fun hs => hlow.trans (h.low_le hs)
    le_high := fun hs => (h.le_high hs).trans hhigh }

theorem Packs.source {temp bytes : Nat → UInt8} {p : Nat}
    {r : List IrtRepeat × Nat × (Nat → UInt8)} (h : Packs temp n p bytes slots r)
    (ht : r.1[m]? = some t) :
    ∃ s, slots[m]? = some s ∧ Packed temp r.2.2 (p - moved slots) p s t := by
  have hm : m < slots.length := by
    rw [← h.length_eq]
    exact (List.getElem?_eq_some_iff.1 ht).1
  obtain ⟨t', ht', hpacked⟩ := h.packed (getElem?_eq_getElem hm)
  rw [ht] at ht'
  cases ht'
  exact ⟨_, getElem?_eq_getElem hm, hpacked⟩

theorem compressLoop_spec (temp : Nat → UInt8) {p : Nat} {bytes : Nat → UInt8}
    (h : slotOffset (n + slots.length) + moved slots ≤ p) :
    Packs temp n p bytes slots (compressLoop temp n slots p bytes) := by
  induction slots generalizing n p bytes with
  | nil =>
    refine ⟨rfl, fun hs => by simp at hs, fun _ => rfl, fun hs => by simp [compressLoop] at hs, ?_,
      fun hs => by simp at hs⟩
    intro x hle hlt
    simp [moved] at hle
    omega
  | cons s slots ih =>
    rw [moved_cons, length_cons, slotOffset] at h
    rw [compressLoop]
    by_cases hroot : s.irtRoot ≠ 0
    · rw [if_pos hroot] at h
      have ih := @ih (n + 1) (p - s.size)
        (putSlot (store bytes (p - s.size) (load temp s.irtDesc s.size)) n
          { s with irtDesc := p - s.size }) (by rw [slotOffset]; omega)
      simp only [if_pos hroot]
      generalize compressLoop temp (n + 1) slots (p - s.size) _ = r at ih
      -- the bytes of this slot's descriptors after the rest of the loop
      have hframe {x : Nat} (hx : p - s.size ≤ x) :
          r.2.2 x = store bytes (p - s.size) (load temp s.irtDesc s.size) x := by
        rw [ih.frame (.inr (.inr hx)), putSlot,
          store_frame (by rw [slotOffset, length_slotBytes]; omega)]
      have hmoved : p - s.size - moved slots = p - moved (s :: slots) := by
        rw [moved_cons, if_pos hroot]
        omega
      refine ⟨by simp [ih.length_eq], ?_, ?_, ?_, ?_, ?_⟩
      · intro m t ht
        cases m with
        | zero =>
          cases ht
          refine ⟨_, rfl, rfl, rfl, rfl, fun h => absurd h hroot, fun _ => ?_, fun _ => ?_, fun _ =>
            ?_⟩
          · simp only [← hmoved]
            omega
          · change p - s.size + s.size ≤ p
            omega
          · have hself := load_store_self bytes (p - s.size) (load temp s.irtDesc s.size)
            rw [length_load] at hself
            rw [← hself]
            exact load_congr fun x hx _ => hframe hx
        | succ m =>
          obtain ⟨t', ht', hpacked⟩ := ih.packed ht
          exact ⟨t', ht', hmoved ▸ hpacked.mono le_rfl (by omega)⟩
      · intro x hx
        rw [length_cons, ← hmoved, slotOffset, slotOffset] at hx
        rcases hx with hx | hx | hx
        · rw [ih.frame (.inl (by rw [slotOffset]; omega)), putSlot,
            store_frame (by rw [slotOffset]; omega), store_frame (by omega)]
        · rw [ih.frame (.inr (.inl (by rw [slotOffset]; omega))), putSlot,
            store_frame (by rw [slotOffset, length_slotBytes]; omega), store_frame (by omega)]
        · rw [hframe (by omega), store_frame (by rw [length_load]; omega)]
      · intro l m t u ht hu hlm htroot huroot
        obtain ⟨m, rfl⟩ : ∃ k, m = k + 1 := ⟨m - 1, by omega⟩
        cases l with
        | zero =>
          cases ht
          obtain ⟨u', -, hpacked⟩ := ih.source hu
          exact hpacked.le_high (by rwa [← hpacked.root_eq])
        | succ l =>
          exact ih.order ht hu (by omega) htroot huroot
      · intro x hle hlt
        by_cases hx : p - s.size ≤ x
        · refine ⟨0, _, rfl, hroot, hx, ?_⟩
          change x < p - s.size + s.size
          omega
        · obtain ⟨m, t, ht, hcover⟩ := ih.cover (hmoved ▸ hle) (by omega)
          exact ⟨m + 1, t, ht, hcover⟩
      · intro m t x ht htroot hle hlt
        cases m with
        | zero =>
          cases ht
          exact absurd htroot hroot
        | succ m =>
          have hm := (List.getElem?_eq_some_iff.1 ht).1
          rw [slotOffset] at hle hlt
          rw [length_cons] at hm
          rw [ih.slot_frame ht htroot (by rw [slotOffset]; omega) (by rw [slotOffset]; omega),
            putSlot, store_frame (by rw [slotOffset, length_slotBytes]; omega),
            store_frame (by omega)]
    · rw [if_neg hroot, Nat.zero_add] at h
      have ih := @ih (n + 1) p bytes (by rw [slotOffset]; omega)
      have hmoved : moved (s :: slots) = moved slots := by rw
        [moved_cons, if_neg hroot, Nat.zero_add]
      simp only [if_neg hroot]
      generalize compressLoop temp (n + 1) slots p bytes = r at ih
      refine ⟨by simp [ih.length_eq], ?_, ?_, ?_, ?_, ?_⟩
      · intro m t ht
        cases m with
        | zero =>
          cases ht
          exact ⟨s, rfl, rfl, rfl, rfl, fun _ => rfl, fun h => absurd h hroot,
            fun h => absurd h hroot, fun h => absurd h hroot⟩
        | succ m =>
          rw [hmoved]
          exact ih.packed ht
      · intro x hx
        rw [length_cons, hmoved, slotOffset, slotOffset] at hx
        exact ih.frame (by rw [slotOffset, slotOffset]; omega)
      · intro l m t u ht hu hlm htroot huroot
        obtain ⟨m, rfl⟩ : ∃ k, m = k + 1 := ⟨m - 1, by omega⟩
        cases l with
        | zero =>
          cases ht
          exact absurd htroot hroot
        | succ l => exact ih.order ht hu (by omega) htroot huroot
      · intro x hle hlt
        obtain ⟨m, t, ht, hcover⟩ := ih.cover (hmoved ▸ hle) hlt
        exact ⟨m + 1, t, ht, hcover⟩
      · intro m t x ht htroot hle hlt
        rw [slotOffset] at hle hlt
        cases m with
        | zero => exact ih.frame (.inl (by rw [slotOffset]; omega))
        | succ m =>
          exact ih.slot_frame ht htroot (by rw [slotOffset]; omega) (by rw [slotOffset]; omega)

theorem moved_eq (slots : List IrtRepeat) :
    moved slots = (((slots.filter (·.irtRoot != 0)).map fun s => (s.irtDesc, s.size)).map
      Prod.snd).sum := by
  induction slots with
  | nil => rfl
  | cons s slots ih =>
    rw [moved_cons, ih, filter_cons]
    by_cases hroot : s.irtRoot ≠ 0
    · simp [hroot]
    · simp [not_not.1 hroot]

theorem highWater_add_moved_le (h : Layout page) :
    highWater page.pageSize page.irtRpt + moved page.irtRpt ≤ page.pageSize := by
  have hused {s : IrtRepeat} (hs : s.irtRoot ≠ 0) : s.used = true := by simp [IrtRepeat.used, hs]
  have hpairwise : ((page.irtRpt.filter (·.irtRoot != 0)).map
      fun s => (s.irtDesc, s.size)).Pairwise Apart := by
    rw [pairwise_map, pairwise_filter, pairwise_iff_getElem]
    intro m n hm hn hmn hs ht
    rw [bne_iff_ne] at hs ht
    exact h.apart ⟨getElem?_eq_getElem hm, hused hs⟩ ⟨getElem?_eq_getElem hn, hused ht⟩
      hmn.ne
  have hsum := @sum_le _ (highWater page.pageSize page.irtRpt) page.pageSize hpairwise (by
    intro a ha
    obtain ⟨s, hs, rfl⟩ := mem_map.1 ha
    obtain ⟨hs, hroot⟩ := mem_filter.1 hs
    obtain ⟨n, hn⟩ := getElem?_of_mem hs
    have hhas : page.Has n s := ⟨hn, hused (by simpa using hroot)⟩
    exact ⟨highWater_le_of_has hhas, h.inside hhas⟩)
  rw [← moved_eq] at hsum
  have := @highWater_le_pageSize page
  omega

theorem length_extendSlots : (extendSlots page useIdxId).irtRpt.length = slotCount page
    useIdxId := by
  cases useIdxId with
  | none => rfl
  | some id =>
    rw [extendSlots, slotCount]
    split_ifs with h
    · rw [length_append, length_replicate]
      omega
    · omega

@[simp]
theorem pageSize_extendSlots : (extendSlots page useIdxId).pageSize = page.pageSize := by
  cases useIdxId with
  | none => rfl
  | some id =>
    rw [extendSlots]
    split_ifs <;> rfl

theorem extendSlots_irtRpt : ∃ k, (extendSlots page useIdxId).irtRpt =
    page.irtRpt ++ replicate k ⟨0, 0, 0, 0, 0⟩ := by
  cases useIdxId with
  | none => exact ⟨0, by simp [extendSlots]⟩
  | some id =>
    rw [extendSlots]
    split_ifs
    · exact ⟨_, rfl⟩
    · exact ⟨0, by simp⟩

theorem has_extendSlots : (extendSlots page useIdxId).Has n s ↔ page.Has n s := by
  obtain ⟨k, hk⟩ := @extendSlots_irtRpt page useIdxId
  rw [IndexRootPage.Has, IndexRootPage.Has, hk]
  rcases Nat.lt_or_ge n page.irtRpt.length with hn | hn
  · rw [getElem?_append_left hn]
  · rw [getElem?_append_right hn, getElem?_eq_none hn]
    constructor
    · rintro ⟨hs, hused⟩
      obtain rfl := eq_of_mem_replicate (mem_of_getElem? hs)
      exact absurd hused (by decide)
    · rintro ⟨hs, -⟩
      cases hs

theorem highWater_extendSlots :
    highWater (extendSlots page useIdxId).pageSize (extendSlots page useIdxId).irtRpt =
      highWater page.pageSize page.irtRpt := by
  refine le_antisymm (le_highWater ?_ fun n s hs => ?_) (le_highWater ?_ fun n s hs => ?_)
  · exact highWater_le_pageSize.trans pageSize_extendSlots.le
  · exact highWater_le_of_has (has_extendSlots.2 hs)
  · rw [pageSize_extendSlots]
    exact highWater_le_pageSize
  · exact highWater_le_of_has (has_extendSlots.1 hs)

theorem moved_extendSlots : moved (extendSlots page useIdxId).irtRpt = moved page.irtRpt := by
  obtain ⟨k, hk⟩ := @extendSlots_irtRpt page useIdxId
  rw [hk]
  simp [moved]

theorem extendSlots_bytes (x : Nat) : (extendSlots page useIdxId).bytes x =
    if slotOffset page.irtRpt.length ≤ x ∧ x < slotOffset (slotCount page useIdxId) then 0
    else page.bytes x := by
  cases useIdxId with
  | none => rw [extendSlots, slotCount, if_neg (by omega)]
  | some id =>
    rw [extendSlots, slotCount]
    by_cases hid : id ≥ page.irtRpt.length
    · rw [if_pos hid, slotOffset, slotOffset]
      simp only
      split_ifs with hx
      · obtain ⟨i, rfl⟩ := Nat.exists_eq_add_of_le hx.1
        rw [store_add (by rw [length_replicate]; omega), getElem_replicate]
      · rw [store_frame (by rw [length_replicate]; omega)]
    · rw [if_neg hid, if_neg (by rw [slotOffset, slotOffset]; omega)]

theorem layout_extendSlots (h : Layout page)
    (hext : ∀ {n s}, page.Has n s → slotOffset (slotCount page useIdxId) ≤ s.irtDesc) :
    Layout (extendSlots page useIdxId) where
  keys_pos hs := h.keys_pos (has_extendSlots.1 hs)
  above hs := by
    rw [length_extendSlots]
    exact hext (has_extendSlots.1 hs)
  inside hs := by
    rw [pageSize_extendSlots]
    exact h.inside (has_extendSlots.1 hs)
  apart hs ht := h.apart (has_extendSlots.1 hs) (has_extendSlots.1 ht)

theorem kept_extendSlots
    (hext : ∀ {n s}, page.Has n s → slotOffset (slotCount page useIdxId) ≤ s.irtDesc) :
    Kept page (extendSlots page useIdxId) := by
  intro n s hs
  refine ⟨s, (has_extendSlots.2 hs).1, rfl, rfl, rfl, load_congr fun x hx _ => ?_⟩
  have := hext hs
  rw [extendSlots_bytes, if_neg (by omega)]

theorem Kept.has (h : Kept page page') (hs : page.Has n s) :
    ∃ s', page'.Has n s' ∧ s'.irtRoot = s.irtRoot ∧ s'.irtKeys = s.irtKeys ∧
      s'.irtFlags = s.irtFlags ∧
      load page'.bytes s'.irtDesc s'.size = load page.bytes s.irtDesc s.size := by
  obtain ⟨s', hs', hroot, hkeys, hflags, hload⟩ := h n s hs
  refine ⟨s', ⟨hs', ?_⟩, hroot, hkeys, hflags, hload⟩
  rw [IrtRepeat.used, IrtRepeat.inProgress, hroot, hflags]
  exact hs.2

theorem Kept.trans {page'' : IndexRootPage} (h : Kept page page') (h' : Kept page' page'') :
    Kept page page'' := by
  intro n s hs
  obtain ⟨s', hs', hroot, hkeys, hflags, hload⟩ := h.has hs
  obtain ⟨t, ht, hroot', hkeys', hflags', hload'⟩ := h' n s' hs'
  exact ⟨t, ht, hroot'.trans hroot, hkeys'.trans hkeys, hflags'.trans hflags, hload'.trans hload⟩

theorem Meets.of_kept {r : Reserve} (hkept : Kept page page') (h : Meets page' idx r) :
    Meets page idx r := by
  cases r with
  | maxIdx => trivial
  | full => exact hkept.trans h
  | reserved page'' n =>
    obtain ⟨hkept', hlayout, hfree, hnew⟩ := h
    refine ⟨hkept.trans hkept', hlayout, fun s hs => ?_, hnew⟩
    obtain ⟨s', hs', -⟩ := hkept.has hs
    exact hfree s' hs'
  | undefined => exact h

/-- The page that `compress_root` makes. -/
def compressed (page : IndexRootPage) : IndexRootPage :=
  let r := compressLoop page.bytes 0 page.irtRpt page.pageSize page.bytes
  { page with irtRpt := r.1, bytes := r.2.2 }

theorem compressRoot_eq (page : IndexRootPage) : compressRoot page =
    if page.pageSize < slotOffset page.irtRpt.length + moved page.irtRpt then none
    else some (compressed page) := rfl

theorem packs_compressed (h : slotOffset page.irtRpt.length + moved page.irtRpt ≤ page.pageSize) :
    Packs page.bytes 0 page.pageSize page.bytes page.irtRpt
      (compressLoop page.bytes 0 page.irtRpt page.pageSize page.bytes) :=
  compressLoop_spec page.bytes (by rwa [Nat.zero_add])

theorem Layout.slotOffset_le (h : Layout page)
    (hsize : slotOffset page.irtRpt.length ≤ page.pageSize) :
    slotOffset page.irtRpt.length ≤ highWater page.pageSize page.irtRpt :=
  le_highWater hsize fun _ _ hs => h.above hs

theorem has_compressed (h : slotOffset page.irtRpt.length + moved page.irtRpt ≤ page.pageSize)
    (ht : (compressed page).Has n t) :
    ∃ s, page.Has n s ∧
      Packed page.bytes (compressed page).bytes (page.pageSize - moved page.irtRpt) page.pageSize s
        t := by
  obtain ⟨s, hs, hpacked⟩ := (packs_compressed h).source ht.1
  refine ⟨s, ⟨hs, ?_⟩, hpacked⟩
  rw [IrtRepeat.used, IrtRepeat.inProgress, ← hpacked.root_eq, ← hpacked.flags_eq]
  exact ht.2

theorem highWater_le_compressed
    (hmoved : highWater page.pageSize page.irtRpt + moved page.irtRpt ≤ page.pageSize)
    (hoffset : slotOffset page.irtRpt.length + moved page.irtRpt ≤ page.pageSize) :
    highWater page.pageSize page.irtRpt ≤
      highWater (compressed page).pageSize (compressed page).irtRpt := by
  refine le_highWater highWater_le_pageSize fun n t ht => ?_
  obtain ⟨s, hs, hpacked⟩ := has_compressed hoffset ht
  by_cases hroot : s.irtRoot = 0
  · rw [hpacked.same hroot]
    exact highWater_le_of_has hs
  · have := hpacked.low_le hroot
    omega

theorem kept_compressed (h : Layout page) (hsize : slotOffset page.irtRpt.length ≤ page.pageSize)
    (hclear : Clear page) : Kept page (compressed page) := by
  have hmoved := highWater_add_moved_le h
  have hoffset := h.slotOffset_le hsize
  intro n s hs
  have hpacks := @packs_compressed page (by omega)
  obtain ⟨s', hs', hpacked⟩ := hpacks.packed hs.1
  refine ⟨s', hs', hpacked.root_eq, hpacked.keys_eq, hpacked.flags_eq, ?_⟩
  by_cases hroot : s.irtRoot = 0
  · obtain rfl := hpacked.same hroot
    refine load_congr fun x hx hx' => hpacks.frame (.inr (.inl ?_))
    have hle := hclear _ _ hs hroot
    have habove := h.above hs
    rw [Nat.zero_add]
    omega
  · exact hpacked.load_eq hroot

theorem layout_compressed (h : Layout page) (hsize : slotOffset page.irtRpt.length ≤ page.pageSize)
    (hclear : Clear page) : Layout (compressed page) := by
  have hmoved := highWater_add_moved_le h
  have hoffset := h.slotOffset_le hsize
  have hpacks := @packs_compressed page (by omega)
  have hlength : (compressed page).irtRpt.length = page.irtRpt.length := hpacks.length_eq
  refine ⟨fun ht => ?_, fun ht => ?_, fun ht => ?_, fun hs ht hmn => ?_⟩
  · obtain ⟨s, hs, hpacked⟩ := has_compressed (by omega) ht
    rw [hpacked.keys_eq]
    exact h.keys_pos hs
  · have hle := highWater_le_of_has ht
    have hwater := highWater_le_compressed hmoved (by omega)
    rw [hlength]
    omega
  · obtain ⟨s, hs, hpacked⟩ := has_compressed (by omega) ht
    by_cases hroot : s.irtRoot = 0
    · rw [hpacked.same hroot]
      exact h.inside hs
    · exact hpacked.le_high hroot
  · obtain ⟨s, hs', hpacked⟩ := has_compressed (by omega) hs
    obtain ⟨t, ht', hpacked'⟩ := has_compressed (by omega) ht
    by_cases hroot : s.irtRoot = 0
    · rw [hpacked.same hroot]
      have hle := hclear _ _ hs' hroot
      by_cases hroot' : t.irtRoot = 0
      · rw [hpacked'.same hroot']
        exact h.apart hs' ht' hmn
      · have := hpacked'.low_le hroot'
        exact .inl (by omega)
    · by_cases hroot' : t.irtRoot = 0
      · rw [hpacked'.same hroot']
        have hle := hclear _ _ ht' hroot'
        have := hpacked.low_le hroot
        exact .inr (by omega)
      · have hr : ∀ {u u' : IrtRepeat}, Packed page.bytes (compressed page).bytes
            (page.pageSize - moved page.irtRpt) page.pageSize u u' → u.irtRoot ≠ 0 →
            u'.irtRoot ≠ 0 := fun hp hne => by rwa [hp.root_eq]
        rcases Nat.lt_or_gt_of_ne hmn with hlt | hlt
        · exact .inr (hpacks.order hs.1 ht.1 hlt (hr hpacked hroot) (hr hpacked' hroot'))
        · exact .inl (hpacks.order ht.1 hs.1 hlt (hr hpacked' hroot') (hr hpacked hroot))

theorem tryReserve_of_le (hsize : page.pageSize < 2 ^ 16)
    (hle : idx.idxCount * irtdSize ≤ highWater page.pageSize page.irtRpt) :
    tryReserve page idx useIdxId transaction =
      let space := highWater page.pageSize page.irtRpt - idx.idxCount * irtdSize
      if space < slotOffset (page.irtRpt.length + 1) then none
      else some (reservedPage page idx useIdxId transaction space, newSlot page useIdxId) := by
  have hwater := @highWater_le_pageSize page
  have hspace : (highWater page.pageSize page.irtRpt + 2 ^ 16 - idx.idxCount * irtdSize) % 2 ^ 16 =
      highWater page.pageSize page.irtRpt - idx.idxCount * irtdSize := by omega
  rw [tryReserve_eq, hspace]

theorem slotOffset_slotCount_le (hmin : 1024 ≤ page.pageSize)
    (hid : ∀ id ∈ useIdxId, id ≤ maxIdx page.pageSize)
    (hcount : page.irtRpt.length ≤ maxIdx page.pageSize) :
    slotOffset (slotCount page useIdxId + 1) ≤ page.pageSize := by
  rw [maxIdx, irtdSize, slotOffset] at hid hcount
  rw [slotOffset]
  cases useIdxId with
  | none =>
    rw [slotCount]
    omega
  | some id =>
    have := hid id rfl
    rw [slotCount]
    omega

theorem btrReserveSlot_first {p : IndexRootPage × Nat}
    (hcount : page.irtRpt.length ≤ maxIdx page.pageSize)
    (hfirst : tryReserve (extendSlots page useIdxId) idx useIdxId transaction = some p) :
    btrReserveSlot page idx useIdxId transaction = .reserved p.1 p.2 := by
  rw [btrReserveSlot, if_neg (Nat.not_lt.2 hcount)]
  dsimp only
  rw [hfirst]

theorem pageSize_compressed (page : IndexRootPage) :
    (compressed page).pageSize = page.pageSize := rfl

theorem retry_eq (page page' : IndexRootPage)
    (reserve : IndexRootPage → NewIndex → Option Nat → Option Int → Option (IndexRootPage × Nat))
    (space limit : IndexRootPage → Nat)
    (reserved : IndexRootPage → Nat → IndexRootPage) (slot : IndexRootPage → Nat)
    {overrun : Prop} [Decidable overrun]
    (hfirst : reserve page idx useIdxId transaction = if space page < limit page then none else
      some (reserved page (space page), slot page))
    (hsecond : ¬ overrun → reserve page' idx useIdxId transaction = if space page' < limit
    page' then none else
      some (reserved page' (space page'), slot page')) :
    (match reserve page idx useIdxId transaction with
    | some (page, n) => Reserve.reserved page n
    | none =>
      match if overrun then none else some page' with
      | none => .undefined
      | some page =>
        match reserve page idx useIdxId transaction with
        | some (page, n) => .reserved page n
        | none => .full page) =
      if space page < limit page then
        if overrun then .undefined
        else if space page' < limit page' then .full page'
        else .reserved (reserved page' (space page')) (slot page')
      else .reserved (reserved page (space page)) (slot page) := by
  rw [hfirst]
  by_cases hspace : space page < limit page
  · rw [if_pos hspace, if_pos hspace]
    by_cases hoverrun : overrun
    · rw [if_pos hoverrun, if_pos hoverrun]
    · rw [if_neg hoverrun, if_neg hoverrun]
      dsimp only
      rw [hsecond hoverrun]
      split_ifs <;> rfl
  · rw [if_neg hspace, if_neg hspace]

theorem btrReserveSlot_eq (hcount : page.irtRpt.length ≤ maxIdx page.pageSize)
    (hsize : page.pageSize ≤ 16384) (hpage : page' = extendSlots page useIdxId)
    (hmoved : highWater page'.pageSize page'.irtRpt + moved page'.irtRpt ≤ page'.pageSize)
    (hle : idx.idxCount * irtdSize ≤ highWater page'.pageSize page'.irtRpt) :
    btrReserveSlot page idx useIdxId transaction =
      let l := idx.idxCount * irtdSize
      let page'' := compressed page'
      if highWater page'.pageSize page'.irtRpt - l < slotOffset (page'.irtRpt.length + 1) then
        if page'.pageSize < slotOffset page'.irtRpt.length + moved page'.irtRpt then .undefined
        else if highWater page''.pageSize page''.irtRpt - l < slotOffset
          (page''.irtRpt.length + 1) then
          .full page''
        else
          .reserved (reservedPage page'' idx useIdxId transaction
            (highWater page''.pageSize page''.irtRpt - l)) (newSlot page'' useIdxId)
      else
        .reserved (reservedPage page' idx useIdxId transaction
          (highWater page'.pageSize page'.irtRpt - l)) (newSlot page' useIdxId) := by
  have hsizeExt := @pageSize_extendSlots page useIdxId
  rw [← hpage] at hsizeExt
  have hlt : page'.pageSize < 2 ^ 16 := by omega
  have hfirst := @tryReserve_of_le page' idx useIdxId transaction hlt hle
  have hsecond (hoverrun : ¬ page'.pageSize < slotOffset page'.irtRpt.length + moved
    page'.irtRpt) :=
    @tryReserve_of_le (compressed page') idx useIdxId transaction
      ((pageSize_compressed page').trans_lt hlt)
      (hle.trans (highWater_le_compressed hmoved (Nat.le_of_not_lt hoverrun)))
  rw [btrReserveSlot, if_neg (Nat.not_lt.2 hcount), ← hpage]
  dsimp only at hfirst hsecond ⊢
  rw [compressRoot_eq]
  exact retry_eq page' (compressed page') tryReserve
    (fun page => highWater page.pageSize page.irtRpt - idx.idxCount * irtdSize)
    (fun page => slotOffset (page.irtRpt.length + 1))
    (fun page space => reservedPage page idx useIdxId transaction space)
    (fun page => newSlot page useIdxId) hfirst hsecond

theorem meets_of_safe (h : Layout page) (hmin : 1024 ≤ page.pageSize)
    (hsize : page.pageSize ≤ 16384) (hid : ∀ id ∈ useIdxId, id ≤ maxIdx page.pageSize)
    (hcount : page.irtRpt.length ≤ maxIdx page.pageSize) (hsafe : Safe page idx useIdxId) :
    Meets page idx (btrReserveSlot page idx useIdxId transaction) := by
  have hfit := slotOffset_slotCount_le hmin hid hcount
  have hext := layout_extendSlots h hsafe.extension
  have hkept := kept_extendSlots hsafe.extension
  have hmoved := highWater_add_moved_le hext
  have hle := hsafe.le_space
  have hroom : slotOffset (slotCount page useIdxId + 1) + idx.idxCount * irtdSize ≤
        highWater page.pageSize page.irtRpt ∨ Clear (extendSlots page useIdxId) := by
    refine hsafe.room.imp id fun hclear n s hs hroot => ?_
    rw [pageSize_extendSlots, moved_extendSlots]
    exact hclear n s (has_extendSlots.1 hs) hroot
  rw [← @highWater_extendSlots page useIdxId] at hle hroom
  rw [← @length_extendSlots page useIdxId] at hfit hroom
  rw [← @pageSize_extendSlots page useIdxId] at hfit
  rw [btrReserveSlot_eq hcount hsize rfl hmoved hle]
  generalize extendSlots page useIdxId = page' at *
  have hfit' : slotOffset page'.irtRpt.length ≤ page'.pageSize := by
    rw [slotOffset] at hfit ⊢
    omega
  have hoffset := hext.slotOffset_le hfit'
  refine Meets.of_kept hkept ?_
  simp only
  split_ifs with hspace hoverrun hspace'
  · omega
  · exact kept_compressed hext hfit' (hroom.resolve_left (by omega))
  · have hclear := hroom.resolve_left (by omega)
    have hwater := highWater_le_compressed hmoved (Nat.le_of_not_lt hoverrun)
    refine Meets.of_kept (kept_compressed hext hfit' hclear) ?_
    exact reserved_meets (layout_compressed hext hfit' hclear) (by omega) (by omega)
  · exact reserved_meets hext (by omega) (by omega)

theorem has_reservedPage (hs : page.Has n s) :
    (reservedPage page idx useIdxId transaction space).Has n s := by
  have hn : n ≠ newSlot page useIdxId := by
    rintro rfl
    exact not_has_newSlot hs
  refine ⟨?_, hs.2⟩
  rw [reservedPage]
  simp only
  rw [getElem?_withSlot newSlot_le, if_neg hn, hs.1]

theorem le_space_of_meets (hsize : page.pageSize ≤ 16384)
    (hid : ∀ id ∈ useIdxId, id ≤ maxIdx page.pageSize)
    (hcount : page.irtRpt.length ≤ maxIdx page.pageSize) (hmin : 1024 ≤ page.pageSize)
    (h : Meets page idx (btrReserveSlot page idx useIdxId transaction)) :
    idx.idxCount * irtdSize ≤ highWater page.pageSize page.irtRpt := by
  by_contra hlt
  have hfit := slotOffset_slotCount_le hmin hid hcount
  have hmax := idx.le_max
  have hwater := @highWater_extendSlots page useIdxId
  have hlength := @length_extendSlots page useIdxId
  have hsizeExt := @pageSize_extendSlots page useIdxId
  rw [← hlength] at hfit
  have hwraps : ¬ (highWater (extendSlots page useIdxId).pageSize
      (extendSlots page useIdxId).irtRpt + 2 ^ 16 - idx.idxCount * irtdSize) % 2 ^ 16 <
      slotOffset ((extendSlots page useIdxId).irtRpt.length + 1) := by
    rw [maxIndexSegments] at hmax
    rw [irtdSize] at hlt ⊢
    omega
  have hfirst := tryReserve_eq (extendSlots page useIdxId) idx useIdxId transaction
  rw [if_neg hwraps] at hfirst
  rw [btrReserveSlot_first hcount hfirst] at h
  generalize extendSlots page useIdxId = page' at *
  rw [irtdSize] at hlt
  obtain ⟨-, hlayout, -⟩ := h
  have hinside := hlayout.inside (n := newSlot page' useIdxId)
    ⟨(getElem?_withSlot newSlot_le).trans (if_pos rfl), used_reservedSlot⟩
  rw [IrtRepeat.size, reservedSlot, irtdSize] at hinside
  simp only [reservedPage] at hinside
  omega

theorem Kept.byte_eq (h : Kept page page') (hs : page.Has n s) (ht : page'.irtRpt[n]? = some t)
    {i : Nat} (hi : i < s.size) : page'.bytes (t.irtDesc + i) = page.bytes (s.irtDesc + i) := by
  obtain ⟨t', ht', -, hkeys, -, hload⟩ := h n s hs
  rw [ht] at ht'
  cases ht'
  have hsize : t.size = s.size := by rw [IrtRepeat.size, IrtRepeat.size, hkeys]
  rw [hsize] at hload
  exact load_apply hload hi

theorem Packed.byte_eq {temp bytes : Nat → UInt8} {low high i : Nat} {s' : IrtRepeat}
    (h : Packed temp bytes low high s s') (hroot : s.irtRoot ≠ 0) (hi : i < s.size) :
    bytes (s'.irtDesc + i) = temp (s.irtDesc + i) := by
  have hload := h.load_eq hroot
  have hsize : s'.size = s.size := by rw [IrtRepeat.size, IrtRepeat.size, h.keys_eq]
  rw [hsize] at hload
  exact load_apply hload hi

theorem extension_of_meets (hlayout : Layout page) (hmin : 1024 ≤ page.pageSize)
    (hsize : page.pageSize ≤ 16384) (hid : ∀ id ∈ useIdxId, id ≤ maxIdx page.pageSize)
    (hcount : page.irtRpt.length ≤ maxIdx page.pageSize) (hbytes : ∀ x, page.bytes x = 255)
    (h : Meets page idx (btrReserveSlot page idx useIdxId transaction)) (hs : page.Has n s) :
    slotOffset (slotCount page useIdxId) ≤ s.irtDesc := by
  by_contra hlt
  have hle := le_space_of_meets hsize hid hcount hmin h
  have hpos : 0 < s.size := by
    have := hlayout.keys_pos hs
    rw [IrtRepeat.size, irtdSize]
    omega
  have hzero : (extendSlots page useIdxId).bytes s.irtDesc = 0 := by
    rw [extendSlots_bytes, if_pos ⟨hlayout.above hs, by omega⟩]
  have hext : (extendSlots page useIdxId).Has n s := has_extendSlots.2 hs
  have hlength := @length_extendSlots page useIdxId
  have hsizeExt := @pageSize_extendSlots page useIdxId
  have hmoved := highWater_add_moved_le hlayout
  rw [← @moved_extendSlots page useIdxId, ← @highWater_extendSlots page useIdxId, ←
    hsizeExt] at hmoved
  rw [← @highWater_extendSlots page useIdxId] at hle
  -- free slots are not written when the page is compressed
  have hframe : slotOffset (slotCount page useIdxId) + moved (extendSlots page useIdxId).irtRpt ≤
      (extendSlots page useIdxId).pageSize →
      (compressed (extendSlots page useIdxId)).bytes s.irtDesc = 0 := by
    intro hfit
    rw [← hlength] at hfit
    obtain ⟨k, hk⟩ := @extendSlots_irtRpt page useIdxId
    have habove := hlayout.above hs
    rw [slotOffset] at habove hlt
    rw [← hlength, hk, length_append, length_replicate] at hlt
    have hfree : (extendSlots page useIdxId).irtRpt[(s.irtDesc - 20) / 12]? =
        some ⟨0, 0, 0, 0, 0⟩ := by
      rw [hk, getElem?_append_right (by omega), getElem?_replicate, if_pos (by omega)]
    rw [← hzero]
    exact (packs_compressed hfit).slot_frame hfree rfl (by rw [slotOffset]; omega)
      (by rw [slotOffset]; omega)
  rw [btrReserveSlot_eq hcount hsize rfl hmoved hle] at h
  rw [← hlength] at hlt hframe
  generalize extendSlots page useIdxId = page' at *
  simp only at h
  -- the descriptors of the index after the page is compressed
  have hchanged (hfit : slotOffset page'.irtRpt.length + moved page'.irtRpt ≤ page'.pageSize) :
      ∃ s', (compressed page').Has n s' ∧ (compressed page').bytes s'.irtDesc = 0 := by
    obtain ⟨s', hs', hpacked⟩ := (packs_compressed hfit).packed hext.1
    have hused : s'.used = true := by
      rw [IrtRepeat.used, IrtRepeat.inProgress, hpacked.root_eq, hpacked.flags_eq]
      exact hs.2
    refine ⟨s', ⟨hs', hused⟩, ?_⟩
    by_cases hroot : s.irtRoot = 0
    · rw [hpacked.same hroot]
      exact hframe hfit
    · exact (hpacked.byte_eq hroot hpos).trans hzero
  split_ifs at h with hspace hoverrun hspace'
  · exact h
  · obtain ⟨s', hs', hzero'⟩ := hchanged (Nat.le_of_not_lt hoverrun)
    have hhead := h.byte_eq hs hs'.1 hpos
    rw [hbytes, Nat.add_zero, hzero'] at hhead
    exact absurd hhead (by decide)
  · obtain ⟨hkept, -⟩ := h
    obtain ⟨s', hs', hzero'⟩ := hchanged (Nat.le_of_not_lt hoverrun)
    have hwater := highWater_le_compressed hmoved (Nat.le_of_not_lt hoverrun)
    have hdesc := highWater_le_of_has hs'
    have hnew := @has_reservedPage _ idx useIdxId transaction _ _
      (highWater (compressed page').pageSize (compressed page').irtRpt - idx.idxCount * irtdSize)
        hs'
    have hhead := hkept.byte_eq hs hnew.1 hpos
    rw [Nat.add_zero, reservedPage_bytes (by omega) (.inr (by omega)), hbytes, hzero'] at hhead
    exact absurd hhead (by decide)
  · obtain ⟨-, hlayout', -⟩ := h
    have habove := hlayout'.above (has_reservedPage hext)
    have hlength' := (length_withSlot_le page'.irtRpt (newSlot page' useIdxId)
      (reservedSlot page' idx useIdxId transaction
        (highWater page'.pageSize page'.irtRpt - idx.idxCount * irtdSize))).1
    rw [slotOffset, reservedPage] at habove
    rw [slotOffset] at hlt
    simp only at habove
    omega

theorem clear_of_meets (hlayout : Layout page) (hmin : 1024 ≤ page.pageSize)
    (hsize : page.pageSize ≤ 16384) (hid : ∀ id ∈ useIdxId, id ≤ maxIdx page.pageSize)
    (hcount : page.irtRpt.length ≤ maxIdx page.pageSize)
    (hone : ∀ {n s x}, page.Has n s → s.irtRoot ≠ 0 → s.irtDesc ≤ x → x < s.irtDesc + s.size →
      page.bytes x = 255)
    (hzero : ∀ {n s x}, page.Has n s → s.irtRoot = 0 → s.irtDesc ≤ x → x < s.irtDesc + s.size →
      page.bytes x = 0)
    (hext : ∀ {n s}, page.Has n s → slotOffset (slotCount page useIdxId) ≤ s.irtDesc)
    (h : Meets page idx (btrReserveSlot page idx useIdxId transaction))
    (hfull : highWater page.pageSize page.irtRpt <
      slotOffset (slotCount page useIdxId + 1) + idx.idxCount * irtdSize) : Clear page := by
  intro n s hs hroot
  by_contra hlt
  have hle := le_space_of_meets hsize hid hcount hmin h
  have hfit := slotOffset_slotCount_le hmin hid hcount
  have hlayoutExt := layout_extendSlots hlayout hext
  have hmoved := highWater_add_moved_le hlayoutExt
  have hbytes {m : Nat} {t : IrtRepeat} {x : Nat} (ht : page.Has m t) (hx : t.irtDesc ≤ x) :
      (extendSlots page useIdxId).bytes x = page.bytes x := by
    have := hext ht
    rw [extendSlots_bytes, if_neg (by omega)]
  have hsExt : (extendSlots page useIdxId).Has n s := has_extendSlots.2 hs
  have hinside := hlayout.inside hs
  -- a byte of the index that is moved over
  obtain ⟨x, hx, hx', hxlow⟩ : ∃ x, s.irtDesc ≤ x ∧ x < s.irtDesc + s.size ∧
      page.pageSize - moved page.irtRpt ≤ x := by
    refine ⟨max s.irtDesc (page.pageSize - moved page.irtRpt), by omega, ?_, by omega⟩
    have hpos := hlayout.keys_pos hs
    rw [IrtRepeat.size, irtdSize] at hlt hinside ⊢
    omega
  rw [← @highWater_extendSlots page useIdxId] at hle hfull
  rw [← @length_extendSlots page useIdxId] at hfit hfull
  rw [← @pageSize_extendSlots page useIdxId] at hfit hinside hxlow
  rw [← @moved_extendSlots page useIdxId] at hxlow
  rw [btrReserveSlot_eq hcount hsize rfl hmoved hle] at h
  have hhas {m : Nat} {t : IrtRepeat} (ht : (extendSlots page useIdxId).Has m t) : page.Has m t :=
    has_extendSlots.1 ht
  generalize extendSlots page useIdxId = page' at *
  have hfit' : slotOffset page'.irtRpt.length ≤ page'.pageSize := by
    rw [slotOffset] at hfit ⊢
    omega
  have hoffset := hlayoutExt.slotOffset_le hfit'
  have hpacks := @packs_compressed page' (by omega)
  simp only at h
  obtain ⟨m, t', ht', hroot', hdesc, hdesc'⟩ := hpacks.cover hxlow (by omega)
  obtain ⟨t, ht, hpacked⟩ := hpacks.source ht'
  have htroot : t.irtRoot ≠ 0 := by rwa [← hpacked.root_eq]
  have htsize : t'.size = t.size := by rw [IrtRepeat.size, IrtRepeat.size, hpacked.keys_eq]
  have htHas := hhas (m := m) ⟨ht, by simp [IrtRepeat.used, htroot]⟩
  have htHas' : (compressed page').Has m t' := ⟨ht', by simp [IrtRepeat.used, hroot']⟩
  obtain ⟨s', hs', hsame⟩ := hpacks.packed hsExt.1
  obtain rfl := hsame.same hroot
  have hsHas' : (compressed page').Has n s' := ⟨hs', hs.2⟩
  split_ifs at h with hspace hoverrun hspace'
  · omega
  · have hbyte := h.byte_eq hs hs' (i := x - s'.irtDesc) (by omega)
    have hbyte' := hpacked.byte_eq htroot (i := x - t'.irtDesc) (by omega)
    rw [Nat.add_sub_cancel' hx, hzero hs hroot hx hx'] at hbyte
    rw [Nat.add_sub_cancel' hdesc, hbytes htHas (by omega),
      hone htHas htroot (by omega) (by omega)] at hbyte'
    exact absurd (hbyte.symm.trans hbyte') (by decide)
  · obtain ⟨-, hlayout', -⟩ := h
    have hne : n ≠ m := by
      rintro rfl
      rw [hs'] at ht'
      cases ht'
      exact hroot' hroot
    have hapart := hlayout'.apart (has_reservedPage hsHas') (has_reservedPage htHas') hne
    rw [Apart] at hapart
    omega
  · omega

end

/-- A reservation on a page does what it is for, whatever the descriptors of the page are, exactly
if there are too many slots or it is safe. -/
theorem btrReserveSlot_meets_iff (page : IndexRootPage) (h : Layout page)
    (hmin : 1024 ≤ page.pageSize) (hsize : page.pageSize ≤ 16384) (idx : NewIndex)
    (useIdxId : Option Nat) (hid : ∀ id ∈ useIdxId, id ≤ maxIdx page.pageSize)
    (transaction : Option Int) :
    (∀ bytes, Meets { page with bytes := bytes } idx
      (btrReserveSlot { page with bytes := bytes } idx useIdxId transaction)) ↔
    maxIdx page.pageSize < page.irtRpt.length ∨ Safe page idx useIdxId := by
  have hlayout (bytes : Nat → UInt8) : Layout { page with bytes := bytes } :=
    ⟨h.keys_pos, h.above, h.inside, h.apart⟩
  rcases Nat.lt_or_ge (maxIdx page.pageSize) page.irtRpt.length with hcount | hcount
  · refine iff_of_true (fun bytes => ?_) (.inl hcount)
    rw [btrReserveSlot, if_pos hcount]
    trivial
  rw [or_iff_right (Nat.not_lt.2 hcount)]
  constructor
  · intro hmeets
    have hext {n : Nat} {s : IrtRepeat} (hs : page.Has n s) :
        slotOffset (slotCount page useIdxId) ≤ s.irtDesc :=
      @extension_of_meets { page with bytes := fun _ => 255 } idx useIdxId transaction n s
        (hlayout fun _ => 255) hmin hsize hid hcount (fun _ => rfl) (hmeets fun _ => 255) hs
    refine ⟨hext, le_space_of_meets hsize hid hcount hmin (hmeets page.bytes), ?_⟩
    rw [or_iff_not_imp_left, Nat.not_le]
    intro hfull
    -- the descriptors of the indices with a root are told from all other bytes
    classical
    let bytes : Nat → UInt8 := fun x =>
      if ∃ n s, page.Has n s ∧ s.irtRoot ≠ 0 ∧ s.irtDesc ≤ x ∧ x < s.irtDesc + s.size then 255 else
        0
    refine @clear_of_meets { page with bytes := bytes } idx useIdxId transaction (hlayout bytes)
      hmin hsize hid hcount (fun hs hroot hx hx' => ?_) (fun {n s x} hs hroot hx hx' => ?_) hext
      (hmeets bytes) hfull
    · exact if_pos ⟨_, _, hs, hroot, hx, hx'⟩
    · refine if_neg ?_
      rintro ⟨m, t, ht, hroot', ht', ht''⟩
      have hne : n ≠ m := by
        rintro rfl
        obtain rfl := Option.some.inj (hs.1.symm.trans ht.1)
        exact hroot' hroot
      have hapart := h.apart hs ht hne
      rw [Apart] at hapart
      omega
  · intro hsafe bytes
    exact meets_of_safe (hlayout bytes) hmin hsize hid hcount
      ⟨hsafe.extension, hsafe.le_space, hsafe.room⟩

/-- An index of 16 segments when only the last one of eight indices is left, which has one segment,
on a page of 1024 bytes. -/
theorem not_btrReserveSlot_meets :
    ¬ ∀ (page : IndexRootPage) (idx : NewIndex) (transaction : Option Int), Layout page →
      1024 ≤ page.pageSize → page.pageSize ≤ 16384 →
      Meets page idx (btrReserveSlot page idx none transaction) := by
  intro h
  let page : IndexRootPage :=
    ⟨1024, replicate 7 ⟨0, 0, 0, 0, 0⟩ ++ [⟨300, 0, 120, 1, 0⟩], fun _ => 0⟩
  let idx : NewIndex := ⟨16, 0, replicate 128 0, by decide, by decide, length_replicate⟩
  have hhas {n : Nat} {s : IrtRepeat} (hs : page.Has n s) : n = 7 ∧ s = ⟨300, 0, 120, 1, 0⟩ := by
    obtain ⟨hs, hused⟩ := hs
    have hn : n < 8 := (List.getElem?_eq_some_iff.1 hs).1
    obtain rfl | hlt : n = 7 ∨ n < 7 := by omega
    · exact ⟨rfl, (Option.some.inj hs).symm⟩
    · rw [getElem?_append_left (by simpa using hlt)] at hs
      obtain rfl := eq_of_mem_replicate (mem_of_getElem? hs)
      exact absurd hused (by decide)
  have hlayout : Layout page := by
    refine ⟨fun hs => ?_, fun hs => ?_, fun hs => ?_, fun hs ht hne => ?_⟩
    · rw [(hhas hs).2]
    · rw [(hhas hs).2]
      decide
    · rw [(hhas hs).2]
      decide
    · exact absurd ((hhas hs).1.trans (hhas ht).1.symm) hne
  have hle := le_space_of_meets (by decide) (by simp) (by decide) (by decide)
    (h page idx none hlayout (by decide) (by decide))
  exact absurd hle (by decide)

/-- An index of 8 segments on a page with two complete indices, a free slot and an index under
construction. There is no room above the slots before the descriptors are moved. -/
theorem btrReserveSlot_meets_moved :
    let page : IndexRootPage := ⟨1024, [⟨300, 0, 100, 2, 0⟩, ⟨0, 0, 0, 0, 0⟩, ⟨0, 7, 900, 3, 4⟩,
      ⟨301, 0, 1000, 1, 1⟩], UInt8.ofNat⟩
    let idx : NewIndex := ⟨8, 1, replicate 64 9, by decide, by decide, by decide⟩
    tryReserve page idx none (some 8) = none ∧
      Meets page idx (btrReserveSlot page idx none (some 8)) := by
  intro page idx
  have hhas {n : Nat} {s : IrtRepeat} (hs : page.Has n s) :
      n = 0 ∧ s = ⟨300, 0, 100, 2, 0⟩ ∨ n = 2 ∧ s = ⟨0, 7, 900, 3, 4⟩ ∨
        n = 3 ∧ s = ⟨301, 0, 1000, 1, 1⟩ := by
    obtain ⟨hs, hused⟩ := hs
    have hn : n < 4 := (List.getElem?_eq_some_iff.1 hs).1
    obtain rfl | rfl | rfl | rfl : n = 0 ∨ n = 1 ∨ n = 2 ∨ n = 3 := by omega
    · exact .inl ⟨rfl, (Option.some.inj hs).symm⟩
    · obtain rfl := Option.some.inj hs
      exact absurd hused (by decide)
    · exact .inr (.inl ⟨rfl, (Option.some.inj hs).symm⟩)
    · exact .inr (.inr ⟨rfl, (Option.some.inj hs).symm⟩)
  have hlayout : Layout page := by
    constructor
    · intro n s hs
      obtain ⟨-, rfl⟩ | ⟨-, rfl⟩ | ⟨-, rfl⟩ := hhas hs <;> decide
    · intro n s hs
      obtain ⟨-, rfl⟩ | ⟨-, rfl⟩ | ⟨-, rfl⟩ := hhas hs <;> decide
    · intro n s hs
      obtain ⟨-, rfl⟩ | ⟨-, rfl⟩ | ⟨-, rfl⟩ := hhas hs <;> decide
    · intro m n s t hs ht hne
      obtain ⟨rfl, rfl⟩ | ⟨rfl, rfl⟩ | ⟨rfl, rfl⟩ := hhas hs <;>
        obtain ⟨rfl, rfl⟩ | ⟨rfl, rfl⟩ | ⟨rfl, rfl⟩ := hhas ht <;>
        first | exact absurd rfl hne | simp [Apart, IrtRepeat.size, irtdSize]
  have hsafe : Safe page idx none := by
    refine ⟨fun hs => hlayout.above hs, by decide, .inr fun n s hs hroot => ?_⟩
    obtain ⟨-, rfl⟩ | ⟨-, rfl⟩ | ⟨-, rfl⟩ := hhas hs <;> revert hroot <;> decide
  exact ⟨by decide, (btrReserveSlot_meets_iff page hlayout (by decide) (by decide) idx none
    (by simp) (some 8)).2 (.inr hsafe) UInt8.ofNat⟩

end Firebird.Jrd.BtrRoot
