import Mathlib.Logic.Equiv.Basic
import Firebird.Jrd.DpmSpace

/-!
# Records stored and replaced

Each function keeps the layout of the page and the records of the slots it does not name, and none
of its 16-bit variables overflows.
-/
namespace Firebird.Jrd.Dpm

open Lib List

theorem toUInt8_flags (a b : UInt8) : (a.toUInt16 ||| b.toUInt16 <<< 8).toUInt8 = a := by
  have hb : (b.toUInt16 <<< 8).toUInt8 = 0 := by
    apply UInt8.toNat_inj.1
    simp [Nat.shiftLeft_eq]
  rw [UInt16.toUInt8_or, UInt8.toUInt8_toUInt16, hb, UInt8.or_zero]

variable {page : DataPage} {line : Nat}

theorem getD_record {k : Nat} (h : k < (page.slot line).dpgLength) :
    (page.record line).getD k 0 = page.bytes ((page.slot line).dpgOffset + k) := by
  unfold DataPage.record
  rw [getD_eq_getElem _ _ (by simpa using h), getElem_map, getElem_range]

theorem le_of_reserves (h : Long (page.record line))
    (hr : page.reserves (page.slot line).dpgOffset) : 17 ≤ (page.slot line).dpgLength := by
  rw [← length_record]
  obtain h | ⟨hlen, hbit⟩ := h
  · exact h
  · rw [length_record] at hlen
    rw [getD_record (by omega)] at hbit
    have hflags := (of_decide_eq_true hr).2
    refine absurd ?_ hbit
    have hlow := congrArg (fun x : UInt16 => x.toUInt8 &&& 1) hflags
    simp only [DataPage.rhdFlags, UInt16.toUInt8_and, toUInt8_flags, UInt8.and_assoc] at hlow
    exact hlow

theorem and_one_toUInt8 {x : UInt16} (h : x &&& 1 ≠ 0) : x.toUInt8 &&& 1 ≠ 0 := by
  intro h'
  apply h
  have hmod := congrArg UInt8.toNat h'
  apply UInt16.toNat_inj.1
  rw [UInt8.toNat_and, UInt16.toNat_toUInt8] at hmod
  rw [UInt16.toNat_and]
  change x.toNat % 2 ^ 8 &&& 1 = 0 at hmod
  change x.toNat &&& 1 = 0
  rw [Nat.and_one_is_mod] at hmod ⊢
  omega

theorem or_and_one {x : UInt8} (h : x &&& 1 ≠ 0) (y : UInt8) : (x ||| y) &&& 1 ≠ 0 := by
  have hdist : (x ||| y) &&& 1 = (x &&& 1) ||| (y &&& 1) :=
    UInt8.toBitVec_inj.1 BitVec.and_or_distrib_right
  rw [hdist]
  exact fun h' => h (UInt8.or_eq_zero_iff.1 h').1

theorem bytes_setFlags (page : DataPage) (offset : Nat) (f : UInt16 → UInt16) :
    (page.setFlags offset f).bytes (offset + 10) = (f (page.rhdFlags offset)).toUInt8 := by
  simp [DataPage.setFlags, DataPage.write, store, le16]

theorem setFlags_outside {offset a : Nat} (f : UInt16 → UInt16)
    (h : a < offset ∨ offset + 12 ≤ a) : (page.setFlags offset f).bytes a = page.bytes a :=
  write_outside (n := 12) (by simp [le16]) h

theorem bytes_record (page : DataPage) (offset : Nat) (rpb : Rpb) (data : List UInt8) (fill : Int) :
    (page.write offset (rpb.record data fill)).bytes (offset + 10) = rpb.rpbFlags.toUInt8 := by
  simp [DataPage.write, Rpb.record, Rpb.rhd, store, le16, le32]

theorem record_fits {rpb : Rpb} {data : List UInt8} {fill : Nat} :
    ∀ f ∈ rpb.record data fill, f.1 + f.2.length ≤ 13 + data.length + fill := by
  intro f hf
  simp only [Rpb.record, Rpb.rhd, cons_append, nil_append, mem_cons, not_mem_nil, or_false] at hf
  obtain rfl | rfl | rfl | rfl | rfl | rfl := hf <;> simp [le16, le32] <;> omega

variable {n : Nat}

theorem ushort_record {fill : Nat} (h : 13 + n + fill < 2 ^ 16) :
    ushort (rhdSize + n + fill) = 13 + n + fill := ushort_natCast h

/-- The number of records for which `find_space` leaves space. -/
def reserved (reserves : Nat → Bool) (slots : List DpgRepeat) : Nat :=
  slots.countP fun s => s.dpgOffset ≠ 0 && reserves s.dpgOffset

theorem reserved_cons (reserves : Nat → Bool) (s : DpgRepeat) (slots : List DpgRepeat) :
    reserved reserves (s :: slots) = reserved reserves slots +
      if s.dpgOffset ≠ 0 ∧ reserves s.dpgOffset then 1 else 0 := by
  unfold reserved
  rw [countP_cons]
  simp

theorem reserved_le {reserves : Nat → Bool} {slots : List DpgRepeat}
    (h : ∀ s ∈ slots, s.dpgOffset ≠ 0 → reserves s.dpgOffset → 17 ≤ s.dpgLength) :
    24 * reserved reserves slots ≤ total slots + 4 * slots.length := by
  induction slots with
  | nil => exact Nat.le_refl _
  | cons s slots ih =>
    have ih := ih fun t ht => h t (mem_cons_of_mem s ht)
    rw [reserved_cons, total_cons, length_cons]
    by_cases hs : s.dpgOffset ≠ 0 ∧ reserves s.dpgOffset
    · have := h s mem_cons_self hs.1 hs.2
      have hr : 20 ≤ rup s.dpgLength := by
        unfold rup
        omega
      rw [if_pos hs, if_neg hs.1]
      omega
    · rw [if_neg hs]
      omega

theorem findSlots_gives (reserves : Nat → Bool) (slots : List DpgRepeat) :
    ∀ i space used slot : Nat, space ≤ 16384 →
      used + total slots + 22 * reserved reserves slots < 2 ^ 15 →
      (∀ s ∈ slots, s.dpgOffset ≤ 16384) →
      ∃ slot', Gives (fun w => findSlots w reserves slots i space used slot)
          ((lowest slots space : Int),
            ((used + total slots + 22 * reserved reserves slots : Nat) : Int), slot') ∧
        (slot' = slot ∨ ∃ k s, slot' = i + k ∧ slots[k]? = some s ∧ s.dpgOffset = 0) := by
  induction slots with
  | nil => exact fun i space used slot _ _ _ => ⟨slot, gives_some _, .inl rfl⟩
  | cons s slots ih =>
    intro i space used slot hspace hused hoff
    have hrest := fun t ht => hoff t (mem_cons_of_mem s ht)
    rw [total_cons, reserved_cons] at hused ⊢
    rw [lowest_cons]
    by_cases hz : s.dpgOffset = 0
    · have hno : ¬(s.dpgOffset ≠ 0 ∧ reserves s.dpgOffset) := fun h => h.1 hz
      rw [if_neg hno, if_pos hz] at hused ⊢
      rw [if_pos hz]
      obtain ⟨slot', hgives, hor⟩ := ih (i + 1) space used (if slot = 0 then i else slot) hspace
        (by omega) hrest
      refine ⟨slot', ?_, ?_⟩
      · simp only [Nat.zero_add]
        exact hgives.ite_neg fun h => h hz
      · obtain rfl | ⟨k, t, rfl, ht, hl⟩ := hor
        · split_ifs with h
          · exact .inr ⟨0, s, rfl, rfl, hz⟩
          · exact .inl rfl
        · exact .inr ⟨k + 1, t, by omega, ht, hl⟩
    · rw [if_neg hz] at hused ⊢
      rw [if_neg hz]
      obtain ⟨slot', hgives, hor⟩ := ih (i + 1) (min space s.dpgOffset)
        (used + rup s.dpgLength + if s.dpgOffset ≠ 0 ∧ reserves s.dpgOffset then 22 else 0) slot
        (by omega) (by split_ifs at hused ⊢ <;> omega) hrest
      refine ⟨slot', ?_, ?_⟩
      · simp only [findSlots, roundup_natCast]
        refine Gives.ite_pos ((gives_min (by omega)).bind ((gives_add (by omega)).bind ?_)) hz
        by_cases hr : reserves s.dpgOffset
        · rw [if_pos ⟨hz, hr⟩] at hused hgives ⊢
          refine Gives.ite_pos ((gives_add (n := 22) (by omega)).bind ?_) hr
          convert hgives using 4
          omega
        · have hno : ¬(s.dpgOffset ≠ 0 ∧ reserves s.dpgOffset) := fun h => hr h.2
          rw [if_neg hno] at hused hgives ⊢
          refine Gives.ite_neg ((gives_some _).bind ?_) hr
          convert hgives using 4 <;> omega
      · obtain rfl | ⟨k, t, rfl, ht, hl⟩ := hor
        · exact .inl rfl
        · exact .inr ⟨k + 1, t, by omega, ht, hl⟩

/-- A record that has been placed in a slot that was empty. -/
structure Placed (page page' : DataPage) (slot n : Nat) : Prop extends Next page page' [slot] where
  free : (page.slot slot).dpgOffset = 0
  used : (page'.slot slot).dpgOffset ≠ 0
  length : (page'.slot slot).dpgLength = n

theorem takeSpace_gives (h : Laid page) {slot : Nat} (hlo : 17 ≤ n)
    (hhi : n ≤ 32764) (hslot : slot ≠ 0 → slot < page.dpgCount ∧ (page.slot slot).dpgOffset = 0)
    (hfit : 24 + 4 * page.dpgCount + (if slot = 0 then 4 else 0) + total page.dpgRpt + rup n ≤
      page.dbbPageSize) :
    ∃ slot' page', Gives (fun w => takeSpace w page n (rup n)
        (lowest page.dpgRpt page.dbbPageSize) slot) (slot', page') ∧ Placed page page' slot' n := by
  have hsize := h.size
  -- the slot that is taken
  obtain ⟨slot', hslot', hfree, hcount⟩ : ∃ slot', (if slot = 0 then page.dpgCount else slot) =
    slot' ∧
      (slot' ≤ page.dpgCount ∧ (page.slot slot').dpgOffset = 0) ∧
      24 + 4 * (page.extend slot').dpgCount = 24 + 4 * page.dpgCount + if slot = 0 then 4 else
        0 := by
    refine ⟨_, rfl, ?_⟩
    by_cases h0 : slot = 0
    · rw [if_pos h0, if_pos h0, dpgCount_extend, if_pos rfl, slot_of_ge (Nat.le_refl _)]
      exact ⟨⟨Nat.le_refl _, rfl⟩, rfl⟩
    · rw [if_neg h0, if_neg h0, dpgCount_extend, if_neg (hslot h0).1.ne]
      exact ⟨⟨(hslot h0).1.le, (hslot h0).2⟩, rfl⟩
  have htop : highWater ((page.dpgCount : Int) + if slot = 0 then 1 else 0) =
      ((24 + 4 * (page.extend slot').dpgCount : Nat) : Int) := by
    rw [hcount]
    unfold highWater sizeofDataPage sizeofDpgRepeat
    split_ifs <;> omega
  -- there is room below the records, at once or once they have been moved together
  obtain ⟨space, page', hgives, hroom, hspace⟩ : ∃ (space : Nat) (page' : DataPage),
      Gives (fun w => if (rup n : Int) > lowest page.dpgRpt page.dbbPageSize -
          highWater ((page.dpgCount : Int) + if slot = 0 then 1 else 0) then dpmCompress w page
        else some ((lowest page.dpgRpt page.dbbPageSize : Int), page)) ((space : Int), page') ∧
      Room page page' space ∧ 24 + 4 * (page.extend slot').dpgCount + rup n ≤ space := by
    rw [htop]
    by_cases hc : (rup n : Int) > lowest page.dpgRpt page.dbbPageSize -
        ((24 + 4 * (page.extend slot').dpgCount : Nat) : Int)
    · obtain ⟨page', hgives, hroom⟩ := dpmCompress_room h.toWellFormed h.size h.empty
      exact ⟨_, page', hgives.ite_pos hc, hroom, by omega⟩
    · exact ⟨_, page, (gives_some _).ite_neg hc, room_lowest h.toWellFormed, by omega⟩
  have hextend : (page'.extend slot').dpgCount = (page.extend slot').dpgCount := by
    rw [dpgCount_extend, dpgCount_extend, hroom.count]
  have hlt : slot' < (page'.extend slot').dpgCount := by
    rw [hextend, dpgCount_extend]
    split_ifs <;> omega
  have hle := hroom.le
  have hself := slot_setSlot_self hlt ⟨space - rup n, n⟩
  obtain ⟨hwf, hkept⟩ := hroom.place hfree.1 (hextend ▸ hspace)
  refine ⟨slot', (page'.extend slot').setSlot slot' ⟨space - rup n, n⟩, ?_, ⟨?_, ?_, hkept⟩,
    hfree.2, ?_, ?_⟩
  · refine Gives.ite_bind hgives ?_
    simp only [hroom.count, hslot']
    refine (gives_sub (by omega) (by omega)).bind ?_
    rw [ushort_natCast (by omega), ushort_natCast (by omega)]
    exact gives_some _
  · refine h.of_kept ((dbbPageSize_extend _ _).trans hroom.size) hwf hkept ?_ ?_ <;>
      intro i hi <;> rw [mem_singleton.1 hi]
    · intro hz
      rw [hself] at hz
      change space - rup n = 0 at hz
      omega
    · intro _
      refine .inl ?_
      rw [length_record, hself]
      exact hlo
  · exact (dbbPageSize_extend _ _).trans hroom.size
  · rw [hself]
    change space - rup n ≠ 0
    omega
  · rw [hself]

theorem findSpace_gives (h : Laid page) (hlo : 17 ≤ n) (hhi : n ≤ 32764)
    (primary reserving : Bool) :
    ∃ res, Gives (fun w => findSpace w page n primary reserving) res ∧
      ∀ slot page', res = some (slot, page') → Placed page page' slot n := by
  have hsize := h.size
  have htotal := h.total_le
  have hrup : rup n < 2 ^ 15 := by
    unfold rup
    omega
  let reserves : Nat → Bool := fun offset => primary && reserving && page.reserves offset
  have hreserved : 24 * reserved reserves page.dpgRpt ≤ total page.dpgRpt + 4 * page.dpgCount := by
    refine reserved_le fun s hs hne hr => ?_
    obtain ⟨i, rfl⟩ := exists_slot hs
    exact le_of_reserves (h.long i hne) (by grind)
  obtain ⟨slot, hgives, hslot⟩ := findSlots_gives reserves page.dpgRpt 0 page.dbbPageSize
    (24 + 4 * page.dpgCount) 0 hsize (by omega) fun s hs => h.offset_le hsize hs
  have hslot' : slot ≠ 0 → slot < page.dpgCount ∧ (page.slot slot).dpgOffset = 0 := by
    intro h0
    obtain h' | ⟨k, s, rfl, hk, hs⟩ := hslot
    · exact absurd h' h0
    · rw [Nat.zero_add]
      obtain ⟨hlt, rfl⟩ := slot_of_getElem? hk
      exact ⟨hlt, hs⟩
  let used := 24 + 4 * page.dpgCount + total page.dpgRpt + 22 * reserved reserves page.dpgRpt +
    if slot = 0 then 4 else 0
  have hused : Gives (fun w => if slot = 0 then w ((24 + 4 * page.dpgCount + total page.dpgRpt +
      22 * reserved reserves page.dpgRpt : Nat) + sizeofDpgRepeat) else
        some ((24 + 4 * page.dpgCount + total page.dpgRpt +
          22 * reserved reserves page.dpgRpt : Nat) : Int)) (used : Int) := by
    by_cases h0 : slot = 0
    · simp only [used, if_pos h0]
      exact gives_add (n := 4) (by omega)
    · simp only [used, if_neg h0]
      exact gives_some _
  have hscan : ∀ {res}, Gives (fun w => if (rup n : Int) > page.dbbPageSize - used then some none
    else do
      return some (← takeSpace w page n (rup n) (lowest page.dpgRpt page.dbbPageSize) slot)) res →
      Gives (fun w => findSpace w page n primary reserving) res := fun hres => by
    unfold findSpace
    rw [roundup_natCast, highWater_natCast]
    exact (gives_nat hrup).bind ((gives_nat (by omega)).bind ((gives_nat (by omega)).bind
      (hgives.bind (hused.ite_bind hres))))
  by_cases hfit : (rup n : Int) > page.dbbPageSize - used
  · exact ⟨none, hscan ((gives_some _).ite_pos hfit), fun _ _ h => nomatch h⟩
  · obtain ⟨slot', page', htake, hplaced⟩ := takeSpace_gives h hlo hhi hslot' (by omega)
    refine ⟨some (slot', page'), hscan (Gives.ite_neg (htake.bind (gives_some _)) hfit), ?_⟩
    rintro _ _ ⟨⟩
    exact hplaced

theorem storeRecord_gives (h : Laid page) (hlo : 17 ≤ n)
    (hhi : n ≤ 32764) (primary reserving : Bool) (record : List UInt8) :
    ∃ slot page', Gives (fun w => storeRecord w page n primary reserving record) (slot, page') ∧
      Next page page' slot.toList ∧ ∀ k, slot = some k → Placed page page' k n := by
  obtain ⟨res, hgives, hres⟩ := findSpace_gives h hlo hhi primary reserving
  cases res with
  | none => exact ⟨none, page, hgives.bind (gives_some _), h.next, fun _ h => nomatch h⟩
  | some res =>
    obtain ⟨slot, page'⟩ := res
    have hplaced := hres slot page' rfl
    have hwrite : Next page' (page'.write (page'.slot slot).dpgOffset [(0, record.take n)])
      [slot] := by
      refine hplaced.laid.write_long hplaced.used ?_ (hplaced.length ▸ hlo)
      intro f hf
      rw [mem_singleton.1 hf, hplaced.length]
      simp
    have hnext := (hplaced.toNext.trans hwrite).mono (append_subset.2 ⟨fun _ h => h, fun _ h => h⟩)
    refine ⟨some slot, _, hgives.bind (gives_some _), hnext, ?_⟩
    rintro _ ⟨⟩
    exact ⟨hnext, hplaced.free, hplaced.used, hplaced.length⟩

theorem lowerSpace_gives (h : WellFormed page) (hsize : page.dbbPageSize ≤ 16384)
    (hempty : ∀ i, (page.slot i).dpgOffset = 0 → (page.slot i).dpgLength = 0) {top : Nat}
    (hfit : top + rup n + total page.dpgRpt ≤ page.dbbPageSize) :
    ∃ (space : Nat) (page' : DataPage), Gives (fun w => lowerSpace w page
        (lowest page.dpgRpt page.dbbPageSize) (rup n) top) ((space : Int), page') ∧
      Room page page' (space + rup n) ∧ top ≤ space := by
  have hle := lowest_le page.dpgRpt page.dbbPageSize
  have hsub : Gives (fun w => w ((lowest page.dpgRpt page.dbbPageSize : Int) - (rup n : Int)))
      ((lowest page.dpgRpt page.dbbPageSize : Int) - (rup n : Int)) :=
    gives_assign (by omega) (by omega)
  by_cases hc : (lowest page.dpgRpt page.dbbPageSize : Int) - (rup n : Int) < top
  · obtain ⟨page', hgives, hroom⟩ := dpmCompress_room h hsize hempty
    refine ⟨page.dbbPageSize - total page.dpgRpt - rup n, page', ?_, ?_, by omega⟩
    · exact hsub.bind (Gives.ite_pos (hgives.bind ((gives_sub (by omega) (by omega)).bind
        (gives_some _))) hc)
    · rwa [Nat.sub_add_cancel (by omega)]
  · refine ⟨lowest page.dpgRpt page.dbbPageSize - rup n, page, ?_, ?_, by omega⟩
    · rw [Int.natCast_sub (by omega)]
      exact hsub.bind (Gives.ite_neg (gives_some _) hc)
    · rw [Nat.sub_add_cancel (by omega)]
      exact room_lowest h

/-- What holds where `DPM_chain` puts a new version into a slot and the old one into another. -/
structure Chaining (page page' : DataPage) (line slot space n : Nat) : Prop where
  laid : Laid page
  room : Room page page' (space + rup n)
  line : (page.slot line).dpgOffset ≠ 0
  le : slot ≤ page.dpgCount
  free : (page.slot slot).dpgOffset = 0
  top : 24 + 4 * (page.extend slot).dpgCount ≤ space

section Chain

variable {page page' : DataPage} {line slot space : Nat} {rpb : Rpb} {data : List UInt8}
    {fill : Nat}
  {pageNumber : UInt32}

theorem bytes_swapRecord : (swapRecord page' pageNumber line slot space rpb data fill).bytes =
    (((page'.extend slot).setFlags ((page'.extend slot).slot line).dpgOffset (· ||| rhdChain)).write
      (ushort space) (Rpb.record { rpb with rpbBPage := pageNumber, rpbBLine := slot.toUInt16 } data
        fill)).bytes := rfl

variable {n : Nat}

theorem Chaining.line_ne (h : Chaining page page' line slot space n) : line ≠ slot :=
  fun heq => h.line (heq ▸ h.free)

theorem Chaining.line_used (h : Chaining page page' line slot space n) :
    (page'.slot line).dpgOffset ≠ 0 :=
  mt (h.room.kept line not_mem_nil).1.1 h.line

theorem Chaining.length_eq (h : Chaining page page' line slot space n) (i : Nat) :
    (page'.slot i).dpgLength = (page.slot i).dpgLength := by
  rw [← length_record, (h.room.kept i not_mem_nil).2, length_record]

theorem Chaining.extend_count (h : Chaining page page' line slot space n) :
    (page'.extend slot).dpgCount = (page.extend slot).dpgCount := by
  rw [dpgCount_extend, dpgCount_extend, h.room.count]

theorem Chaining.lt (h : Chaining page page' line slot space n) :
    line < (page'.extend slot).dpgCount ∧ slot < (page'.extend slot).dpgCount := by
  have := h.le
  have := lt_of_used h.line
  rw [h.extend_count, dpgCount_extend]
  split_ifs <;> omega

theorem Chaining.fits (h : Chaining page page' line slot space n) : space + n ≤ 16384 := by
  have := h.room.le
  have := h.laid.size
  have := le_rup n
  omega

variable (h : Chaining page page' line slot space (13 + data.length + fill))

include h

theorem slot_swapRecord (i : Nat) :
    (swapRecord page' pageNumber line slot space rpb data fill).slot i =
      if i = line then ⟨space, 13 + data.length + fill⟩
      else if i = slot then page'.slot line else page'.slot i := by
  have hfits := h.fits
  change ((((page'.extend slot).setFlags _ _).setSlot slot ((page'.extend slot).slot line)).setSlot
    line
    ⟨ushort space, ushort (rhdSize + data.length + fill)⟩).slot i = _
  rw [ushort_record (by omega), ushort_natCast (by omega), slot_extend]
  by_cases hi : i = line
  · subst hi
    rw [if_pos rfl, slot_setSlot_self]
    exact (dpgCount_setSlot _ _ _).symm ▸ h.lt.1
  · rw [if_neg hi, slot_setSlot_ne hi]
    by_cases hi' : i = slot
    · subst hi'
      rw [if_pos rfl, slot_setSlot_self]
      exact h.lt.2
    · rw [if_neg hi', slot_setSlot_ne hi']
      exact slot_extend _ _ _

theorem wellFormed_swapRecord :
    WellFormed (swapRecord page' pageNumber line slot space rpb data fill) := by
  obtain ⟨hwf, -⟩ := h.room.place h.le (h.extend_count.symm ▸ Nat.add_le_add_right h.top _)
  rw [Nat.add_sub_cancel] at hwf
  refine hwf.of_areas (Equiv.swap line slot).injective rfl (Nat.le_of_eq ?_) fun i hi => ?_
  · exact (length_set.trans length_set).trans length_set.symm
  · rw [slot_swapRecord h] at hi ⊢
    split_ifs at hi ⊢ with hl hs
    · rw [hl, Equiv.swap_apply_left, slot_setSlot_self h.lt.2]
      exact ⟨rfl, Nat.le_refl _⟩
    · rw [hs, Equiv.swap_apply_right, slot_setSlot_ne h.line_ne, slot_extend]
      exact ⟨rfl, Nat.le_refl _⟩
    · rw [Equiv.swap_apply_of_ne_of_ne hl hs, slot_setSlot_ne hs, slot_extend]
      exact ⟨rfl, Nat.le_refl _⟩

theorem swapRecord_outside {a : Nat}
    (ho : a < (page'.slot line).dpgOffset ∨ (page'.slot line).dpgOffset + 12 ≤ a)
    (hs : a < space ∨ space + (13 + data.length + fill) ≤ a) :
    (swapRecord page' pageNumber line slot space rpb data fill).bytes a = page'.bytes a := by
  have hfits := h.fits
  rw [bytes_swapRecord, ushort_natCast (by omega), write_outside record_fits hs,
    setFlags_outside _ (by rwa [slot_extend]), bytes_extend]

theorem kept_swapRecord :
    Kept page (swapRecord page' pageNumber line slot space rpb data fill) [line, slot] := by
  suffices hkept : Kept page' (swapRecord page' pageNumber line slot space rpb data fill)
    [line, slot] from
    h.room.kept.trans hkept
  intro i hi
  obtain ⟨hl, hs⟩ : i ≠ line ∧ i ≠ slot := by simpa using hi
  have hslot : (swapRecord page' pageNumber line slot space rpb data fill).slot i = page'.slot
    i := by
    rw [slot_swapRecord h, if_neg hl, if_neg hs]
  refine ⟨by rw [hslot], record_congr (by rw [hslot]) fun k hk => ?_⟩
  rw [hslot]
  have hi0 : (page'.slot i).dpgOffset ≠ 0 := fun hz => by
    rw [h.length_eq, h.laid.empty i ((h.room.kept i not_mem_nil).1.1 hz)] at hk
    omega
  have hap := h.room.wellFormed.apart i line hl hi0 h.line_used
  have hbelow := h.room.below i hi0
  have hlen := h.laid.length_ne h.line
  rw [← h.length_eq] at hlen
  have hr := le_rup (page'.slot i).dpgLength
  have hr' := le_rup (page'.slot line).dpgLength
  have hr'' := le_rup (13 + data.length + fill)
  unfold Interval.Apart at hap
  exact swapRecord_outside h (by omega) (by omega)

theorem long_swapRecord_line
    (hfill : rpb.rpbFlags &&& rhdDeleted ≠ 0 ∨ 17 ≤ 13 + data.length + fill) :
    Long ((swapRecord page' pageNumber line slot space rpb data fill).record line) := by
  have hfits := h.fits
  have hslot : (swapRecord page' pageNumber line slot space rpb data fill).slot line =
      ⟨space, 13 + data.length + fill⟩ := by rw [slot_swapRecord h, if_pos rfl]
  obtain hdel | hlen := hfill
  · refine .inr ⟨by rw [length_record, hslot]; dsimp only; omega, ?_⟩
    rw [getD_record (by rw [hslot]; dsimp only; omega), hslot, bytes_swapRecord,
      ushort_natCast (by omega), bytes_record]
    exact and_one_toUInt8 hdel
  · refine .inl ?_
    rw [length_record, hslot]
    exact hlen

theorem long_swapRecord_slot :
    Long ((swapRecord page' pageNumber line slot space rpb data fill).record slot) := by
  have hfits := h.fits
  have hslot : (swapRecord page' pageNumber line slot space rpb data fill).slot slot =
      page'.slot line := by rw [slot_swapRecord h, if_neg h.line_ne.symm, if_pos rfl]
  have hlong := h.laid.long line h.line
  rw [← (h.room.kept line not_mem_nil).2] at hlong
  obtain hlen | ⟨hlen, hbit⟩ := hlong
  · refine .inl ?_
    rwa [length_record, hslot, ← length_record]
  · rw [length_record] at hlen
    refine .inr ⟨by rwa [length_record, hslot], ?_⟩
    rw [getD_record (by omega)] at hbit
    rw [getD_record (by rw [hslot]; omega), hslot, bytes_swapRecord, ushort_natCast (by omega)]
    have hbelow := h.room.below line h.line_used
    have hrup := le_rup (13 + data.length + fill)
    rw [write_outside record_fits (by omega), slot_extend, bytes_setFlags, UInt16.toUInt8_or,
      DataPage.rhdFlags, toUInt8_flags, bytes_extend]
    exact or_and_one hbit _

theorem next_swapRecord (hfill : rpb.rpbFlags &&& rhdDeleted ≠ 0 ∨ 17 ≤ 13 + data.length + fill) :
    Next page (swapRecord page' pageNumber line slot space rpb data fill) [line, slot] := by
  have hsize : (swapRecord page' pageNumber line slot space rpb data fill).dbbPageSize =
      page.dbbPageSize := (dbbPageSize_extend _ _).trans h.room.size
  have htop := h.top
  have hused := h.line_used
  refine ⟨h.laid.of_kept hsize (wellFormed_swapRecord h) (kept_swapRecord h) ?_ ?_, hsize,
    kept_swapRecord h⟩ <;> intro i hi <;> rw [mem_pair] at hi
  · intro hz
    rw [slot_swapRecord h] at hz
    split_ifs at hz with hl hs
    · change space = 0 at hz
      omega
    · exact absurd hz hused
    · omega
  · intro _
    obtain rfl | rfl := hi
    · exact long_swapRecord_line h hfill
    · exact long_swapRecord_slot h

end Chain

theorem fillOf_natCast (n : Nat) : fillOf n = (9 - n : Nat) := by
  unfold fillOf rhdfSize rhdSize
  split_ifs <;> omega

theorem roundup_record (n fill : Nat) :
    roundup (rhdSize + (n : Int) + (fill : Int)) = (rup (13 + n + fill) : Int) := by
  rw [← roundup_natCast]
  unfold rhdSize
  congr 1

theorem Laid.offset_iff (h : Laid page) (i : Nat) :
    (page.slot i).dpgOffset = 0 ↔ (page.slot i).dpgLength = 0 := by
  refine ⟨h.empty i, fun hz => ?_⟩
  by_contra hne
  have := h.length_ne hne
  omega

theorem chainTop_gives (slot : Nat) {available : Nat}
    (havailable : available ≤ 16384)
    (htop : 24 + 4 * page.dpgCount ≤ 16384) :
    Gives (fun w => chainTop w page slot ((24 + 4 * page.dpgCount : Nat) : Int) available)
      (((24 + 4 * (page.extend slot).dpgCount : Nat) : Int),
        (available : Int) + 4 * page.dpgCount - 4 * (page.extend slot).dpgCount) := by
  rw [dpgCount_extend]
  by_cases hslot : slot = page.dpgCount
  · rw [if_pos hslot, show (available : Int) + 4 * (page.dpgCount : Int) -
      4 * ((page.dpgCount + 1 : Nat) : Int) = available - sizeofDpgRepeat by
        unfold sizeofDpgRepeat; omega]
    refine Gives.ite_pos ((gives_add (n := 4) (by omega)).bind ((gives_assign ?_ ?_).bind
      (gives_some _))) hslot <;> unfold sizeofDpgRepeat <;> omega
  · rw [if_neg hslot, Int.add_sub_cancel]
    exact (gives_some _).ite_neg hslot

theorem dpmChain_gives (h : Laid page)
    (hline : (page.slot line).dpgOffset ≠ 0) (pageNumber : UInt32) (rpb : Rpb) (data : List UInt8) :
    ∃ res, Gives (fun w => dpmChain w page pageNumber line rpb data) res ∧
      ∀ slot page', res = some (slot, page') → Next page page' [line, slot] ∧
        (page.slot slot).dpgOffset = 0 ∧ 13 + data.length ≤ (page'.slot line).dpgLength := by
  have hsize := h.size
  have htotal := h.total_le
  by_cases hgate : (data.length : Int) > page.dbbPageSize - (sizeofDataPage + rhdSize)
  · exact ⟨none, (gives_some _).ite_pos hgate, fun _ _ h => by cases h⟩
  obtain ⟨fill, hfill, hlong⟩ : ∃ fill : Nat,
      (if rpb.rpbFlags &&& rhdDeleted ≠ 0 then 0 else fillOf data.length) = (fill : Int) ∧
      (rpb.rpbFlags &&& rhdDeleted ≠ 0 ∨ 17 ≤ 13 + data.length + fill) := by
    by_cases hdel : rpb.rpbFlags &&& rhdDeleted ≠ 0
    · exact ⟨0, if_pos hdel, .inl hdel⟩
    · exact ⟨9 - data.length, (if_neg hdel).trans (fillOf_natCast _), .inr (by omega)⟩
  obtain ⟨slot, hscan, hslot⟩ := chainSlots_gives page.dpgCount page.dpgRpt 0 page.dpgCount
    (page.dbbPageSize - (24 + 4 * page.dpgCount)) page.dbbPageSize (by omega) (by omega) hsize
    fun s hs => by
      obtain ⟨i, rfl⟩ := exists_slot hs
      exact ⟨h.offset_le hsize hs, h.offset_iff i⟩
  have hfree : slot ≤ page.dpgCount ∧ (page.slot slot).dpgOffset = 0 := by
    obtain rfl | ⟨k, s, rfl, hk, hs⟩ := hslot
    · exact ⟨Nat.le_refl _, by rw [slot_of_ge (Nat.le_refl _)]⟩
    · obtain ⟨hlt, rfl⟩ := slot_of_getElem? hk
      rw [Nat.zero_add]
      exact ⟨hlt.le, (h.offset_iff k).2 hs⟩
  -- what is left once the scan is done
  let top := 24 + 4 * (page.extend slot).dpgCount
  let available : Int := ((page.dbbPageSize - (24 + 4 * page.dpgCount) - total page.dpgRpt : Nat) :
    Int) +
    4 * page.dpgCount - 4 * (page.extend slot).dpgCount
  have hrest : ∀ {res}, Gives (fun w => if (rup (13 + data.length + fill) : Int) > available then
    some none
      else do
        let low ← lowerSpace w page (lowest page.dpgRpt page.dbbPageSize)
          (rup (13 + data.length + fill)) (top : Nat)
        return some (slot, swapRecord low.2 pageNumber line slot low.1 rpb data fill)) res →
      Gives (fun w => dpmChain w page pageNumber line rpb data) res := fun hres => by
    unfold dpmChain
    dsimp only
    rw [hfill, roundup_record, highWater_natCast]
    exact Gives.ite_neg ((gives_nat (by omega)).bind ((gives_nat (by omega)).bind
      ((gives_sub (by omega) (by omega)).bind (hscan.bind
        ((chainTop_gives slot (by omega) (by omega)).bind hres))))) hgate
  by_cases hfit : (rup (13 + data.length + fill) : Int) > available
  · exact ⟨none, hrest ((gives_some _).ite_pos hfit), fun _ _ h => by cases h⟩
  · obtain ⟨space, page', hlower, hroom, htop⟩ := lowerSpace_gives h.toWellFormed hsize h.empty
      (by omega : top + rup (13 + data.length + fill) + total page.dpgRpt ≤ page.dbbPageSize)
    have hchain : Chaining page page' line slot space (13 + data.length + fill) :=
      ⟨h, hroom, hline, hfree.1, hfree.2, htop⟩
    refine ⟨some (slot, _), hrest (Gives.ite_neg (hlower.bind (gives_some _)) hfit), ?_⟩
    rintro _ _ ⟨⟩
    refine ⟨next_swapRecord hchain hlong, hfree.2, ?_⟩
    rw [slot_swapRecord hchain, if_pos rfl]
    exact Nat.le_add_right _ _

end Firebird.Jrd.Dpm
