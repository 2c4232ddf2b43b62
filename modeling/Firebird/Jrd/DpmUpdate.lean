import Firebird.Jrd.DpmStore

/-!
# Records replaced and removed

`DPM_update` counts a record that it replaces as one of no length. If the new one does not fit, its
head takes what there is, and a tail may be stored on the same page.
-/
namespace Firebird.Jrd.Dpm

open Lib List

theorem dvd_total (slots : List DpgRepeat) : 4 ∣ total slots := by
  induction slots with
  | nil => exact ⟨0, rfl⟩
  | cons s slots ih =>
    rw [total_cons]
    split_ifs
    · omega
    · unfold rup
      omega

variable {slots : List DpgRepeat} {i : Nat}

theorem total_set (hi : i < slots.length) (hne : slots[i].dpgOffset ≠ 0) :
    total (slots.set i { slots[i] with dpgLength := 0 }) + rup slots[i].dpgLength = total
      slots := by
  induction slots generalizing i with
  | nil => exact absurd hi (Nat.not_lt_zero i)
  | cons s slots ih =>
    cases i with
    | zero =>
      rw [getElem_cons_zero] at hne ⊢
      rw [set_cons_zero, total_cons, total_cons, if_neg hne, if_neg hne]
      simp [rup]
      omega
    | succ i =>
      have hlt : i < slots.length := Nat.lt_of_succ_lt_succ hi
      have := ih hlt hne
      rw [set_cons_succ, total_cons, total_cons, getElem_cons_succ]
      omega

def DataPage.without (page : DataPage) (line : Nat) : DataPage :=
  page.setSlot line { page.slot line with dpgLength := 0 }

section Without

variable {page : DataPage} {line : Nat} (h : Laid page) (hline : (page.slot line).dpgOffset ≠ 0)

include hline

theorem slot_without (i : Nat) : (page.without line).slot i =
    if i = line then { page.slot line with dpgLength := 0 } else page.slot i := by
  unfold DataPage.without
  rw [slot_setSlot]
  by_cases hi : i = line
  · rw [if_pos ⟨hi.symm, lt_of_used hline⟩, if_pos hi]
  · rw [if_neg fun h' => hi h'.1.symm, if_neg hi]

theorem total_without : total (page.without line).dpgRpt + rup (page.slot line).dpgLength =
    total page.dpgRpt := by
  have hlt : line < page.dpgRpt.length := lt_of_used hline
  unfold DataPage.without DataPage.setSlot
  rw [slot_of_lt hlt] at hline ⊢
  exact total_set hlt hline

theorem kept_without : Kept page (page.without line) [line] :=
  Kept.of_slots rfl fun i hi => by rw [slot_without hline, if_neg (mem_singleton.not.1 hi)]

theorem setSlot_without (bytes : Nat → UInt8) :
    ({ page.without line with bytes := bytes } : DataPage).setSlot line (page.slot line) =
      { page with bytes := bytes } := by
  have hlt : line < page.dpgRpt.length := lt_of_used hline
  unfold DataPage.without DataPage.setSlot
  rw [slot_of_lt hlt]
  simp

include h

theorem wellFormed_without : WellFormed (page.without line) := by
  refine h.toWellFormed.of_areas Function.injective_id rfl
    (Nat.le_of_eq (dpgCount_setSlot _ _ _)) fun i _ => ?_
  rw [slot_without hline]
  split_ifs with hi
  · exact hi ▸ ⟨rfl, Nat.zero_le _⟩
  · exact ⟨rfl, Nat.le_refl _⟩

theorem empty_without (i : Nat) (hz : ((page.without line).slot i).dpgOffset = 0) :
    ((page.without line).slot i).dpgLength = 0 := by
  rw [slot_without hline] at hz ⊢
  split_ifs at hz ⊢
  · rfl
  · exact h.empty i hz

end Without

/-- A page on which a record has a length that can take any bytes. -/
structure Held (page page' : DataPage) (named : List Nat) (line n : Nat) : Prop
    extends Next page page' named where
  mem : line ∈ named
  used : (page'.slot line).dpgOffset ≠ 0
  length : (page'.slot line).dpgLength = n
  long : 17 ≤ n

theorem slot_write (page : DataPage) (offset : Nat) (fields : List (Nat × List UInt8)) (i : Nat) :
    (page.write offset fields).slot i = page.slot i := rfl

variable {n : Nat} {page : DataPage} {line : Nat}

theorem Held.write {page' : DataPage} {named : List Nat}
    (h : Held page page' named line n) (fields : List (Nat × List UInt8))
    (hfit : ∀ f ∈ fields, f.1 + f.2.length ≤ n) :
    Held page (page'.write (page'.slot line).dpgOffset fields) named line n := by
  refine ⟨(h.toNext.trans (h.laid.write_long h.used (h.length.symm ▸ hfit)
    (h.length.symm ▸ h.long))).mono ?_, h.mem, h.used, h.length, h.long⟩
  exact append_subset.2 ⟨fun _ h => h, fun i hi => mem_singleton.1 hi ▸ h.mem⟩

theorem extend_of_lt (h : line < page.dpgCount) :
    page.extend line = page := if_neg h.ne

theorem held_replace {page' : DataPage} {space : Nat} (h : Laid page)
    (hline : (page.slot line).dpgOffset ≠ 0) (hroom : Room (page.without line) page'
    (space + rup n))
    (htop : 24 + 4 * page.dpgCount ≤ space) (hn : 17 ≤ n) :
    Held page (page'.setSlot line ⟨space, n⟩) [line] line n := by
  have hcount : page'.dpgCount = page.dpgCount := hroom.count.trans (dpgCount_setSlot _ _ _)
  have hlt : line < page'.dpgCount := hcount ▸ lt_of_used hline
  have hself := slot_setSlot_self hlt ⟨space, n⟩
  have hsize : page'.dbbPageSize = page.dbbPageSize := hroom.size
  obtain ⟨hwf, hkept⟩ := hroom.place (n := n)
    (hroom.count ▸ hlt.le) (by rw [extend_of_lt hlt]; omega)
  rw [extend_of_lt hlt, Nat.add_sub_cancel] at hwf hkept
  have hkept := ((kept_without hline).trans hkept).mono
    (append_subset.2 ⟨fun _ h => h, fun _ h => h⟩)
  refine ⟨⟨h.of_kept hsize hwf hkept ?_ ?_, hsize, hkept⟩, mem_singleton_self line, ?_, ?_, hn⟩
  · intro i hi hz
    rw [mem_singleton.1 hi, hself] at hz
    change space = 0 at hz
    omega
  · intro i hi _
    refine .inl ?_
    rw [mem_singleton.1 hi, length_record, hself]
    exact hn
  · rw [hself]
    change space ≠ 0
    omega
  · rw [hself]

def DataPage.free (page : DataPage) (line : Nat) : Nat :=
  page.dbbPageSize - (24 + 4 * page.dpgCount) - total (page.without line).dpgRpt

theorem claimSpace_gives (h : Laid page)
    (hline : (page.slot line).dpgOffset ≠ 0) (hlen : 22 ≤ (page.slot line).dpgLength) (rpb : Rpb)
    (transaction : UInt32) :
    ∃ (n : Nat) (page' : DataPage), Gives (fun w => claimSpace w (page.without line) line rpb
        (page.free line) (page.slot line).dpgLength transaction) ((n : Int), page') ∧
      Held page page' [line] line n ∧ 22 ≤ n := by
  have hoff : ((page.without line).slot line).dpgOffset = (page.slot line).dpgOffset := by
    rw [slot_without hline, if_pos rfl]
  have hold : Held page page [line] line (page.slot line).dpgLength :=
    ⟨h.next.mono (nil_subset _), mem_singleton_self line, hline, rfl, by omega⟩
  unfold claimSpace
  dsimp only
  rw [hoff]
  by_cases htra : transaction ≠ rpb.rpbTransactionNr
  · -- the record to be replaced stays
    refine ⟨_, (page.write (page.slot line).dpgOffset [(0, le32 transaction)]).setFlags
      (page.slot line).dpgOffset (· ||| rhdGcActive), Gives.ite_pos ?_ htra, ?_, hlen⟩
    · exact (setSlot_without hline _) ▸ gives_some _
    · exact (hold.write _ (by simp [le32]; omega)).write _ (by simp [le16]; omega)
  by_cases hdelta : rpb.rpbFlags &&& rhdDelta ≠ 0
  · refine ⟨_, (page.setFlags (page.slot line).dpgOffset (· ||| rhdDelta)).write
      (page.slot line).dpgOffset rpb.claim, Gives.ite_neg (Gives.ite_pos ?_ hdelta) htra, ?_, hlen⟩
    · have heq := setSlot_without hline (page.setFlags (page.slot line).dpgOffset
        (· ||| rhdDelta)).bytes
      exact congrArg (DataPage.write · (page.slot line).dpgOffset rpb.claim) heq ▸ gives_some _
    · exact (hold.write _ (by simp [le16]; omega)).write _ (by simp [Rpb.claim, le16, le32]; omega)
  · -- all there is on the page is taken
    have hsize := h.size
    have haligned := h.aligned
    have htotal := h.total_le
    have hwithout := total_without hline
    have hdvd := dvd_total (page.without line).dpgRpt
    have hle := le_rup (page.slot line).dpgLength
    have hfree : rup (page.free line) = page.free line := by
      unfold rup DataPage.free
      omega
    have hspace : page.dbbPageSize - total (page.without line).dpgRpt =
        24 + 4 * page.dpgCount + page.free line := by
      unfold DataPage.free
      omega
    obtain ⟨page', hgives, hroom⟩ := dpmCompress_room (wellFormed_without h hline) hsize
      (empty_without h hline)
    rw [show (page.without line).dbbPageSize = page.dbbPageSize from rfl, hspace] at hgives hroom
    have hheld : Held page (page'.setSlot line ⟨24 + 4 * page.dpgCount, page.free line⟩) [line] line
        (page.free line) := held_replace h hline (hfree.symm ▸ hroom) (Nat.le_refl _) (by omega)
    have hself : ((page'.setSlot line ⟨24 + 4 * page.dpgCount, page.free line⟩).slot
      line).dpgOffset =
        24 + 4 * page.dpgCount := by
      rw [slot_setSlot_self]
      rw [hroom.count]
      exact (dpgCount_setSlot _ _ _).symm ▸ lt_of_used hline
    refine ⟨page.free line, ((page'.setSlot line ⟨24 + 4 * page.dpgCount, page.free line⟩).write
        (24 + 4 * page.dpgCount) [(10, le16 rhdDeleted), (16, le32 0), (20, le16 0)]).write
          (24 + 4 * page.dpgCount) rpb.claim, Gives.ite_neg (Gives.ite_neg ?_ hdelta) htra,
            ?_, by omega⟩
    · refine hgives.bind ((gives_sub (by omega) (by omega)).bind ?_)
      rw [Nat.add_sub_cancel, ushort_natCast (by omega), ushort_natCast (by omega)]
      exact gives_some _
    · have hwrite := (hheld.write [(10, le16 rhdDeleted), (16, le32 0), (20, le16 0)]
        (by simp [le16, le32]; omega)).write rpb.claim (by simp [Rpb.claim, le16, le32]; omega)
      rwa [slot_write, hself] at hwrite

theorem storeTail_gives (h : Laid page) {tail : Option (Int × List UInt8)}
    (htail : ∀ t ∈ tail, 17 ≤ t.1 ∧ t.1 ≤ 32764) :
    ∃ slot page', Gives (fun w => storeTail w page tail) (slot, page') ∧
      Next page page' slot.toList ∧ ∀ k, slot = some k → (page.slot k).dpgOffset = 0 ∧
        ∀ t ∈ tail, t.1 ≤ (page'.slot k).dpgLength := by
  cases tail with
  | none => exact ⟨none, page, gives_some _, h.next, fun _ h => nomatch h⟩
  | some t =>
    obtain ⟨size, record⟩ := t
    obtain ⟨hlo, hhi⟩ := htail (size, record) rfl
    obtain ⟨n, rfl⟩ := Int.eq_ofNat_of_zero_le (Int.le_trans (by decide) hlo)
    obtain ⟨slot, page', hgives, hnext, hplaced⟩ := storeRecord_gives h (Int.ofNat_le.1 hlo)
      (Int.ofNat_le.1 hhi) false false record
    refine ⟨slot, page', hgives, hnext, fun k hk => ⟨(hplaced k hk).free, ?_⟩⟩
    rintro _ ⟨⟩
    exact Int.ofNat_le.2 (hplaced k hk).length.ge

theorem fragment_gives (h : Laid page)
    (hline : (page.slot line).dpgOffset ≠ 0) (hlen : 22 ≤ (page.slot line).dpgLength) (rpb : Rpb)
    (transaction : UInt32) {tail : Option (Int × List UInt8)}
    (htail : ∀ t ∈ tail, 17 ≤ t.1 ∧ t.1 ≤ 32764) (fPage : UInt32) (fLine : UInt16)
    (head : List UInt8) :
    ∃ slot page', Gives (fun w => fragment w (page.without line) line rpb (page.free line)
        (page.slot line).dpgLength transaction tail fPage fLine head) (slot, page') ∧
      Next page page' (line :: slot.toList) ∧ ∀ k, slot = some k → (page.slot k).dpgOffset = 0 ∧
        ∀ t ∈ tail, t.1 ≤ (page'.slot k).dpgLength := by
  obtain ⟨n, page₁, hclaim, hheld, hn⟩ := claimSpace_gives h hline hlen rpb transaction
  obtain ⟨slot, page₂, hstore, hnext, hslot⟩ := storeTail_gives hheld.laid htail
  -- the tail does not take the slot of the head
  have hne : line ∉ slot.toList := fun hmem => by
    obtain ⟨k, hk, rfl⟩ : ∃ k, slot = some k ∧ k = line := by simpa using hmem
    exact hheld.used (hslot k hk).1
  have hkept := hnext.kept line hne
  have hheld₂ : Held page page₂ (line :: slot.toList) line n := by
    refine ⟨hheld.toNext.trans hnext, mem_cons_self, mt hkept.1.1 hheld.used, ?_, hheld.long⟩
    rw [← length_record, hkept.2, length_record, hheld.length]
  have hfree : ∀ k, slot = some k → (page.slot k).dpgOffset = 0 := by
    intro k hk
    have hk' : k ∉ [line] := fun hmem => hne (by
      rw [hk, ← mem_singleton.1 hmem]
      exact mem_singleton_self k)
    exact (hheld.kept k hk').1.1 (hslot k hk).1
  have htotal : 22 + (head.take ((n : Int) - rhdfSize).toNat).length ≤ n := by
    rw [length_take]
    unfold rhdfSize
    omega
  have hhead := hheld₂.write [(10, le16 (rhdIncomplete ||| rpb.rpbFlags)),
    (0, le32 rpb.rpbTransactionNr),
    (12, [rpb.rpbFormatNumber]), (16, le32 fPage), (20, le16 fLine)] (by simp [le16, le32]; omega)
  by_cases htra : transaction ≠ rpb.rpbTransactionNr
  · have hback := (hhead.write [(4, le32 rpb.rpbBPage), (8, le16 rpb.rpbBLine)]
      (by simp [le16, le32]; omega)).write [(22, head.take ((n : Int) - rhdfSize).toNat)]
        (by simpa using htotal)
    refine ⟨slot, _, hclaim.bind (hstore.bind ?_), hback.toNext, fun k hk =>
      ⟨hfree k hk, (hslot k hk).2⟩⟩
    dsimp only
    rw [if_pos htra]
    exact gives_some _
  · have hback := hhead.write [(22, head.take ((n : Int) - rhdfSize).toNat)] (by simpa using htotal)
    refine ⟨slot, _, hclaim.bind (hstore.bind ?_), hback.toNext, fun k hk =>
      ⟨hfree k hk, (hslot k hk).2⟩⟩
    dsimp only
    rw [if_neg htra]
    exact gives_some _

/-- The length of a record that `DPM_update` stores. -/
def recordLength (data : List UInt8) : Nat := 13 + data.length + (9 - data.length)

theorem dpmUpdate_gives (h : Laid page)
    (hline : (page.slot line).dpgOffset ≠ 0) (rpb : Rpb) {data : List UInt8} {f : Fragment}
    (hlen : page.free line < rup (recordLength data) → 22 ≤ (page.slot line).dpgLength)
    (htail : ∀ t ∈ f.tail, 17 ≤ t.1 ∧ t.1 ≤ 32764) :
    ∃ slot page', Gives (fun w => dpmUpdate w page line rpb data f) (slot, page') ∧
      Next page page' (line :: slot.toList) ∧
      (∀ k, slot = some k → (page.slot k).dpgOffset = 0 ∧ ∀ t ∈ f.tail, t.1 ≤
        (page'.slot k).dpgLength) ∧
      (rup (recordLength data) ≤ page.free line → 13 + data.length ≤
        (page'.slot line).dpgLength) := by
  have hsize := h.size
  have hcount : (page.without line).dpgCount = page.dpgCount := dpgCount_setSlot _ _ _
  have htotal := (wellFormed_without h hline).total_le
  rw [hcount, show (page.without line).dbbPageSize = page.dbbPageSize from rfl] at htotal
  have hwithin := (h.within line hline).2
  have hrup := le_rup (page.slot line).dpgLength
  have hscan := updateSlots_gives (page.without line).dpgRpt
    (page.dbbPageSize - (24 + 4 * page.dpgCount)) page.dbbPageSize (by omega) (by omega) hsize
    fun s hs => (wellFormed_without h hline).offset_le hsize hs
  have hrest : ∀ {res}, Gives (fun w =>
      if (rup (recordLength data) : Int) > (page.free line : Int) then
        fragment w (page.without line) line rpb (page.free line) (page.slot line).dpgLength
          f.transaction
          f.tail f.fPage f.fLine f.head
      else do
        let low ← lowerSpace w (page.without line)
          (lowest (page.without line).dpgRpt page.dbbPageSize) (rup (recordLength data))
          ((24 + 4 * page.dpgCount : Nat) : Int)
        let page := low.2.setSlot line
          ⟨ushort low.1, ushort (rhdSize + data.length + ((9 - data.length : Nat) : Int))⟩
        return (none, page.write (ushort low.1) (rpb.record data ((9 - data.length : Nat) : Int))))
          res →
      Gives (fun w => dpmUpdate w page line rpb data f) res := fun hres => by
    unfold dpmUpdate
    dsimp only
    rw [fillOf_natCast, roundup_record, highWater_natCast]
    exact (gives_nat (by omega)).bind ((gives_nat (by omega)).bind
      ((gives_sub (by omega) (by omega)).bind
      ((gives_nat (by omega)).bind (hscan.bind hres))))
  by_cases hfit : (rup (recordLength data) : Int) > (page.free line : Int)
  · obtain ⟨slot, page', hgives, hnext, hslot⟩ := fragment_gives h hline (hlen (by omega)) rpb
      f.transaction htail f.fPage f.fLine f.head
    exact ⟨slot, page', hrest (hgives.ite_pos hfit), hnext, hslot, fun hle => by omega⟩
  · have hfree : page.free line + (24 + 4 * page.dpgCount) + total (page.without line).dpgRpt =
        page.dbbPageSize := by
      unfold DataPage.free
      omega
    obtain ⟨space, page', hgives, hroom, htop⟩ :=
      lowerSpace_gives (wellFormed_without h hline) hsize
      (empty_without h hline) (by omega : 24 + 4 * page.dpgCount + rup (recordLength data) +
        total (page.without line).dpgRpt ≤ page.dbbPageSize)
    have hle : space + rup (recordLength data) ≤ page.dbbPageSize := hroom.le
    have hrecord := le_rup (recordLength data)
    have hheld := held_replace h hline hroom htop (by unfold recordLength; omega)
    have hself : ((page'.setSlot line ⟨space, recordLength data⟩).slot line) =
        ⟨space, recordLength data⟩ := by
      refine slot_setSlot_self ?_ _
      rw [hroom.count, hcount]
      exact lt_of_used hline
    have hwrite := hheld.write (rpb.record data (9 - data.length : Nat)) record_fits
    rw [hself] at hwrite
    refine ⟨none, _, hrest (Gives.ite_neg (hgives.bind ?_) hfit), hwrite.toNext, ?_, fun _ => ?_⟩
    · dsimp only
      rw [ushort_natCast (by omega), ushort_record (by change recordLength data < _; omega)]
      exact gives_some _
    · exact fun _ h => by cases h
    · rw [slot_write, hself]
      exact Nat.le_add_right _ _

theorem slot_take (h : ∀ i, n ≤ i → page.slot i = ⟨0, 0⟩) (i : Nat) :
    ({ page with dpgRpt := page.dpgRpt.take n } : DataPage).slot i = page.slot i := by
  by_cases hi : i < n
  · simp [DataPage.slot, getElem?_take, if_pos hi]
  · rw [h i (Nat.le_of_not_lt hi)]
    refine slot_of_ge ?_
    simp only [DataPage.dpgCount, length_take]
    omega

theorem Laid.take (h : Laid page) (hn : ∀ i, n ≤ i → page.slot i = ⟨0, 0⟩) :
    Next page { page with dpgRpt := page.dpgRpt.take n } [] := by
  have hslot := slot_take hn
  have hkept : Kept page { page with dpgRpt := page.dpgRpt.take n } [] :=
    Kept.of_slots rfl fun i _ => hslot i
  refine ⟨h.of_kept rfl ?_ hkept ?_ ?_, rfl, hkept⟩
  · refine h.toWellFormed.of_areas Function.injective_id rfl (length_take_le' _ _)
      fun i _ => ?_
    rw [hslot]
    exact ⟨rfl, Nat.le_refl _⟩
  · exact fun i hi => absurd hi not_mem_nil
  · exact fun i hi => absurd hi not_mem_nil

theorem dpgLength_of_backoutCount : ∀ {n : Nat},
    backoutCount slots n ≤ i → i < n → (slots.getD i ⟨0, 0⟩).dpgLength = 0
  | 0, _, hlt => absurd hlt (Nat.not_lt_zero i)
  | 1, hle, hlt => absurd hlt (Nat.not_lt_of_le hle)
  | n + 2, hle, hlt => by
    unfold backoutCount at hle
    split_ifs at hle with hl
    · exact absurd hlt (Nat.not_lt_of_le hle)
    · obtain rfl | hne := eq_or_ne i (n + 1)
      · exact not_not.1 hl
      · exact dpgLength_of_backoutCount hle (by omega)

theorem dpgOffset_of_deleteCount : ∀ {n : Nat},
    deleteCount slots n ≤ i → i < n → (slots.getD i ⟨0, 0⟩).dpgOffset = 0
  | 0, _, hlt => absurd hlt (Nat.not_lt_zero i)
  | n + 1, hle, hlt => by
    unfold deleteCount at hle
    split_ifs at hle with hl
    · exact absurd hlt (Nat.not_lt_of_le hle)
    · obtain rfl | hne := eq_or_ne i n
      · exact not_not.1 hl
      · exact dpgOffset_of_deleteCount hle (by omega)

theorem Laid.slot_eq (h : Laid page)
    (hi : i < page.dpgCount → (page.slot i).dpgOffset = 0) : page.slot i = ⟨0, 0⟩ := by
  obtain hlt | hge := Nat.lt_or_ge i page.dpgCount
  · have hz := hi hlt
    have hl := h.empty i hz
    cases hs : page.slot i
    simp_all
  · exact slot_of_ge hge

theorem dpmDelete_next (h : Laid page)
    (hline : (page.slot line).dpgOffset ≠ 0) :
    ∃ page', dpmDelete page line = some page' ∧ Next page page' [line] := by
  have hslot : ∀ i, (page.setSlot line ⟨0, 0⟩).slot i = if i = line then ⟨0, 0⟩ else page.slot
    i := by
    intro i
    by_cases hi : i = line
    · subst hi
      rw [slot_setSlot_self (lt_of_used hline), if_pos rfl]
    · rw [slot_setSlot_ne hi, if_neg hi]
  have hkept : Kept page (page.setSlot line ⟨0, 0⟩) [line] := Kept.of_slots rfl fun i hi => by
    rw [hslot, if_neg (mem_singleton.not.1 hi)]
  have hnext : Next page (page.setSlot line ⟨0, 0⟩) [line] := by
    refine ⟨h.of_kept rfl ?_ hkept ?_ ?_, rfl, hkept⟩
    · refine h.toWellFormed.of_areas Function.injective_id rfl
        (Nat.le_of_eq (dpgCount_setSlot _ _ _)) fun i hi => ?_
      rw [hslot] at hi ⊢
      split_ifs at hi ⊢
      · exact absurd rfl hi
      · exact ⟨rfl, Nat.le_refl _⟩
    · intro i hi _
      rw [hslot, if_pos (mem_singleton.1 hi)]
    · intro i hi hne
      rw [hslot, if_pos (mem_singleton.1 hi)] at hne
      exact absurd rfl hne
  exact ⟨_, if_neg hline, hnext.trans (hnext.laid.take fun i hi => hnext.laid.slot_eq fun hlt =>
    dpgOffset_of_deleteCount hi hlt)⟩

section Backout

variable {page : DataPage} {line bLine : Nat}

/-- The page once `DPM_backout` has moved the old version. -/
def DataPage.moveBack (page : DataPage) (line bLine : Nat) : DataPage :=
  ((page.setSlot line (page.slot bLine)).setSlot bLine ⟨0, 0⟩).setFlags (page.slot bLine).dpgOffset
    (· &&& ~~~(rhdChain ||| rhdGcActive))

variable (hne : line ≠ bLine) (hline : (page.slot line).dpgOffset ≠ 0)
  (hback : (page.slot bLine).dpgOffset ≠ 0)

include hne hline hback

theorem slot_moveBack (i : Nat) : (page.moveBack line bLine).slot i =
    if i = line then page.slot bLine else if i = bLine then ⟨0, 0⟩ else page.slot i := by
  change ((page.setSlot line (page.slot bLine)).setSlot bLine ⟨0, 0⟩).slot i = _
  by_cases hb : i = bLine
  · subst hb
    rw [if_neg hne.symm, if_pos rfl, slot_setSlot_self]
    exact (dpgCount_setSlot _ _ _).symm ▸ lt_of_used hback
  · rw [slot_setSlot_ne hb, if_neg hb]
    by_cases hl : i = line
    · subst hl
      rw [slot_setSlot_self (lt_of_used hline), if_pos rfl]
    · rw [slot_setSlot_ne hl, if_neg hl]

theorem moveBack_next (h : Laid page) : Next page (page.moveBack line bLine) [line, bLine] := by
  have hslot := slot_moveBack hne hline hback
  have hlen := h.length_ne hback
  have hkept : Kept page (page.moveBack line bLine) [line, bLine] := by
    intro i hi
    obtain ⟨hl, hb⟩ : i ≠ line ∧ i ≠ bLine := by simpa using hi
    have hi' : (page.moveBack line bLine).slot i = page.slot i := by rw
      [hslot, if_neg hl, if_neg hb]
    refine ⟨by rw [hi'], record_congr (by rw [hi']) fun k hk => ?_⟩
    rw [hi']
    have hi0 : (page.slot i).dpgOffset ≠ 0 := fun hz => by
      rw [h.empty i hz] at hk
      omega
    have hap := h.apart i bLine hb hi0 hback
    have hr := le_rup (page.slot i).dpgLength
    have hr' := le_rup (page.slot bLine).dpgLength
    unfold Interval.Apart at hap
    exact setFlags_outside _ (by omega)
  refine ⟨h.of_kept rfl ?_ hkept ?_ ?_, rfl, hkept⟩
  · refine h.toWellFormed.of_areas (Equiv.swap line bLine).injective rfl (Nat.le_of_eq ?_) fun i
      hi => ?_
    · exact length_set.trans length_set
    · rw [hslot] at hi ⊢
      split_ifs at hi ⊢ with hl hb
      · rw [hl, Equiv.swap_apply_left]
        exact ⟨rfl, Nat.le_refl _⟩
      · exact absurd rfl hi
      · rw [Equiv.swap_apply_of_ne_of_ne hl hb]
        exact ⟨rfl, Nat.le_refl _⟩
  · intro i hi hz
    rw [hslot] at hz ⊢
    split_ifs at hz ⊢ with hl hb
    · exact absurd hz hback
    · rfl
    · exact h.empty i hz
  · intro i hi hused
    obtain rfl | rfl := mem_pair.1 hi
    · have hself := (hslot i).trans (if_pos rfl)
      obtain hlong | ⟨hshort, hbit⟩ := h.long bLine hback
      · exact .inl (by rwa [length_record, hself, ← length_record])
      · refine .inr ⟨by rwa [length_record, hself, ← length_record], ?_⟩
        rw [getD_record (by omega)] at hbit
        rw [getD_record (by rw [hself]; omega), hself]
        unfold DataPage.moveBack
        rw [bytes_setFlags, UInt16.toUInt8_and, DataPage.rhdFlags, toUInt8_flags, UInt8.and_assoc]
        exact hbit
    · rw [hslot, if_neg hne.symm, if_pos rfl] at hused
      exact absurd rfl hused

theorem dpmBackout_next (h : Laid page) : Next page (dpmBackout page line bLine) [line, bLine] := by
  have hnext := moveBack_next hne hline hback h
  exact hnext.trans (hnext.laid.take fun i hi => hnext.laid.slot_eq fun hlt =>
    (hnext.laid.offset_iff i).2 (dpgLength_of_backoutCount hi hlt))

end Backout

end Firebird.Jrd.Dpm
