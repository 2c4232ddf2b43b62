import Mathlib.Logic.Function.Basic
import Firebird.Jrd.DpmLayout

/-!
# Space on a data page

What the functions that place records do to a page whose records do not overlap. A record is never
as short as the space that `find_space` leaves for back versions would allow to count it too often:
it has at least 17 bytes, or it is a deleted one, for which no space is left.
-/
namespace Firebird.Jrd.Dpm

open Lib List

@[simp] theorem dpgCount_setSlot (page : DataPage) (line : Nat) (s : DpgRepeat) :
    (page.setSlot line s).dpgCount = page.dpgCount := length_set

theorem slot_setSlot (page : DataPage) (line i : Nat) (s : DpgRepeat) :
    (page.setSlot line s).slot i = if line = i ∧ line < page.dpgCount then s else page.slot i := by
  unfold DataPage.slot DataPage.setSlot DataPage.dpgCount
  simp only [getD_eq_getElem?_getD]
  by_cases h : line = i
  · subst h
    by_cases hlt : line < page.dpgRpt.length <;> simp [hlt]
  · simp [h]

variable {page : DataPage} {line : Nat}

theorem slot_setSlot_self (h : line < page.dpgCount) (s : DpgRepeat) :
    (page.setSlot line s).slot line = s := by
  rw [slot_setSlot, if_pos ⟨rfl, h⟩]

variable {i : Nat}

theorem slot_setSlot_ne (h : i ≠ line) (s : DpgRepeat) :
    (page.setSlot line s).slot i = page.slot i := by
  rw [slot_setSlot, if_neg fun h' => h h'.1.symm]

theorem slot_of_ge (h : page.dpgCount ≤ i) : page.slot i = ⟨0, 0⟩ :=
  getD_eq_default _ _ h

variable {s : DpgRepeat}

theorem slot_of_getElem? (h : page.dpgRpt[i]? = some s) : i < page.dpgCount ∧ page.slot i = s := by
  obtain ⟨hi, rfl⟩ := List.getElem?_eq_some_iff.1 h
  exact ⟨hi, slot_of_lt hi⟩

@[simp] theorem slot_extend (page : DataPage) (line i : Nat) :
    (page.extend line).slot i = page.slot i := by
  unfold DataPage.extend
  split_ifs with h
  · unfold DataPage.slot DataPage.dpgCount at *
    obtain hi | hi := Nat.lt_or_ge i page.dpgRpt.length
    · rw [getD_append _ _ _ _ hi]
    · rw [getD_append_right _ _ _ _ hi, getD_eq_default _ _ hi]
      cases i - page.dpgRpt.length <;> rfl
  · rfl

theorem dpgCount_extend (page : DataPage) (line : Nat) :
    (page.extend line).dpgCount = if line = page.dpgCount then page.dpgCount + 1 else
      page.dpgCount := by
  unfold DataPage.extend
  split_ifs with h
  · exact length_append
  · rfl

@[simp] theorem dbbPageSize_extend (page : DataPage) (line : Nat) :
    (page.extend line).dbbPageSize = page.dbbPageSize := by
  unfold DataPage.extend
  split_ifs <;> rfl

@[simp] theorem bytes_extend (page : DataPage) (line : Nat) :
    (page.extend line).bytes = page.bytes := by
  unfold DataPage.extend
  split_ifs <;> rfl

theorem store_outside {bytes : Nat → UInt8} {offset a : Nat} {data : List UInt8}
    (h : a < offset ∨ offset + data.length ≤ a) : store bytes offset data a = bytes a :=
  if_neg (by omega)

variable {n : Nat} {fields : List (Nat × List UInt8)}

theorem write_outside {offset a : Nat}
    (hfit : ∀ f ∈ fields, f.1 + f.2.length ≤ n) (h : a < offset ∨ offset + n ≤ a) :
    (page.write offset fields).bytes a = page.bytes a := by
  obtain ⟨size, rpt, bytes⟩ := page
  change fields.foldl _ bytes a = bytes a
  induction fields generalizing bytes with
  | nil => rfl
  | cons f fields ih =>
    have := hfit f mem_cons_self
    rw [foldl_cons, ih (fun g hg => hfit g (mem_cons_of_mem _ hg)), store_outside (by omega)]

def Kept (page page' : DataPage) (named : List Nat) : Prop :=
  ∀ i, i ∉ named → ((page'.slot i).dpgOffset = 0 ↔ (page.slot i).dpgOffset = 0) ∧
    page'.record i = page.record i

variable {page' : DataPage} {named named' : List Nat}

theorem Kept.trans {page'' : DataPage} (h : Kept page page' named) (h' : Kept page' page'' named') :
    Kept page page'' (named ++ named') := fun i hi => by
  rw [mem_append, not_or] at hi
  exact ⟨(h' i hi.2).1.trans (h i hi.1).1, (h' i hi.2).2.trans (h i hi.1).2⟩

theorem Kept.mono (h : Kept page page' named)
    (hsub : named ⊆ named') : Kept page page' named' := fun i hi => h i fun h' => hi (hsub h')

theorem Kept.of_slots (hb : page'.bytes = page.bytes)
    (h : ∀ i, i ∉ named → page'.slot i = page.slot i) : Kept page page' named := fun i hi => by
  unfold DataPage.record
  rw [h i hi, hb]
  exact ⟨Iff.rfl, rfl⟩

theorem Compressed.kept (h : Compressed page page')
    (hempty : ∀ i, (page.slot i).dpgOffset = 0 → (page.slot i).dpgLength = 0) :
    Kept page page' [] := fun i _ => by
  refine ⟨h.used i, ?_⟩
  by_cases hz : (page.slot i).dpgOffset = 0
  · refine record_congr (h.length i) fun k hk => ?_
    rw [hempty i hz] at hk
    omega
  · exact h.record i hz

theorem kept_write (h : WellFormed page) (hused : (page.slot line).dpgOffset ≠ 0)
    (hempty : ∀ i, (page.slot i).dpgOffset = 0 → (page.slot i).dpgLength = 0)
    (hfit : ∀ f ∈ fields, f.1 + f.2.length ≤ n) (hn : n ≤ (page.slot line).dpgLength) :
    Kept page (page.write (page.slot line).dpgOffset fields) [line] := fun i hi => by
  rw [mem_singleton] at hi
  refine ⟨Iff.rfl, record_congr rfl fun k hk => write_outside hfit ?_⟩
  have hi0 : (page.slot i).dpgOffset ≠ 0 := fun hz => by
    rw [hempty i hz] at hk
    omega
  have hap := h.apart i line hi hi0 hused
  have hr := le_rup (page.slot i).dpgLength
  have hr' := le_rup (page.slot line).dpgLength
  change (page.slot i).dpgOffset + k < _ ∨ _ ≤ (page.slot i).dpgOffset + k
  unfold Interval.Apart at hap
  omega

/-! ## The invariant -/

/-- A record for which `find_space` leaves at most so much space that nothing overflows. -/
def Long (record : List UInt8) : Prop :=
  17 ≤ record.length ∨ 13 ≤ record.length ∧ record.getD 10 0 &&& 1 ≠ 0

theorem Long.le {record : List UInt8} (h : Long record) : 13 ≤ record.length := by
  unfold Long at h
  omega

structure Laid (page : DataPage) : Prop extends WellFormed page where
  size : page.dbbPageSize ≤ 16384
  aligned : 4 ∣ page.dbbPageSize
  empty : ∀ i, (page.slot i).dpgOffset = 0 → (page.slot i).dpgLength = 0
  long : ∀ i, (page.slot i).dpgOffset ≠ 0 → Long (page.record i)

theorem Laid.length_ne (h : Laid page)
    (hi : (page.slot i).dpgOffset ≠ 0) : 13 ≤ (page.slot i).dpgLength := by
  rw [← length_record]
  exact (h.long i hi).le

theorem WellFormed.offset_le (h : WellFormed page)
    (hsize : page.dbbPageSize ≤ 16384) (hs : s ∈ page.dpgRpt) : s.dpgOffset ≤ 16384 := by
  obtain ⟨i, rfl⟩ := exists_slot hs
  by_cases hz : (page.slot i).dpgOffset = 0
  · omega
  · have := h.within i hz
    omega

theorem Laid.of_kept (h : Laid page)
    (hsize : page'.dbbPageSize = page.dbbPageSize) (hwf : WellFormed page')
    (hk : Kept page page' named)
    (hempty : ∀ i ∈ named, (page'.slot i).dpgOffset = 0 → (page'.slot i).dpgLength = 0)
    (hlong : ∀ i ∈ named, (page'.slot i).dpgOffset ≠ 0 → Long (page'.record i)) : Laid page' := by
  refine ⟨hwf, hsize ▸ h.size, hsize ▸ h.aligned, fun i hz => ?_, fun i hne => ?_⟩
  · by_cases hi : i ∈ named
    · exact hempty i hi hz
    · rw [← length_record, (hk i hi).2, length_record]
      exact h.empty i ((hk i hi).1.1 hz)
  · by_cases hi : i ∈ named
    · exact hlong i hi hne
    · rw [(hk i hi).2]
      exact h.long i (mt (hk i hi).1.2 hne)

/-- What an operation makes of a page: all slots but the named ones keep their records. -/
structure Next (page page' : DataPage) (named : List Nat) : Prop where
  laid : Laid page'
  size : page'.dbbPageSize = page.dbbPageSize
  kept : Kept page page' named

theorem Laid.next (h : Laid page) : Next page page [] :=
  ⟨h, rfl, fun _ _ => ⟨Iff.rfl, rfl⟩⟩

theorem Next.trans {page'' : DataPage} (h : Next page page' named) (h' : Next page' page'' named') :
    Next page page'' (named ++ named') :=
  ⟨h'.laid, h'.size.trans h.size, h.kept.trans h'.kept⟩

theorem Next.mono (h : Next page page' named)
    (hsub : named ⊆ named') : Next page page' named' := ⟨h.laid, h.size, h.kept.mono hsub⟩

theorem Laid.write (h : Laid page) (hused : (page.slot line).dpgOffset ≠ 0)
    (hfit : ∀ f ∈ fields, f.1 + f.2.length ≤ (page.slot line).dpgLength)
    (hlong : Long ((page.write (page.slot line).dpgOffset fields).record line)) :
    Next page (page.write (page.slot line).dpgOffset fields) [line] := by
  have hkept := kept_write h.toWellFormed hused h.empty hfit (Nat.le_refl _)
  refine ⟨h.of_kept rfl ⟨h.high, h.within, h.apart⟩ hkept ?_ ?_, rfl, hkept⟩ <;>
    intro i hi <;> rw [mem_singleton.1 hi]
  · exact h.empty line
  · exact fun _ => hlong

theorem Laid.write_long (h : Laid page) (hused : (page.slot line).dpgOffset ≠ 0)
    (hfit : ∀ f ∈ fields, f.1 + f.2.length ≤ (page.slot line).dpgLength)
    (hlen : 17 ≤ (page.slot line).dpgLength) :
    Next page (page.write (page.slot line).dpgOffset fields) [line] :=
  h.write hused hfit (.inl ((length_record _ _).symm ▸ hlen))

theorem WellFormed.of_areas (h : WellFormed page) {σ : Nat → Nat}
    (hσ : Function.Injective σ) (hsize : page'.dbbPageSize = page.dbbPageSize)
    (hcount : page'.dpgCount ≤ page.dpgCount)
    (hslot : ∀ i, (page'.slot i).dpgOffset ≠ 0 →
      (page'.slot i).dpgOffset = (page.slot (σ i)).dpgOffset ∧
        (page'.slot i).dpgLength ≤ (page.slot (σ i)).dpgLength) : WellFormed page' := by
  have hrup : ∀ i, (page'.slot i).dpgOffset ≠ 0 →
      rup (page'.slot i).dpgLength ≤ rup (page.slot (σ i)).dpgLength := by
    intro i hi
    have := (hslot i hi).2
    unfold rup
    omega
  refine ⟨?_, fun i hi => ?_, fun i j hij hi hj => ?_⟩
  · have := h.high
    omega
  · have := h.within (σ i) ((hslot i hi).1 ▸ hi)
    have := (hslot i hi).1
    have := hrup i hi
    omega
  · have hap := h.apart _ _ (hσ.ne hij) ((hslot i hi).1 ▸ hi) ((hslot j hj).1 ▸ hj)
    have := (hslot i hi).1
    have := (hslot j hj).1
    have := hrup i hi
    have := hrup j hj
    unfold Interval.Apart at hap ⊢
    omega

theorem WellFormed.place (h : WellFormed page) {space : Nat}
    (hline : line ≤ page.dpgCount) (hhigh : 24 + 4 * (page.extend line).dpgCount ≤ space)
    (hbelow : ∀ i, i ≠ line → (page.slot i).dpgOffset ≠ 0 → space + rup n ≤ (page.slot i).dpgOffset)
    (hfit : space + rup n ≤ page.dbbPageSize) :
    WellFormed ((page.extend line).setSlot line ⟨space, n⟩) := by
  have hlt : line < (page.extend line).dpgCount := by
    rw [dpgCount_extend]
    split_ifs <;> omega
  have hother : ∀ i, i ≠ line → ((page.extend line).setSlot line ⟨space, n⟩).slot i = page.slot i :=
    fun i hi => by rw [slot_setSlot_ne hi, slot_extend]
  have hsize : ((page.extend line).setSlot line ⟨space, n⟩).dbbPageSize = page.dbbPageSize :=
    dbbPageSize_extend page line
  have hself := slot_setSlot_self hlt ⟨space, n⟩
  refine ⟨?_, fun i => ?_, fun i j hij => ?_⟩
  · rw [dpgCount_setSlot, hsize]
    omega
  · rw [dpgCount_setSlot, hsize]
    by_cases hi : i = line
    · subst hi
      rw [hself]
      exact fun _ => ⟨hhigh, hfit⟩
    · rw [hother i hi]
      intro hne
      have := hbelow i hi hne
      exact ⟨by omega, (h.within i hne).2⟩
  · by_cases hi : i = line
    · subst hi
      rw [hself, hother j hij.symm]
      exact fun _ hj => .inl (hbelow j hij.symm hj)
    · by_cases hj : j = line
      · subst hj
        rw [hself, hother i hi]
        exact fun hi' _ => .inr (hbelow i hi hi')
      · rw [hother i hi, hother j hj]
        exact h.apart i j hij

theorem kept_place (page : DataPage) (line : Nat) (s : DpgRepeat) :
    Kept page ((page.extend line).setSlot line s) [line] :=
  Kept.of_slots (bytes_extend page line) fun i hi => by
    rw [slot_setSlot_ne (mem_singleton.not.1 hi), slot_extend]

def lowest (slots : List DpgRepeat) (space : Nat) : Nat :=
  slots.foldl (fun m s => if s.dpgOffset = 0 then m else min m s.dpgOffset) space

theorem lowest_cons (s : DpgRepeat) (slots : List DpgRepeat) (space : Nat) :
    lowest (s :: slots) space =
      lowest slots (if s.dpgOffset = 0 then space else min space s.dpgOffset) := rfl

theorem lowest_le (slots : List DpgRepeat) (space : Nat) : lowest slots space ≤ space := by
  induction slots generalizing space with
  | nil => exact Nat.le_refl _
  | cons s slots ih =>
    rw [lowest_cons]
    refine Nat.le_trans (ih _) ?_
    split_ifs <;> omega

theorem lowest_le_of_mem {slots : List DpgRepeat} (hs : s ∈ slots)
    (hne : s.dpgOffset ≠ 0) (space : Nat) : lowest slots space ≤ s.dpgOffset := by
  induction slots generalizing space with
  | nil => exact absurd hs not_mem_nil
  | cons t slots ih =>
    rw [lowest_cons]
    obtain rfl | hs := mem_cons.1 hs
    · rw [if_neg hne]
      exact Nat.le_trans (lowest_le _ _) (Nat.min_le_right _ _)
    · exact ih hs _

theorem lowest_le_slot (h : (page.slot i).dpgOffset ≠ 0) (space : Nat) :
    lowest page.dpgRpt space ≤ (page.slot i).dpgOffset := by
  have hi : i < page.dpgRpt.length := lt_of_used h
  rw [slot_of_lt hi] at h ⊢
  exact lowest_le_of_mem (getElem_mem hi) h space

/-- A page with the records of another one, below which there is space. -/
structure Room (page page' : DataPage) (space : Nat) : Prop where
  wellFormed : WellFormed page'
  size : page'.dbbPageSize = page.dbbPageSize
  count : page'.dpgCount = page.dpgCount
  kept : Kept page page' []
  le : space ≤ page.dbbPageSize
  below : ∀ i, (page'.slot i).dpgOffset ≠ 0 → space ≤ (page'.slot i).dpgOffset

theorem room_lowest (h : WellFormed page) : Room page page (lowest page.dpgRpt page.dbbPageSize) :=
  ⟨h, rfl, rfl, fun _ _ => ⟨Iff.rfl, rfl⟩, lowest_le _ _, fun _ hi => lowest_le_slot hi _⟩

theorem dpmCompress_room (h : WellFormed page) (hsize : page.dbbPageSize ≤ 16384)
    (hempty : ∀ i, (page.slot i).dpgOffset = 0 → (page.slot i).dpgLength = 0) :
    ∃ page', Gives (fun w => dpmCompress w page)
        (((page.dbbPageSize - total page.dpgRpt : Nat) : Int), page') ∧
      Room page page' (page.dbbPageSize - total page.dpgRpt) := by
  obtain ⟨page', hgives, hwf, hcomp⟩ := dpmCompress_gives h hsize
  exact ⟨page', hgives, hwf, hcomp.size, hcomp.count, hcomp.kept hempty, Nat.sub_le _ _,
    hcomp.below⟩

theorem Room.place {space : Nat} (h : Room page page' space)
    (hline : line ≤ page.dpgCount) (hhigh : 24 + 4 * (page'.extend line).dpgCount + rup n ≤ space) :
    WellFormed ((page'.extend line).setSlot line ⟨space - rup n, n⟩) ∧
      Kept page ((page'.extend line).setSlot line ⟨space - rup n, n⟩) [line] := by
  refine ⟨h.wellFormed.place (h.count ▸ hline) (by omega) (fun i _ hi => ?_) ?_,
    h.kept.trans (kept_place _ _ _)⟩
  · have := h.below i hi
    omega
  · have := h.le
    have := h.size
    omega

theorem updateSlots_gives (slots : List DpgRepeat) :
    ∀ available space : Nat, total slots ≤ available → available ≤ 16384 → space ≤ 16384 →
      (∀ s ∈ slots, s.dpgOffset ≤ 16384) →
      Gives (fun w => updateSlots w slots available space)
        (((available - total slots : Nat) : Int), (lowest slots space : Int)) := by
  induction slots with
  | nil => exact fun available space _ _ _ _ => gives_some _
  | cons s slots ih =>
    intro available space htotal havailable hspace hoff
    have hs := hoff s mem_cons_self
    have hrest := fun t ht => hoff t (mem_cons_of_mem s ht)
    rw [total_cons] at htotal ⊢
    rw [lowest_cons]
    refine (gives_nat (by omega)).bind ?_
    by_cases hz : s.dpgOffset = 0
    · rw [if_pos hz, Nat.zero_add] at htotal ⊢
      rw [if_pos hz]
      exact (ih available space htotal havailable hspace hrest).ite_neg (by omega)
    · rw [if_neg hz] at htotal ⊢
      rw [if_neg hz, roundup_natCast, ← Nat.sub_sub]
      refine Gives.ite_pos ((gives_sub (by omega) (by omega)).bind ((gives_min (by omega)).bind ?_))
        (by omega)
      exact ih _ _ (by omega) (by omega) (by omega) hrest

theorem chainSlots_gives (count : Nat) (slots : List DpgRepeat) :
    ∀ n slot available space : Nat, total slots ≤ available → available ≤ 16384 → space ≤ 16384 →
      (∀ s ∈ slots, s.dpgOffset ≤ 16384 ∧ (s.dpgOffset = 0 ↔ s.dpgLength = 0)) →
      ∃ slot', Gives (fun w => chainSlots w count slots n slot available space)
          (slot', ((available - total slots : Nat) : Int), (lowest slots space : Int)) ∧
        (slot' = slot ∨ ∃ k s, slot' = n + k ∧ slots[k]? = some s ∧ s.dpgLength = 0) := by
  induction slots with
  | nil => exact fun n slot available space _ _ _ _ => ⟨slot, gives_some _, .inl rfl⟩
  | cons s slots ih =>
    intro n slot available space htotal havailable hspace hoff
    obtain ⟨hs, hiff⟩ := hoff s mem_cons_self
    have hrest := fun t ht => hoff t (mem_cons_of_mem s ht)
    -- the slot with which the scan goes on
    have hslot : ∀ slot', (slot' = (if s.dpgLength = 0 ∧ slot = count then n else slot) ∨
        ∃ k t, slot' = n + 1 + k ∧ slots[k]? = some t ∧ t.dpgLength = 0) →
        slot' = slot ∨ ∃ k t, slot' = n + k ∧ (s :: slots)[k]? = some t ∧ t.dpgLength = 0 := by
      rintro slot' (rfl | ⟨k, t, rfl, ht, hl⟩)
      · split_ifs with h
        · exact .inr ⟨0, s, rfl, rfl, h.1⟩
        · exact .inl rfl
      · exact .inr ⟨k + 1, t, by omega, ht, hl⟩
    rw [total_cons] at htotal ⊢
    rw [lowest_cons]
    by_cases hz : s.dpgOffset = 0
    · rw [if_pos hz, Nat.zero_add] at htotal ⊢
      rw [if_pos hz]
      obtain ⟨slot', hgives, hor⟩ := ih (n + 1) (if s.dpgLength = 0 ∧ slot = count then n else slot)
        available space htotal havailable hspace hrest
      exact ⟨slot', hgives.ite_neg fun h => h.2 hz, hslot slot' hor⟩
    · rw [if_neg hz] at htotal ⊢
      rw [if_neg hz, ← Nat.sub_sub]
      obtain ⟨slot', hgives, hor⟩ := ih (n + 1) (if s.dpgLength = 0 ∧ slot = count then n else slot)
        (available - rup s.dpgLength) (min space s.dpgOffset) (by omega) (by omega) (by omega) hrest
      refine ⟨slot', ?_, hslot slot' hor⟩
      simp only [chainSlots, roundup_natCast]
      exact Gives.ite_pos ((gives_nat (by omega)).bind ((gives_sub (by omega) (by omega)).bind
        ((gives_min (by omega)).bind hgives))) ⟨mt hiff.2 hz, hz⟩

end Firebird.Jrd.Dpm
