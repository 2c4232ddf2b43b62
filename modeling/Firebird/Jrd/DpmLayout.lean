import Mathlib.Data.List.Forall2
import Mathlib.Data.List.GetD
import Firebird.Lib.Interval
import Firebird.Jrd.Dpm

/-!
# The layout of a data page

The records of a page do not overlap and lie behind the slots. `DPM_compress` moves them together at
the end of the page, with their bytes.
-/
namespace Firebird.Jrd.Dpm

open Lib List

/-- An assignment that keeps every value of an `SSHORT`. -/
def Keeps (w : Int → Option Int) : Prop := ∀ x, -2 ^ 15 ≤ x → x < 2 ^ 15 → w x = some x

theorem keeps_wrap : Keeps wrap := fun x h h' => by
  unfold wrap
  rw [Int.emod_eq_of_lt (by omega) (by omega)]
  simp

theorem keeps_checked : Keeps checked := fun _ h h' => if_pos ⟨h, h'⟩

/-- A computation that has one result, however its assignments treat values that do not fit. -/
def Gives {α : Type} (f : (Int → Option Int) → Option α) (a : α) : Prop :=
  ∀ w, Keeps w → f w = some a

theorem gives_assign {x : Int} (h : -2 ^ 15 ≤ x) (h' : x < 2 ^ 15) : Gives (fun w => w x) x :=
  fun _ hw => hw x h h'

variable {n : Nat}

theorem gives_nat (h : n < 2 ^ 15) : Gives (fun w => w n) (n : Int) :=
  gives_assign (by omega) (by omega)

variable {m : Nat}

theorem gives_sub (h : m < 2 ^ 15) (h' : n ≤ m) :
    Gives (fun w => w ((m : Int) - n)) ((m - n : Nat) : Int) := by
  rw [← Int.natCast_sub h']
  exact gives_nat (by omega)

theorem gives_add (h : m + n < 2 ^ 15) :
    Gives (fun w => w ((m : Int) + n)) ((m + n : Nat) : Int) := gives_nat h

theorem gives_min (h : m < 2 ^ 15) :
    Gives (fun w => w (min (m : Int) n)) ((min m n : Nat) : Int) := by
  rw [show min (m : Int) n = ((min m n : Nat) : Int) by omega]
  exact gives_nat (by omega)

variable {α : Type}

theorem gives_some (a : α) : Gives (fun _ => some a) a := fun _ _ => rfl

variable {f g : (Int → Option Int) → Option α} {a : α}

theorem Gives.bind {β : Type}
    {g : (Int → Option Int) → α → Option β} {b : β} (hf : Gives f a)
    (hg : Gives (fun w => g w a) b) : Gives (fun w => f w >>= g w) b := fun w hw => by
  change (f w).bind (g w) = some b
  rw [hf w hw]
  exact hg w hw

variable {c : Prop}

theorem Gives.ite_pos
    [Decidable c] (hf : Gives f a) (h : c) : Gives (fun w => if c then f w else g w) a :=
  fun w hw => (if_pos h).trans (hf w hw)

theorem Gives.ite_neg
    [Decidable c] (hg : Gives g a) (h : ¬c) : Gives (fun w => if c then f w else g w) a :=
  fun w hw => (if_neg h).trans (hg w hw)

theorem Gives.ite_bind {β : Type}
    {k : (Int → Option Int) → α → Option β} {b : β} [Decidable c]
    (h : Gives (fun w => if c then f w else g w) a) (hk : Gives (fun w => k w a) b) :
    Gives (fun w => if c then f w >>= k w else g w >>= k w) b := by
  by_cases hc : c
  · simp only [if_pos hc] at h ⊢
    exact h.bind hk
  · simp only [if_neg hc] at h ⊢
    exact h.bind hk

@[simp] theorem ushort_natCast (h : n < 2 ^ 16) : ushort n = n := by
  unfold ushort
  omega

def rup (n : Nat) : Nat := (n + 3) / 4 * 4

@[simp] theorem roundup_natCast (n : Nat) : roundup n = rup n := by
  unfold roundup rup
  omega

theorem le_rup (n : Nat) : n ≤ rup n := by
  unfold rup
  omega

theorem highWater_natCast (n : Nat) : highWater n = (24 + 4 * n : Nat) := by
  unfold highWater sizeofDataPage sizeofDpgRepeat
  omega

def total (slots : List DpgRepeat) : Nat :=
  (slots.map fun s => if s.dpgOffset = 0 then 0 else rup s.dpgLength).sum

@[simp] theorem total_nil : total [] = 0 := rfl

theorem total_cons (s : DpgRepeat) (slots : List DpgRepeat) :
    total (s :: slots) = (if s.dpgOffset = 0 then 0 else rup s.dpgLength) + total slots := rfl

def SlotsApart (s t : DpgRepeat) : Prop :=
  s.dpgOffset ≠ 0 → t.dpgOffset ≠ 0 →
    Interval.Apart (s.dpgOffset, rup s.dpgLength) (t.dpgOffset, rup t.dpgLength)

/-- A data page whose records do not overlap and lie behind the slots. -/
structure WellFormed (page : DataPage) : Prop where
  high : 24 + 4 * page.dpgCount ≤ page.dbbPageSize
  within : ∀ i, (page.slot i).dpgOffset ≠ 0 → 24 + 4 * page.dpgCount ≤ (page.slot i).dpgOffset ∧
    (page.slot i).dpgOffset + rup (page.slot i).dpgLength ≤ page.dbbPageSize
  apart : ∀ i j, i ≠ j → SlotsApart (page.slot i) (page.slot j)

variable {page : DataPage} {i : Nat}

theorem slot_of_lt (h : i < page.dpgRpt.length) : page.slot i = page.dpgRpt[i] := by
  unfold DataPage.slot
  rw [getD_eq_getElem _ _ h]

theorem exists_slot {s : DpgRepeat} (h : s ∈ page.dpgRpt) : ∃ i, page.slot i = s := by
  obtain ⟨i, hi, rfl⟩ := mem_iff_getElem.1 h
  exact ⟨i, slot_of_lt hi⟩

theorem lt_of_used (h : (page.slot i).dpgOffset ≠ 0) : i < page.dpgCount := by
  by_contra hle
  unfold DataPage.slot at h
  rw [getD_eq_default _ _ (Nat.le_of_not_lt hle)] at h
  exact h rfl

theorem WellFormed.pairwise (h : WellFormed page) : page.dpgRpt.Pairwise SlotsApart := by
  refine pairwise_iff_getElem.2 fun i j hi hj hij => ?_
  rw [← slot_of_lt hi, ← slot_of_lt hj]
  exact h.apart i j (Nat.ne_of_lt hij)

theorem WellFormed.total_le (h : WellFormed page) :
    24 + 4 * page.dpgCount + total page.dpgRpt ≤ page.dbbPageSize := by
  let cell : DpgRepeat → Nat × Nat := fun s =>
    if s.dpgOffset = 0 then (24 + 4 * page.dpgCount, 0) else (s.dpgOffset, rup s.dpgLength)
  have hin : ∀ s ∈ page.dpgRpt, s.dpgOffset ≠ 0 →
      24 + 4 * page.dpgCount ≤ s.dpgOffset ∧ s.dpgOffset + rup s.dpgLength ≤ page.dbbPageSize := by
    intro s hs
    obtain ⟨i, rfl⟩ := exists_slot hs
    exact h.within i
  have hsum : ((page.dpgRpt.map cell).map Prod.snd).sum = total page.dpgRpt := by
    rw [map_map]
    refine congrArg List.sum (map_congr_left fun s _ => ?_)
    simp only [Function.comp_apply, cell]
    split_ifs <;> rfl
  have hle : ((page.dpgRpt.map cell).map Prod.snd).sum ≤
      page.dbbPageSize - (24 + 4 * page.dpgCount) := by
    refine Interval.sum_le ?_ ?_
    · refine pairwise_map.2 (h.pairwise.imp_of_mem fun {s t} hs ht hst => ?_)
      simp only [cell]
      split_ifs with h₁ h₂ h₂
      · exact .inl (by simp)
      · exact .inl (by simpa using (hin t ht h₂).1)
      · exact .inr (by simpa using (hin s hs h₁).1)
      · exact hst h₁ h₂
    · intro a ha
      obtain ⟨s, hs, rfl⟩ := mem_map.1 ha
      simp only [cell]
      split_ifs with h₁
      · exact ⟨Nat.le_refl _, h.high⟩
      · exact hin s hs h₁
  have := h.high
  omega

def DataPage.record (page : DataPage) (line : Nat) : List UInt8 :=
  (List.range (page.slot line).dpgLength).map fun k => page.bytes ((page.slot line).dpgOffset + k)

@[simp] theorem length_record (page : DataPage) (line : Nat) :
    (page.record line).length = (page.slot line).dpgLength := by
  simp [DataPage.record]

theorem record_congr {page' : DataPage} {j : Nat}
    (hl : (page'.slot i).dpgLength = (page.slot j).dpgLength)
    (h : ∀ k < (page.slot j).dpgLength,
      page'.bytes ((page'.slot i).dpgOffset + k) = page.bytes ((page.slot j).dpgOffset + k)) :
    page'.record i = page.record j := by
  unfold DataPage.record
  rw [hl]
  exact map_congr_left fun k hk => h k (mem_range.1 hk)

def Moved (bytes : Nat → UInt8) (lo hi : Nat) (temp : Nat → UInt8) (s s' : DpgRepeat) : Prop :=
  if s.dpgOffset = 0 then s' = s
  else s'.dpgLength = s.dpgLength ∧ lo ≤ s'.dpgOffset ∧ s'.dpgOffset + rup s.dpgLength ≤ hi ∧
    ∀ k < rup s.dpgLength, temp (s'.dpgOffset + k) = bytes (s.dpgOffset + k)

theorem moved_bounds {bytes temp : Nat → UInt8} {lo hi : Nat} {slots slots' : List DpgRepeat}
    (h : Forall₂ (Moved bytes lo hi temp) slots slots') :
    ∀ t ∈ slots', t.dpgOffset ≠ 0 → lo ≤ t.dpgOffset ∧ t.dpgOffset + rup t.dpgLength ≤ hi := by
  induction h with
  | nil => exact fun t ht => absurd ht not_mem_nil
  | @cons s s' rest rest' hs _ ih =>
    intro t ht hne
    obtain rfl | ht := mem_cons.1 ht
    · unfold Moved at hs
      split_ifs at hs with hz
      · exact absurd hz (hs ▸ hne)
      · obtain ⟨hl, hlo, hhi, _⟩ := hs
        exact ⟨hlo, hl ▸ hhi⟩
    · exact ih t ht hne

theorem Moved.mono {bytes temp : Nat → UInt8} {lo hi hi' : Nat} {s s' : DpgRepeat}
    (h : Moved bytes lo hi temp s s') (hle : hi ≤ hi') : Moved bytes lo hi' temp s s' := by
  unfold Moved at *
  split_ifs at * with hs
  · exact h
  · exact ⟨h.1, h.2.1, Nat.le_trans h.2.2.1 hle, h.2.2.2⟩

theorem compressSlots_gives (bytes : Nat → UInt8) (slots : List DpgRepeat) :
    ∀ (space : Nat) (temp : Nat → UInt8), total slots ≤ space → space ≤ 16384 →
      ∃ slots' temp', Gives (fun w => compressSlots w bytes slots space temp)
          (slots', ((space - total slots : Nat) : Int), temp') ∧
        Forall₂ (Moved bytes (space - total slots) space temp') slots slots' ∧
        slots'.Pairwise SlotsApart ∧
        ∀ a, space ≤ a ∨ a < space - total slots → temp' a = temp a := by
  induction slots with
  | nil =>
    intro space temp _ _
    exact ⟨[], temp, gives_some _, .nil, .nil, fun _ _ => rfl⟩
  | cons s rest ih =>
    intro space temp hlt hsize
    rw [total_cons] at hlt ⊢
    by_cases hs : s.dpgOffset = 0
    · rw [if_pos hs, Nat.zero_add] at hlt ⊢
      obtain ⟨rest', temp', heq, hmoved, hapart, hkeep⟩ := ih space temp hlt hsize
      refine ⟨s :: rest', temp', ?_, .cons ?_ hmoved, pairwise_cons.2 ⟨?_, hapart⟩, hkeep⟩
      · simp only [compressSlots, if_pos hs]
        exact heq.bind (gives_some _)
      · unfold Moved
        rw [if_pos hs]
      · exact fun t _ hs' => absurd hs hs'
    · rw [if_neg hs] at hlt ⊢
      -- the record goes below the ones before it, the other ones below it
      let l := rup s.dpgLength
      obtain ⟨rest', temp', heq, hmoved, hapart, hkeep⟩ := ih (space - l)
        (moveFast bytes s.dpgOffset temp ((space - l : Nat) : Int) l) (by omega) (by omega)
      have htotal : space - l - total rest = space - (l + total rest) := Nat.sub_sub _ _ _
      rw [htotal] at heq hmoved hkeep
      refine ⟨{ s with dpgOffset := space - l } :: rest', temp', ?_, .cons ?_
        (hmoved.imp fun _ _ h =>
        h.mono (Nat.sub_le _ _)), pairwise_cons.2 ⟨fun t ht _ hne => ?_, hapart⟩, fun a ha => ?_⟩
      · simp only [compressSlots, if_neg hs, roundup_natCast]
        refine (gives_nat (by omega)).bind ((gives_sub (by omega) (by omega)).bind (heq.bind ?_))
        rw [ushort_natCast (by omega)]
        exact gives_some _
      · unfold Moved
        rw [if_neg hs]
        refine ⟨rfl, by dsimp only; omega, by dsimp only; omega, fun k hk => ?_⟩
        rw [hkeep _ (.inl (Nat.le_add_right _ _))]
        unfold moveFast
        rw [if_pos (by omega)]
        congr 2
        omega
      · exact .inr (moved_bounds hmoved t ht hne).2
      · rw [hkeep a (by omega)]
        unfold moveFast
        rw [if_neg (by omega)]

/-- What `DPM_compress` makes of a page. -/
structure Compressed (page page' : DataPage) : Prop where
  size : page'.dbbPageSize = page.dbbPageSize
  count : page'.dpgCount = page.dpgCount
  length : ∀ i, (page'.slot i).dpgLength = (page.slot i).dpgLength
  used : ∀ i, (page'.slot i).dpgOffset = 0 ↔ (page.slot i).dpgOffset = 0
  below : ∀ i, (page'.slot i).dpgOffset ≠ 0 →
    page.dbbPageSize - total page.dpgRpt ≤ (page'.slot i).dpgOffset
  record : ∀ i, (page.slot i).dpgOffset ≠ 0 → page'.record i = page.record i

theorem dpmCompress_gives (h : WellFormed page) (hsize : page.dbbPageSize ≤ 16384) :
    ∃ page', Gives (fun w => dpmCompress w page)
        (((page.dbbPageSize - total page.dpgRpt : Nat) : Int), page') ∧
      WellFormed page' ∧ Compressed page page' := by
  have htotal := h.total_le
  obtain ⟨slots, temp, heq, hmoved, hapart, -⟩ :=
    compressSlots_gives page.bytes page.dpgRpt page.dbbPageSize (fun _ => 0) (by omega) hsize
  let page' : DataPage := { page with
    dpgRpt := slots
    bytes := fun a => if ((page.dbbPageSize - total page.dpgRpt : Nat) : Int) ≤ a ∧
      a < page.dbbPageSize then temp a else page.bytes a }
  have hcount : page'.dpgCount = page.dpgCount := hmoved.length_eq.symm
  have hslot : ∀ i, Moved page.bytes (page.dbbPageSize - total page.dpgRpt) page.dbbPageSize temp
      (page.slot i) (page'.slot i) := by
    intro i
    by_cases hi : i < page.dpgCount
    · have hi' : i < page'.dpgCount := hcount ▸ hi
      rw [slot_of_lt hi, slot_of_lt hi']
      exact hmoved.get hi hi'
    · have hi' : page'.dpgCount ≤ i := hcount ▸ Nat.le_of_not_lt hi
      unfold DataPage.slot
      rw [getD_eq_default _ _ (Nat.le_of_not_lt hi), getD_eq_default _ _ hi']
      rfl
  have hused : ∀ i, (page.slot i).dpgOffset ≠ 0 → (page'.slot i).dpgOffset ≠ 0 := by
    intro i hne
    have hm := hslot i
    unfold Moved at hm
    rw [if_neg hne] at hm
    omega
  have hempty : ∀ i, (page.slot i).dpgOffset = 0 → page'.slot i = page.slot i := by
    intro i hz
    have hm := hslot i
    unfold Moved at hm
    rwa [if_pos hz] at hm
  have hbounds := moved_bounds hmoved
  refine ⟨page', ?_, ⟨hcount ▸ h.high, fun i hne => ?_, fun i j hij hi hj => ?_⟩, rfl, hcount,
    fun i => ?_, fun i => ⟨fun hz => ?_, fun hz => (hempty i hz).symm ▸ hz⟩, fun i hne =>
      ?_, fun i hne => ?_⟩
  · exact (gives_nat (by omega)).bind (heq.bind (gives_some _))
  · have hi : i < page'.dpgRpt.length := lt_of_used hne
    have hb := hbounds _ (getElem_mem hi) (slot_of_lt hi ▸ hne)
    rw [hcount, slot_of_lt hi]
    exact ⟨by omega, hb.2⟩
  · have hil : i < page'.dpgRpt.length := lt_of_used hi
    have hjl : j < page'.dpgRpt.length := lt_of_used hj
    rw [slot_of_lt hil, slot_of_lt hjl] at *
    obtain hlt | hlt := Nat.lt_or_gt_of_ne hij
    · exact pairwise_iff_getElem.1 hapart i j hil hjl hlt hi hj
    · exact (pairwise_iff_getElem.1 hapart j i hjl hil hlt hj hi).symm
  · by_cases hz : (page.slot i).dpgOffset = 0
    · rw [hempty i hz]
    · have hm := hslot i
      unfold Moved at hm
      rw [if_neg hz] at hm
      exact hm.1
  · by_contra hne
    exact hused i hne hz
  · have hi : i < page'.dpgRpt.length := lt_of_used hne
    exact slot_of_lt hi ▸ (hbounds _ (getElem_mem hi) (slot_of_lt hi ▸ hne)).1
  · have hm := hslot i
    unfold Moved at hm
    rw [if_neg hne] at hm
    obtain ⟨hl, hlo, hhi, hbytes⟩ := hm
    have hrup := le_rup (page.slot i).dpgLength
    refine record_congr hl fun k hk => ?_
    rw [← hbytes k (by omega)]
    exact if_pos (by omega)

end Firebird.Jrd.Dpm
