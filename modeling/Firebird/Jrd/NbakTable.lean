import Mathlib.Data.List.Nodup
import Mathlib.Data.List.Perm.Subperm
import Firebird.Lib.Blocks
import Firebird.Jrd.Nbak

/-!
# The table of the difference file as a list

The items of the table are the pages of the database in the order in which they were first asked
for, and what a process knows is a prefix of them.
-/
namespace Firebird.Jrd.Nbak

open Lib.Blocks List Function

def tableOf (w : Nat) (t : List Nat) (dbPage : Nat) : Option Nat :=
  if dbPage ∈ t then some (position w (t.idxOf dbPage) + 1) else none

/-- The items of the table, with the bounds that their numbers have. -/
structure Items (t : List Nat) : Prop where
  nodup : t.Nodup
  lt : ∀ x ∈ t, x < 2 ^ 31

section Items

variable {w n i : Nat} {t : List Nat} {x : Nat}

theorem Items.length_le (h : Items t) : t.length ≤ 2 ^ 31 := by
  have hsub : t ⊆ List.range (2 ^ 31) := fun x hx => mem_range.2 (h.lt x hx)
  have := (h.nodup.subperm hsub).length_le
  rwa [length_range] at this

theorem Items.concat (h : Items t) (hx : x ∉ t) (hlt : x < 2 ^ 31) : Items (t ++ [x]) := by
  refine ⟨nodup_append.2 ⟨h.nodup, nodup_singleton x, ?_⟩, ?_⟩
  · intro a ha b hb hab
    rw [mem_singleton.1 hb] at hab
    exact hx (hab ▸ ha)
  · intro a ha
    obtain ha | ha := mem_append.1 ha
    · exact h.lt a ha
    · rw [mem_singleton.1 ha]
      exact hlt

theorem Items.position_lt (h : Items t) (hw : 3 ≤ w) (hn : n ≤ t.length) :
    position w n + 2 < 2 ^ 32 := by
  have := h.length_le
  have := position_le hw n
  omega

theorem tableOf_concat (w : Nat) (hx : x ∉ t) :
    tableOf w (t ++ [x]) = update (tableOf w t) x (some (position w t.length + 1)) := by
  funext y
  by_cases hy : y = x
  · subst hy
    simp [tableOf, idxOf_append_of_notMem hx]
  · rw [update_of_ne hy]
    unfold tableOf
    by_cases hmem : y ∈ t
    · simp [hmem, idxOf_append_of_mem hmem]
    · simp [hmem, hy]

theorem take_succ_of_getElem? (h : t[n]? = some x) : t.take (n + 1) = t.take n ++ [x] := by
  rw [take_add_one, h]
  rfl

theorem Items.notMem_take (h : Items t) (hx : t[n]? = some x) : x ∉ t.take n := by
  have hnodup := h.nodup.sublist (take_sublist (n + 1) t)
  rw [take_succ_of_getElem? hx] at hnodup
  intro hmem
  exact (nodup_append.1 hnodup).2.2 x hmem x (mem_singleton_self x) rfl

end Items

def PageOf (w : Nat) (t : List Nat) (b : Nat) (page : Page) : Prop :=
  page 0 = min w (t.length - b * w) ∧ ∀ i < page 0, t[b * w + i]? = some (page (i + 1))

def OnDisk (w : Nat) (file : DiffFile) (t : List Nat) : Prop :=
  ∀ b ≤ t.length / w, ∃ page, file (b * (w + 1)) = some page ∧ PageOf w t b page

structure Knows (w : Nat) (t : List Nat) (m : BackupManager) : Prop where
  table : m.allocTable = tableOf w t
  last : m.lastAllocatedPage = position w t.length

structure Actual (w : Nat) (t : List Nat) (m : BackupManager) : Prop extends Knows w t m where
  buffer : PageOf w t (t.length / w) m.allocBuffer

theorem ulong_eq {x : Nat} (h : x < 2 ^ 32) : ulong x = x := Nat.mod_eq_of_lt h

theorem pointerPage_position {w k n : Nat} (hw : w + 1 = 2 ^ k) (hk : k ≤ 32) (hpos : 0 < w)
    (hn : position w n < 2 ^ 32) : pointerPage (w + 1) (position w n) = n / w * (w + 1) := by
  unfold pointerPage
  rw [hw, and_sub_two_pow hn hk, ← hw, position_div hpos]

section Actualize

variable {w k : Nat} {t : List Nat}

theorem mul_add_div {b i : Nat} (hi : i < w) : (b * w + i) / w = b := by
  rw [Nat.add_comm, Nat.add_mul_div_right _ _ (by omega), Nat.div_eq_of_lt hi, Nat.zero_add]

theorem addItems_eq {b : Nat} {page : Page} (hw : 3 ≤ w) (ht : Items t) (hpage : PageOf w t b page)
    (n i : Nat) (hn : i + n = page 0) :
    addItems (b * (w + 1)) page n i (tableOf w (t.take (b * w + i))) =
      some (tableOf w (t.take (b * w + (i + n)))) := by
  induction n generalizing i with
  | zero => rfl
  | succ n ih =>
    have hitem := hpage.2 i (by omega)
    have hlt : b * w + i < t.length := (List.getElem?_eq_some_iff.1 hitem).1
    have hnot := ht.notMem_take hitem
    have hi : i < w := by
      have := hpage.1
      omega
    have hpos : position w (b * w + i) = b * (w + 1) + i := by
      rw [position, mul_add_div hi, Nat.mul_add]
      omega
    have hbound := ht.position_lt hw hlt.le
    have hnext : tableOf w (t.take (b * w + (i + 1))) =
        update (tableOf w (t.take (b * w + i))) (page (i + 1))
          (some (b * (w + 1) + i + 1)) := by
      rw [← Nat.add_assoc, take_succ_of_getElem? hitem, tableOf_concat w hnot, length_take,
        Nat.min_eq_left hlt.le, hpos]
    have hnone : tableOf w (t.take (b * w + i)) (page (i + 1)) = none := if_neg hnot
    rw [addItems, hnone, if_neg (by simp), ulong_eq (by omega), ← hnext, ih (i + 1) (by omega)]
    rw [show i + 1 + n = i + (n + 1) by omega]

theorem actualizeLoop_spec {file : DiffFile} (hw : 3 ≤ w) (hpow : w + 1 = 2 ^ k) (hk : k ≤ 32)
    (ht : Items t) (hdisk : OnDisk w file t) (fuel : Nat) {n : Nat} {m : BackupManager}
    (hn : n ≤ t.length) (hm : Knows w (t.take n) m) (hfuel : t.length / w < fuel + n / w) :
    ∃ m', actualizeLoop (w + 1) file fuel m = some m' ∧ Actual w t m' := by
  have hle : n / w ≤ t.length / w := Nat.div_le_div_right hn
  induction fuel generalizing n m with
  | zero => omega
  | succ fuel ih =>
    obtain ⟨page, hread, hpage⟩ := hdisk (n / w) hle
    have hbound := ht.position_lt hw hn
    have hlen := ht.position_lt hw (Nat.le_refl t.length)
    have hdiv := Nat.div_add_mod' n w
    have hmod := Nat.mod_lt n (show 0 < w by omega)
    have hlast : m.lastAllocatedPage = n / w * (w + 1) + n % w := by
      rw [hm.last, length_take, Nat.min_eq_left hn, position_eq]
    have hbase : pointerPage (w + 1) m.lastAllocatedPage = n / w * (w + 1) := by
      rw [hlast, ← position_eq]
      exact pointerPage_position hpow hk (by omega) (by omega)
    have hcount := hpage.1
    have hadd := addItems_eq hw ht hpage (page 0 - n % w) (n % w) (by omega)
    rw [hdiv, Nat.add_sub_cancel' (by omega)] at hadd
    unfold actualizeLoop
    simp only [hbase, hread, Option.bind_eq_bind, Option.bind_some,
      show m.lastAllocatedPage - n / w * (w + 1) = n % w by omega, hm.table, hadd]
    by_cases hfull : page 0 = w
    · -- the page is full, and the next one is read
      have hn' : (n / w + 1) * w ≤ t.length := by
        rw [Nat.add_mul]
        omega
      have hdiv' : (n / w + 1) * w / w = n / w + 1 := Nat.mul_div_cancel _ (by omega)
      have hpos : position w ((n / w + 1) * w) = n / w * (w + 1) + w + 1 := by
        rw [position, hdiv', Nat.add_mul, Nat.mul_add]
        omega
      have hbound' := ht.position_lt hw hn'
      rw [if_pos (by omega), ulong_eq (x := n / w * (w + 1) + page 0) (by omega), ulong_eq
        (by omega)]
      refine ih hn' ⟨?_, ?_⟩ (by omega) (Nat.div_le_div_right hn')
      · rw [hfull, Nat.add_mul, Nat.one_mul]
      · rw [length_take, Nat.min_eq_left hn', hpos, hfull]
    · have htaken : n / w * w + page 0 = t.length := by omega
      have hblock : t.length / w = n / w := by
        rw [← htaken]
        exact mul_add_div (by omega)
      have hpos : position w t.length = n / w * (w + 1) + page 0 := by
        rw [position, hblock, Nat.mul_add]
        omega
      rw [if_neg (by omega), ulong_eq (by omega)]
      refine ⟨_, rfl, ⟨?_, hpos.symm⟩, ?_⟩
      · rw [htaken, take_length]
      · rw [hblock]
        exact hpage

theorem actualizeAlloc_spec {file : DiffFile} (hw : 3 ≤ w) (hpow : w + 1 = 2 ^ k) (hk : k ≤ 32)
    (ht : Items t) (hdisk : OnDisk w file t) {n : Nat} {m : BackupManager}
    (hn : n ≤ t.length) (hm : Knows w (t.take n) m) :
    ∃ m', actualizeAlloc (w + 1) file m = some m' ∧ Actual w t m' := by
  refine actualizeLoop_spec hw hpow hk ht hdisk _ hn hm ?_
  have := ht.length_le
  have := Nat.div_le_self t.length w
  have := Nat.zero_le (n / w)
  omega

end Actualize

section Allocate

variable {w k : Nat} {t : List Nat} {file : DiffFile} {m : BackupManager} {dbPage : Nat}

theorem getPageIndex_ne_zero (hm : Knows w t m) : getPageIndex m dbPage ≠ 0 ↔ dbPage ∈ t := by
  rw [getPageIndex, hm.table, tableOf]
  by_cases h : dbPage ∈ t <;> simp [h]

theorem getPageIndex_eq (hm : Knows w t m) (h : dbPage ∈ t) :
    tableOf w t dbPage = some (getPageIndex m dbPage) := by
  rw [getPageIndex, hm.table, tableOf, if_pos h]
  rfl

variable {page : Page}

theorem PageOf.push (hw : 0 < w) (hpage : PageOf w t (t.length / w) page)
    (hlen : t.length < 2 ^ 32 - 1) : PageOf w (t ++ [dbPage]) (t.length / w)
    (pushEntry page dbPage) := by
  have hdiv := Nat.div_add_mod' t.length w
  have hmod := Nat.mod_lt t.length hw
  have hcount := hpage.1
  have hlast : t.length / w * w + page 0 = t.length := by omega
  have hulong : ulong (page 0 + 1) = page 0 + 1 := ulong_eq (by omega)
  have hzero : pushEntry page dbPage 0 = page 0 + 1 := by
    simp [pushEntry, hulong]
  refine ⟨?_, fun i hi => ?_⟩
  · rw [hzero, length_append, length_singleton]
    omega
  · rw [hzero] at hi
    unfold pushEntry
    simp only [hulong]
    obtain hi' | rfl := Nat.lt_succ_iff_lt_or_eq.1 hi
    · rw [update_of_ne (by omega), update_of_ne (by omega), ← hpage.2 i hi']
      exact getElem?_append_left (by omega)
    · rw [update_self, hlast]
      simp

theorem PageOf.concat {b : Nat} (hb : b < t.length / w) (hpage : PageOf w t b page) :
    PageOf w (t ++ [dbPage]) b page := by
  have hle : (b + 1) * w ≤ t.length := (Nat.le_div_iff_mul_le (by
    by_contra h
    rw [Nat.eq_zero_of_not_pos h, Nat.div_zero] at hb
    omega)).1 hb
  rw [Nat.add_mul] at hle
  refine ⟨?_, fun i hi => ?_⟩
  · have := hpage.1
    rw [length_append, length_singleton]
    omega
  · have := (List.getElem?_eq_some_iff.1 (hpage.2 i hi)).1
    rw [getElem?_append_left this]
    exact hpage.2 i hi

theorem OnDisk.push (hw : 3 ≤ w) (hpow : w + 1 = 2 ^ k) (hk : k ≤ 32) (ht : Items t)
    (hdisk : OnDisk w file t) (hm : Actual w t m) (dbPage : Nat) :
    OnDisk w ((growFile (w + 1) file m).write (pointerPage (w + 1) m.lastAllocatedPage)
      (pushEntry m.allocBuffer dbPage)) (t ++ [dbPage]) := by
  have hbound := ht.position_lt hw (Nat.le_refl t.length)
  have hlast := hm.last
  have hpos := position_eq w t.length
  have hmod := Nat.mod_lt t.length (show 0 < w by omega)
  have hdiv := Nat.div_add_mod' t.length w
  have hcount := hm.buffer.1
  rw [hlast, pointerPage_position hpow hk (by omega) (by omega)]
  intro b hb
  rw [length_append, length_singleton] at hb
  obtain hlt | rfl | hgt := Nat.lt_trichotomy b (t.length / w)
  · obtain ⟨page, hread, hpage⟩ := hdisk b hlt.le
    refine ⟨page, ?_, hpage.concat hlt⟩
    have hle : (b + 1) * (w + 1) ≤ t.length / w * (w + 1) := Nat.mul_le_mul_right _ hlt
    rw [Nat.add_mul] at hle
    have hother : ∀ x, t.length / w * (w + 1) ≤ x → b * (w + 1) ≠ x := fun x hx => by omega
    unfold growFile DiffFile.write
    rw [update_of_ne (hother _ (Nat.le_refl _)), hlast, ulong_eq (by omega), ulong_eq (by omega)]
    split_ifs
    · rw [update_of_ne (hother _ (by omega)), update_of_ne (hother _ (by omega)), hread]
    · rw [update_of_ne (hother _ (by omega)), hread]
  · refine ⟨_, update_self .., hm.buffer.push (by omega) ?_⟩
    have := ht.length_le
    omega
  · -- the page of the last items is full now, and the next one is new
    have hfull : t.length % w + 1 = w := by
      by_contra hne
      have := succ_div_of_lt (show t.length % w + 1 < w by omega)
      omega
    have hnext := succ_div_of_eq hfull
    obtain rfl : b = t.length / w + 1 := by omega
    have hnew : (t.length / w + 1) * (w + 1) = position w t.length + 2 := by
      rw [Nat.add_mul]
      omega
    refine ⟨emptyBuffer, ?_, ?_, fun i hi => absurd hi (Nat.not_lt_zero i)⟩
    · unfold growFile DiffFile.write
      rw [update_of_ne (by omega), if_pos (by omega), hlast, ulong_eq (by omega), hnew,
        ulong_eq (by omega), update_self]
    · rw [length_append, length_singleton, Nat.add_mul]
      simp only [emptyBuffer]
      omega

theorem allocateDifferencePage_spec (hw : 3 ≤ w) (hpow : w + 1 = 2 ^ k) (hk : k ≤ 32) (ht : Items t)
    (hdisk : OnDisk w file t) (hm : Actual w t m) (hnot : dbPage ∉ t) :
    ∃ file' m', allocateDifferencePage (w + 1) file m dbPage =
      (position w t.length + 1, file', m') ∧
      OnDisk w file' (t ++ [dbPage]) ∧ Actual w (t ++ [dbPage]) m' := by
  have hbound := ht.position_lt hw (Nat.le_refl t.length)
  have hmod := Nat.mod_lt t.length (show 0 < w by omega)
  have hdiv := Nat.div_add_mod' t.length w
  have hcount := hm.buffer.1
  have hlen := ht.length_le
  have hindex : ¬getPageIndex m dbPage ≠ 0 := mt (getPageIndex_ne_zero hm.toKnows).1 hnot
  have htable : addItem m.allocTable dbPage (position w t.length + 1) =
      tableOf w (t ++ [dbPage]) := by
    have hnone : tableOf w t dbPage = none := if_neg hnot
    rw [addItem, hm.table, hnone, tableOf_concat w hnot]
    rfl
  unfold allocateDifferencePage
  dsimp only
  have hdisk' := hdisk.push hw hpow hk ht hm dbPage
  have hlast := hm.last
  have hone : ulong (m.lastAllocatedPage + 1) = position w t.length + 1 := by
    rw [hlast, ulong_eq (by omega)]
  rw [hone, htable]
  split_ifs with hfull
  · have hfull' : t.length % w + 1 = w := by omega
    have hpos := position_succ_full hfull'
    have hreturn : ulong (position w t.length + 1 + 1 + 2 ^ 32 - 1) = position w t.length + 1 := by
      unfold ulong
      omega
    rw [ulong_eq (x := position w t.length + 1 + 1) (by omega), hreturn]
    refine ⟨_, _, rfl, hdisk', ⟨rfl, ?_⟩, ?_, fun i hi => absurd hi (Nat.not_lt_zero i)⟩
    · rw [length_append, length_singleton, hpos]
    · rw [length_append, length_singleton, succ_div_of_eq hfull', Nat.add_mul]
      simp only [emptyBuffer]
      omega
  · have hsame : t.length % w + 1 < w := by omega
    refine ⟨_, _, rfl, hdisk', ⟨rfl, ?_⟩, ?_⟩
    · rw [length_append, length_singleton, position_succ hsame]
    · rw [length_append, length_singleton, succ_div_of_lt hsame]
      exact hm.buffer.push (by omega) (by omega)

theorem OnDisk.write {diffPage : Nat} (hdisk : OnDisk w file t)
    (hdiff : diffPage % (w + 1) ≠ 0) : OnDisk w (file.write diffPage page) t := by
  intro b hb
  obtain ⟨page', hread, hpage⟩ := hdisk b hb
  refine ⟨page', ?_, hpage⟩
  unfold DiffFile.write
  rw [update_of_ne, hread]
  rintro rfl
  exact hdiff (Nat.mul_mod_left _ _)

end Allocate

end Firebird.Jrd.Nbak
