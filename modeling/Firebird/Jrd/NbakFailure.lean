import Mathlib.Data.Set.Insert
import Mathlib.Logic.Relation
import Firebird.Jrd.NbakRun

/-!
# Failures of `allocate_difference_page`

Each of the calls that `allocate_difference_page` makes may fail. If the file cannot be grown,
nothing has changed. But the new item is in the buffer before the pointer page is written, and the
counters are set to zero where the table cannot take the item: after both failures the buffer has
another number of items than the counter says.
-/
namespace Firebird.Jrd.Nbak

open Lib.Blocks Relation

/-- The calls of `allocate_difference_page` that can fail: `PIO_write` of the next page, of the page
behind it and of the pointer page, and `AllocItemTree::add`. -/
inductive Call
  | nextPage
  | nextPointerPage
  | pointerPage
  | addItem
  deriving DecidableEq

def DiffFile.writeFailed (file : DiffFile) (pageNum : Nat) (left : Option Page) : DiffFile :=
  left.elim file (file.write pageNum)

/-- `allocate_difference_page` where a call fails, if it is made. -/
def allocateDifferencePageFailing (failed : Option Call) (left : Option Page) (entries : Nat)
    (file : DiffFile) (m : BackupManager) (dbPage : Nat) : Nat × DiffFile × BackupManager :=
  let diffPage := getPageIndex m dbPage
  if diffPage ≠ 0 then (diffPage, file, m)
  else if failed = some .nextPage then
    (0, file.writeFailed (ulong (m.lastAllocatedPage + 1)) left, m)
  else if m.allocBuffer 0 = entries - 2 ∧ failed = some .nextPointerPage then
    (0, (file.write (ulong (m.lastAllocatedPage + 1)) emptyBuffer).writeFailed
      (ulong (m.lastAllocatedPage + 2)) left, m)
  else
    let grown := growFile entries file m
    let buffer := pushEntry m.allocBuffer dbPage
    let base := pointerPage entries m.lastAllocatedPage
    if failed = some .pointerPage then
      (0, grown.writeFailed base left, { m with allocBuffer := buffer })
    else if failed = some .addItem then (0, grown.write base buffer, ⟨fun _ => none, 0, buffer⟩)
    else allocateDifferencePage entries file m dbPage

variable {ι : Type*} [DecidableEq ι]

def State.allocated (s : State ι) (p : ι) (dbPage : Nat) (r : Nat × DiffFile × BackupManager) :
    State ι :=
  ⟨r.2.1, Function.update s.manager p r.2.2,
    if getPageIndex (s.manager p) dbPage ≠ 0 then s.actual else {p}⟩

/-- What happens while the database is locked for a backup, with the calls that may fail. -/
inductive Step (entries : Nat) (mayFail : Set Call) : State ι → State ι → Prop
  | actualize {s : State ι} {m : BackupManager} (p : ι) :
    actualizeAlloc entries s.file (s.manager p) = some m →
      Step entries mayFail s ⟨s.file, Function.update s.manager p m, insert p s.actual⟩
  | allocate {s : State ι} {failed : Option Call} (p : ι) (dbPage : Nat) (left : Option Page) :
    (∀ c ∈ failed, c ∈ mayFail) → p ∈ s.actual → dbPage < 2 ^ 31 →
      Step entries mayFail s (s.allocated p dbPage
        (allocateDifferencePageFailing failed left entries s.file (s.manager p) dbPage))
  | writeDifference {s : State ι} {dbPage diffPage : Nat} (p : ι) (page : Page) :
    (s.manager p).allocTable dbPage = some diffPage →
      Step entries mayFail s { s with file := s.file.write diffPage page }

/-- The state after `begin_backup`. -/
def begun (buffer : ι → Page) : State ι :=
  ⟨DiffFile.write (fun _ => none) 0 emptyBuffer, fun p => ⟨fun _ => none, 0, buffer p⟩, ∅⟩

def growing : Set Call := {.nextPage, .nextPointerPage}

/-- The buffer and the counter of a process, its table and the table in the file are the same. -/
structure Agrees (entries : Nat) (file : DiffFile) (m : BackupManager) : Prop where
  count : m.allocBuffer 0 = m.lastAllocatedPage % entries
  buffer : ∃ page, file (m.lastAllocatedPage / entries * entries) = some page ∧
    ∀ i ≤ page 0, page i = m.allocBuffer i
  table : ∀ dbPage diffPage,
    m.allocTable dbPage = some diffPage ↔ Entry entries file dbPage diffPage
  next : NextFree entries file m.lastAllocatedPage

/-- Each process that need not read the table again agrees with the file. -/
def State.Agree (entries : Nat) (s : State ι) : Prop :=
  ∀ p ∈ s.actual, Agrees entries s.file (s.manager p)

section Agrees

variable {w : Nat} {t : List Nat} {file : DiffFile} {m : BackupManager}

theorem Actual.agrees (hw : 3 ≤ w) (ht : Items t) (hdisk : OnDisk w file t) (hm : Actual w t m) :
    Agrees (w + 1) file m := by
  have hdiv := Nat.div_add_mod' t.length w
  have hmod := Nat.mod_lt t.length (show 0 < w by omega)
  have hcount := hm.buffer.1
  obtain ⟨page, hread, hpage⟩ := hdisk _ (Nat.le_refl _)
  have hcount' := hpage.1
  refine ⟨?_, ⟨page, ?_, fun i hi => ?_⟩, fun dbPage diffPage => ?_, ?_⟩
  · rw [hm.last, position_mod (by omega)]
    omega
  · rw [hm.last, position_div (by omega), hread]
  · cases i with
    | zero => rw [hcount, hcount']
    | succ i =>
      have h := hpage.2 i hi
      have h' := hm.buffer.2 i (by omega)
      exact Option.some.inj (h.symm.trans h')
  · rw [hdisk.entry_iff (by omega) ht, hm.table]
  · rw [hm.last]
    exact hdisk.nextFree (by omega)

omit [DecidableEq ι] in
theorem Holds.agree {s : State ι} {asked : List (Nat × Nat)} (hw : 3 ≤ w)
    (h : Holds w s asked t) : s.Agree (w + 1) :=
  fun p hp => (h.actual p hp).agrees hw h.items h.disk

end Agrees

section Steps

variable {w k : Nat} {s : State ι} {t : List Nat} {file : DiffFile} {m : BackupManager}

theorem OnDisk.write_behind {pageNum : Nat} (hdisk : OnDisk w file t)
    (h : position w t.length < pageNum) (page : Page) :
    OnDisk w (file.write pageNum page) t := by
  intro b hb
  obtain ⟨page', hread, hpage⟩ := hdisk b hb
  refine ⟨page', ?_, hpage⟩
  have hle := Nat.mul_le_mul_right (w + 1) hb
  have hpos := position_eq w t.length
  unfold DiffFile.write
  rw [Function.update_of_ne (by omega), hread]

theorem OnDisk.writeFailed_behind {pageNum : Nat} (hdisk : OnDisk w file t)
    (h : position w t.length < pageNum) (left : Option Page) :
    OnDisk w (file.writeFailed pageNum left) t := by
  cases left with
  | none => exact hdisk
  | some page => exact hdisk.write_behind h page

theorem Holds.grow_failed (h : Holds w s [] t) {p : ι} (hp : p ∈ s.actual) {dbPage : Nat}
    (hindex : getPageIndex (s.manager p) dbPage = 0) {file : DiffFile}
    (hdisk : OnDisk w file t) :
    Holds w (s.allocated p dbPage (0, file, s.manager p)) [] t := by
  refine ⟨h.items, hdisk, ?_, ?_, h.asked⟩
  · simpa [State.allocated] using h.knows
  · intro q hq
    simp only [State.allocated, hindex] at hq ⊢
    obtain rfl : q = p := hq
    simpa using h.actual q hp

theorem Holds.step (hw : 3 ≤ w) (hpow : w + 1 = 2 ^ k) (hk : k ≤ 32) {s' : State ι}
    (h : Holds w s [] t) (hstep : Step (w + 1) growing s s') : ∃ t', Holds w s' [] t' := by
  cases hstep with
  | actualize p heq =>
    obtain ⟨m, heq', h'⟩ := h.actualize hw hpow hk p
    cases heq.symm.trans heq'
    exact ⟨t, h'⟩
  | writeDifference p page hp => exact ⟨t, h.writeDifference (by omega) hp page⟩
  | @allocate failed p dbPage left hfailed hp hdb =>
    have hm := h.actual p hp
    have hbound := h.items.position_lt hw (Nat.le_refl t.length)
    obtain ⟨diffPage, file, m, t', heq, -, h'⟩ := h.allocate hw hpow hk hp hdb
    have hdone : ∃ t', Holds w (s.allocated p dbPage
        (allocateDifferencePage (w + 1) s.file (s.manager p) dbPage)) [] t' := by
      rw [heq]
      exact ⟨t', { h' with asked := fun _ hq => absurd hq List.not_mem_nil }⟩
    unfold allocateDifferencePageFailing
    by_cases hindex : getPageIndex (s.manager p) dbPage = 0
    · have hnone : ¬getPageIndex (s.manager p) dbPage ≠ 0 := not_not_intro hindex
      have hlast := hm.last
      have hone : ulong ((s.manager p).lastAllocatedPage + 1) = position w t.length + 1 := by
        rw [hlast, ulong_eq (by omega)]
      have htwo : ulong ((s.manager p).lastAllocatedPage + 2) = position w t.length + 2 := by
        rw [hlast, ulong_eq (by omega)]
      rw [if_neg hnone, hone, htwo]
      split_ifs with hnext hpointer hpage hadd
      · exact ⟨t, h.grow_failed hp hindex (h.disk.writeFailed_behind (by omega) left)⟩
      · exact ⟨t, h.grow_failed hp hindex
          ((h.disk.write_behind (by omega) _).writeFailed_behind (by omega) left)⟩
      · exact absurd (hfailed _ hpage) (by simp [growing])
      · exact absurd (hfailed _ hadd) (by simp [growing])
      · exact hdone
    · rw [if_pos hindex]
      unfold allocateDifferencePage at hdone
      rwa [if_pos hindex] at hdone

theorem Holds.run (hw : 3 ≤ w) (hpow : w + 1 = 2 ^ k) (hk : k ≤ 32) {s' : State ι}
    (h : Holds w s [] t) (hrun : ReflTransGen (Step (w + 1) growing) s s') :
    ∃ t', Holds w s' [] t' := by
  induction hrun with
  | refl => exact ⟨t, h⟩
  | tail _ hstep ih =>
    obtain ⟨t', h'⟩ := ih
    exact h'.step hw hpow hk hstep

theorem not_agree_of_failed (hw : 3 ≤ w) (h : Holds w s [] t) {p : ι} (hp : p ∈ s.actual)
    {dbPage : Nat} (hindex : getPageIndex (s.manager p) dbPage = 0) {failed : Option Call}
    (hfailed : failed = some .pointerPage ∨ failed = some .addItem) (left : Option Page) :
    ¬(s.allocated p dbPage (allocateDifferencePageFailing failed left (w + 1) s.file (s.manager p)
      dbPage)).Agree (w + 1) := by
  intro hagree
  have hm := h.actual p hp
  have hnone : ¬getPageIndex (s.manager p) dbPage ≠ 0 := not_not_intro hindex
  have hmod := Nat.mod_lt t.length (show 0 < w by omega)
  have hdiv := Nat.div_add_mod' t.length w
  have hlen := h.items.length_le
  have hcount := hm.buffer.1
  have hpush : pushEntry (s.manager p).allocBuffer dbPage 0 = t.length % w + 1 := by
    have hulong : ulong ((s.manager p).allocBuffer 0 + 1) = (s.manager p).allocBuffer 0 + 1 :=
      ulong_eq (by omega)
    simp only [pushEntry]
    rw [Function.update_of_ne (by omega), Function.update_self]
    omega
  have hactual : p ∈ (s.allocated p dbPage (allocateDifferencePageFailing failed left (w + 1) s.file
      (s.manager p) dbPage)).actual := by
    simp only [State.allocated, if_neg hnone]
    rfl
  have hcountAfter := (hagree p hactual).count
  obtain rfl | rfl := hfailed
  · simp [State.allocated, allocateDifferencePageFailing, hindex, hpush, hm.last,
      position_mod (show 0 < w by omega)] at hcountAfter
  · simp [State.allocated, allocateDifferencePageFailing, hindex, hpush] at hcountAfter

end Steps

/-- The tables agree after a call and for ever, if and only if the call has nothing to do or neither
writing the pointer page nor adding the item fails. -/
theorem agree_after_failure_iff {k : Nat} (hk : 2 ≤ k) (hk' : k ≤ 32) {buffer : ι → Page}
    {s : State ι} (hs : ReflTransGen (Step (2 ^ k) growing) (begun buffer) s) {p : ι}
    (hp : p ∈ s.actual) {dbPage : Nat} (hdb : dbPage < 2 ^ 31) (failed : Option Call)
    (left : Option Page) :
    (∀ s', ReflTransGen (Step (2 ^ k) growing) (s.allocated p dbPage
        (allocateDifferencePageFailing failed left (2 ^ k) s.file (s.manager p) dbPage)) s' →
      s'.Agree (2 ^ k)) ↔
    getPageIndex (s.manager p) dbPage ≠ 0 ∨
      failed ≠ some .pointerPage ∧ failed ≠ some .addItem := by
  obtain ⟨w, hpow⟩ : ∃ w, w + 1 = 2 ^ k := ⟨2 ^ k - 1, Nat.sub_add_cancel Nat.one_le_two_pow⟩
  have hw : 3 ≤ w := by
    have := Nat.pow_le_pow_right (by decide : 0 < 2) hk
    omega
  rw [← hpow] at hs ⊢
  obtain ⟨t, ht⟩ := (holds_begin w buffer).run hw hpow hk' hs
  constructor
  · intro hagree
    by_contra! hcon
    obtain ⟨hindex, hfailed⟩ := hcon
    have hor : failed = some .pointerPage ∨ failed = some .addItem := by
      by_cases hpage : failed = some .pointerPage
      · exact .inl hpage
      · exact .inr (hfailed hpage)
    exact not_agree_of_failed hw ht hp hindex hor left (hagree _ .refl)
  · intro hcond s' hrun
    have hstep : Step (w + 1) growing s (s.allocated p dbPage
        (allocateDifferencePageFailing failed left (w + 1) s.file (s.manager p) dbPage)) := by
      obtain hindex | ⟨hpage, hadd⟩ := hcond
      · have hsame : allocateDifferencePageFailing failed left (w + 1) s.file (s.manager p) dbPage =
            allocateDifferencePageFailing none left (w + 1) s.file (s.manager p) dbPage := by
          unfold allocateDifferencePageFailing
          rw [if_pos hindex, if_pos hindex]
        rw [hsame]
        exact .allocate p dbPage left (fun c hc => by cases hc) hp hdb
      · refine .allocate p dbPage left (fun c hc => ?_) hp hdb
        cases c with
        | nextPage => exact .inl rfl
        | nextPointerPage => exact .inr rfl
        | pointerPage => exact absurd hc hpage
        | addItem => exact absurd hc hadd
    obtain ⟨t', ht'⟩ := ht.step hw hpow hk' hstep
    obtain ⟨t'', ht''⟩ := ht'.run hw hpow hk' hrun
    exact ht''.agree hw

theorem exists_actualized (buffer : Bool → Page) :
    ∃ s, ReflTransGen (Step (2 ^ 8) growing) (begun buffer) s ∧ true ∈ s.actual ∧
      getPageIndex (s.manager true) 17 = 0 ∧ Holds 255 s [] [] := by
  obtain ⟨m, hm, h⟩ := (holds_begin 255 buffer).actualize (k := 8) (by decide) (by decide)
    (by decide) true
  have hactual : true ∈ (insert true ∅ : Set Bool) := .inl rfl
  refine ⟨_, .single (.actualize true hm), hactual, ?_, h⟩
  have hknows := (h.actual true hactual).toKnows
  by_contra hne
  exact absurd ((getPageIndex_ne_zero hknows).1 hne) List.not_mem_nil

/-- The first page cannot be written. -/
theorem agree_after_failure_nextPage : ∃ s : State Bool, ∀ s',
    ReflTransGen (Step (2 ^ 8) growing) (s.allocated true 17
      (allocateDifferencePageFailing (some .nextPage) none (2 ^ 8) s.file (s.manager true) 17)) s' →
    s'.Agree (2 ^ 8) := by
  obtain ⟨s, hs, hactual, -, -⟩ := exists_actualized fun _ => emptyBuffer
  exact ⟨s, (agree_after_failure_iff (by decide) (by decide) hs hactual (by decide) (some .nextPage)
    none).2 (.inr ⟨by decide, by decide⟩)⟩

/-- The pointer page cannot be written. -/
theorem not_forall_agree : ¬∀ s : State Bool,
    ReflTransGen (Step (2 ^ 8) growing) (begun fun _ => emptyBuffer) s → true ∈ s.actual →
    ∀ failed, (s.allocated true 17
      (allocateDifferencePageFailing failed none (2 ^ 8) s.file (s.manager true) 17)).Agree
        (2 ^ 8) := by
  intro h
  obtain ⟨s, hs, hactual, hindex, hholds⟩ := exists_actualized fun _ => emptyBuffer
  exact not_agree_of_failed (by decide) hholds hactual hindex (.inl rfl) none
    (h s hs hactual (some .pointerPage))

end Firebird.Jrd.Nbak
