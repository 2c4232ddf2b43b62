import Firebird.Jrd.NbakTable

/-!
# Runs of processes that share a difference file

The table in the file maps pages of the database to pages of the file, and does not change but for
new items. The processes that have read it know all of it.
-/
namespace Firebird.Jrd.Nbak

open Lib.Blocks List

def FullBefore (entries : Nat) (file : DiffFile) (pageNum : Nat) : Prop :=
  ∀ b < pageNum / entries, ∃ page, file (b * entries) = some page ∧ page 0 = entries - 1

/-- The table in the file maps a page of the database to a page of the file. -/
def Entry (entries : Nat) (file : DiffFile) (dbPage diffPage : Nat) : Prop :=
  FullBefore entries file diffPage ∧ ∃ page, file (diffPage / entries * entries) = some page ∧
    0 < diffPage % entries ∧ diffPage % entries ≤ page 0 ∧ page (diffPage % entries) = dbPage

def NextFree (entries : Nat) (file : DiffFile) (last : Nat) : Prop :=
  FullBefore entries file last ∧ ∃ page, file (last / entries * entries) = some page ∧
    page 0 = last % entries ∧ page 0 < entries - 1

section Entry

variable {w : Nat} {t : List Nat} {file : DiffFile}

theorem OnDisk.fullBefore (hw : 0 < w) (hdisk : OnDisk w file t) {pageNum : Nat}
    (h : pageNum / (w + 1) ≤ t.length / w) : FullBefore (w + 1) file pageNum := by
  intro b hb
  obtain ⟨page, hread, hpage⟩ := hdisk b (by omega)
  refine ⟨page, hread, ?_⟩
  have hle : (b + 1) * w ≤ t.length := (Nat.le_div_iff_mul_le hw).1 (by omega)
  rw [Nat.add_mul] at hle
  have := hpage.1
  omega

theorem OnDisk.div_le (hw : 0 < w) (hdisk : OnDisk w file t) {pageNum : Nat}
    (h : FullBefore (w + 1) file pageNum) : pageNum / (w + 1) ≤ t.length / w := by
  by_contra hlt
  obtain ⟨page, hread, hfull⟩ := h (t.length / w) (by omega)
  obtain ⟨page', hread', hpage⟩ := hdisk (t.length / w) (Nat.le_refl _)
  rw [hread] at hread'
  cases hread'
  have := hpage.1
  have := Nat.div_add_mod' t.length w
  have := Nat.mod_lt t.length hw
  omega

theorem OnDisk.entry_iff (hw : 0 < w) (ht : Items t) (hdisk : OnDisk w file t)
    {dbPage diffPage : Nat} :
    Entry (w + 1) file dbPage diffPage ↔ tableOf w t dbPage = some diffPage := by
  constructor
  · rintro ⟨hfull, page, hread, hpos, hle, rfl⟩
    obtain ⟨page', hread', hpage⟩ := hdisk _ (hdisk.div_le hw hfull)
    rw [hread] at hread'
    cases hread'
    have hcount := hpage.1
    have hdiv := Nat.div_add_mod' diffPage (w + 1)
    have hitem := hpage.2 (diffPage % (w + 1) - 1) (by omega)
    rw [Nat.sub_add_cancel hpos] at hitem
    obtain ⟨hlt, hget⟩ := List.getElem?_eq_some_iff.1 hitem
    have hindex := ht.nodup.idxOf_getElem _ hlt
    rw [hget] at hindex
    rw [tableOf, if_pos (mem_of_getElem? hitem), hindex, position, mul_add_div (by omega)]
    rw [Nat.mul_add] at hdiv
    congr 1
    omega
  · intro h
    unfold tableOf at h
    split_ifs at h with hmem
    cases h
    have hlt := idxOf_lt_length_of_mem hmem
    have hle := Nat.div_le_div_right (c := w) hlt.le
    have hmod := Nat.mod_lt (t.idxOf dbPage) hw
    have hdiv := Nat.div_add_mod' (t.idxOf dbPage) w
    obtain ⟨page, hread, hpage⟩ := hdisk _ hle
    have hcount := hpage.1
    refine ⟨hdisk.fullBefore hw (by rwa [succ_position_div hw]), page, ?_⟩
    rw [succ_position_div hw, succ_position_mod hw]
    refine ⟨hread, Nat.succ_pos _, by omega, ?_⟩
    have hitem := hpage.2 (t.idxOf dbPage % w) (by omega)
    rw [hdiv, getElem?_eq_getElem hlt, getElem_idxOf hlt] at hitem
    exact (Option.some.inj hitem).symm

theorem OnDisk.nextFree (hw : 0 < w) (hdisk : OnDisk w file t) :
    NextFree (w + 1) file (position w t.length) := by
  obtain ⟨page, hread, hpage⟩ := hdisk _ (Nat.le_refl _)
  have hcount := hpage.1
  have hdiv := Nat.div_add_mod' t.length w
  have hmod := Nat.mod_lt t.length hw
  refine ⟨hdisk.fullBefore hw (by rw [position_div hw]), page, ?_⟩
  rw [position_div hw, position_mod hw]
  exact ⟨hread, by omega, by omega⟩

end Entry

variable {ι : Type*}

/-- The file holds the items, and each process knows some of them. -/
structure Holds (w : Nat) (s : State ι) (asked : List (Nat × Nat)) (t : List Nat) : Prop where
  items : Items t
  disk : OnDisk w s.file t
  knows : ∀ p, ∃ n ≤ t.length, Knows w (t.take n) (s.manager p)
  actual : ∀ p ∈ s.actual, Actual w t (s.manager p)
  asked : ∀ q ∈ asked, tableOf w t q.1 = some q.2

theorem tableOf_mod {w : Nat} (hw : 0 < w) {t : List Nat} {dbPage diffPage : Nat}
    (h : tableOf w t dbPage = some diffPage) : diffPage % (w + 1) ≠ 0 := by
  unfold tableOf at h
  split_ifs at h
  cases h
  rw [succ_position_mod hw]
  omega

theorem tableOf_append {w : Nat} {t t' : List Nat} {dbPage diffPage : Nat}
    (h : tableOf w t dbPage = some diffPage) : tableOf w (t ++ t') dbPage = some diffPage := by
  unfold tableOf at h ⊢
  split_ifs at h with hmem
  rw [if_pos (mem_append_left _ hmem), idxOf_append_of_mem hmem, h]

section Holds

variable {w k : Nat} {s : State ι} {asked : List (Nat × Nat)} {t : List Nat}

theorem Holds.writeDifference (hw : 0 < w) (h : Holds w s asked t) {p : ι} {dbPage diffPage : Nat}
    (hp : (s.manager p).allocTable dbPage = some diffPage) (page : Page) :
    Holds w { s with file := s.file.write diffPage page } asked t := by
  obtain ⟨n, -, hknows⟩ := h.knows p
  rw [hknows.table] at hp
  exact ⟨h.items, h.disk.write (tableOf_mod hw hp), h.knows, h.actual, h.asked⟩

theorem holds_begin (w : Nat) (buffer : ι → Page) :
    Holds w ⟨DiffFile.write (fun _ => none) 0 emptyBuffer, fun p => ⟨fun _ => none, 0, buffer p⟩, ∅⟩
      [] [] := by
  refine ⟨⟨.nil, fun _ h => absurd h not_mem_nil⟩, ?_, ?_, fun p hp => hp.elim,
    fun _ h => absurd h not_mem_nil⟩
  · intro b hb
    rw [length_nil, Nat.zero_div, Nat.le_zero] at hb
    subst hb
    refine ⟨emptyBuffer, ?_, by simp [emptyBuffer], fun i hi => absurd hi (Nat.not_lt_zero i)⟩
    simp [DiffFile.write]
  · refine fun p => ⟨0, Nat.le_refl _, ?_, ?_⟩
    · funext x
      simp [tableOf]
    · simp [position]

variable [DecidableEq ι]

theorem Holds.allocate (hw : 3 ≤ w) (hpow : w + 1 = 2 ^ k) (hk : k ≤ 32) (h : Holds w s asked t)
    {p : ι} (hp : p ∈ s.actual) {dbPage : Nat} (hdb : dbPage < 2 ^ 31) :
    ∃ diffPage file m t', allocateDifferencePage (w + 1) s.file (s.manager p) dbPage =
        (diffPage, file, m) ∧ diffPage ≠ 0 ∧
      Holds w ⟨file, Function.update s.manager p m,
        if getPageIndex (s.manager p) dbPage ≠ 0 then s.actual else {p}⟩
          ((dbPage, diffPage) :: asked) t' := by
  have hm := h.actual p hp
  by_cases hmem : dbPage ∈ t
  · have hindex := (getPageIndex_ne_zero hm.toKnows).2 hmem
    refine ⟨_, _, _, t, if_pos hindex, hindex, h.items, h.disk, ?_, ?_, ?_⟩
    · simpa using h.knows
    · simpa [hindex] using h.actual
    · exact forall_mem_cons.2 ⟨getPageIndex_eq hm.toKnows hmem, h.asked⟩
  · have hindex := mt (getPageIndex_ne_zero hm.toKnows).1 hmem
    obtain ⟨file, m, heq, hdisk, hm'⟩ :=
      allocateDifferencePage_spec hw hpow hk h.items h.disk hm hmem
    refine ⟨_, _, _, t ++ [dbPage], heq, Nat.succ_ne_zero _, h.items.concat hmem hdb, hdisk, ?_, ?_,
      ?_⟩
    · intro q
      by_cases hq : q = p
      · subst hq
        refine ⟨(t ++ [dbPage]).length, Nat.le_refl _, ?_⟩
        rw [take_length]
        simpa using hm'.toKnows
      · obtain ⟨n, hn, hknows⟩ := h.knows q
        refine ⟨n, by simp; omega, ?_⟩
        simpa [hq, take_append_of_le_length hn] using hknows
    · intro q hq
      rw [if_neg hindex] at hq
      obtain rfl : q = p := hq
      simpa using hm'
    · refine forall_mem_cons.2 ⟨?_, fun q hq => tableOf_append (h.asked q hq)⟩
      rw [tableOf_concat w hmem, Function.update_self]

theorem Holds.actualize (hw : 3 ≤ w) (hpow : w + 1 = 2 ^ k) (hk : k ≤ 32) (h : Holds w s asked t)
    (p : ι) : ∃ m, actualizeAlloc (w + 1) s.file (s.manager p) = some m ∧
      Holds w ⟨s.file, Function.update s.manager p m, insert p s.actual⟩ asked t := by
  obtain ⟨n, hn, hknows⟩ := h.knows p
  obtain ⟨m, heq, hm⟩ := actualizeAlloc_spec hw hpow hk h.items h.disk hn hknows
  refine ⟨m, heq, h.items, h.disk, fun q => ?_, fun q hq => ?_, h.asked⟩
  · by_cases hq : q = p
    · subst hq
      exact ⟨t.length, Nat.le_refl _, by simpa using hm.toKnows⟩
    · simpa [hq] using h.knows q
  · by_cases hqp : q = p
    · subst hqp
      simpa using hm
    · simpa [hqp] using h.actual q (hq.resolve_left hqp)

theorem Reach.holds (hw : 3 ≤ w) (hpow : w + 1 = 2 ^ k) (hk : k ≤ 32)
    (h : Reach (w + 1) s asked) : ∃ t, Holds w s asked t := by
  induction h with
  | beginBackup buffer => exact ⟨[], holds_begin w buffer⟩
  | actualize p _ heq ih =>
    obtain ⟨t, ht⟩ := ih
    obtain ⟨m, heq', ht'⟩ := ht.actualize hw hpow hk p
    cases heq.symm.trans heq'
    exact ⟨t, ht'⟩
  | allocate p dbPage _ hp hdb heq ih =>
    obtain ⟨t, ht⟩ := ih
    obtain ⟨_, _, _, t', heq', -, ht'⟩ := ht.allocate hw hpow hk hp hdb
    cases heq.symm.trans heq'
    exact ⟨t', ht'⟩
  | writeDifference p page _ hp ih =>
    obtain ⟨t, ht⟩ := ih
    exact ⟨t, ht.writeDifference (by omega) hp page⟩

end Holds

variable [DecidableEq ι]

/-- The table in the file is an injective map to pages that are no pointer pages; what has been
returned for a page is its entry for ever; a process that has read the table knows all of it, and
reading and allocating never fail. -/
theorem difference_table {k : Nat} (hk : 2 ≤ k) (hk' : k ≤ 32) {s : State ι}
    {asked : List (Nat × Nat)}
    (h : Reach (2 ^ k) s asked) :
    (∀ dbPage diffPage, Entry (2 ^ k) s.file dbPage diffPage → diffPage % 2 ^ k ≠ 0) ∧
    (∀ dbPage diffPage diffPage', Entry (2 ^ k) s.file dbPage diffPage →
      Entry (2 ^ k) s.file dbPage diffPage' → diffPage = diffPage') ∧
    (∀ dbPage dbPage' diffPage, Entry (2 ^ k) s.file dbPage diffPage →
      Entry (2 ^ k) s.file dbPage' diffPage → dbPage = dbPage') ∧
    (∀ q ∈ asked, Entry (2 ^ k) s.file q.1 q.2) ∧
    (∀ p ∈ s.actual, (∀ dbPage diffPage, (s.manager p).allocTable dbPage = some diffPage ↔
      Entry (2 ^ k) s.file dbPage diffPage) ∧
      NextFree (2 ^ k) s.file (s.manager p).lastAllocatedPage) ∧
    (∀ p, (actualizeAlloc (2 ^ k) s.file (s.manager p)).isSome) ∧
    ∀ p ∈ s.actual, ∀ dbPage < 2 ^ 31,
      (allocateDifferencePage (2 ^ k) s.file (s.manager p) dbPage).1 ≠ 0 := by
  obtain ⟨w, hpow⟩ : ∃ w, w + 1 = 2 ^ k := ⟨2 ^ k - 1, Nat.sub_add_cancel Nat.one_le_two_pow⟩
  have hw : 3 ≤ w := by
    have := Nat.pow_le_pow_right (by decide : 0 < 2) hk
    omega
  rw [← hpow] at h ⊢
  obtain ⟨t, ht⟩ := h.holds hw hpow hk'
  have hentry : ∀ {dbPage diffPage}, Entry (w + 1) s.file dbPage diffPage ↔ _ :=
    ht.disk.entry_iff (by omega) ht.items
  refine ⟨fun dbPage diffPage hq => ?_, fun dbPage diffPage diffPage' hq hq' => ?_,
    fun dbPage dbPage' diffPage hq hq' => ?_, fun q hq => hentry.2 (ht.asked q hq), fun p hp => ?_,
    fun p => ?_, fun p hp dbPage hdb => ?_⟩
  · exact tableOf_mod (by omega) (hentry.1 hq)
  · exact Option.some.inj ((hentry.1 hq).symm.trans (hentry.1 hq'))
  · obtain ⟨-, page, hread, -, -, rfl⟩ := hq
    obtain ⟨-, page', hread', -, -, rfl⟩ := hq'
    cases hread.symm.trans hread'
    rfl
  · refine ⟨fun dbPage diffPage => ?_, ?_⟩
    · rw [hentry, (ht.actual p hp).table]
    · rw [(ht.actual p hp).last]
      exact ht.disk.nextFree (by omega)
  · obtain ⟨m, heq, -⟩ := ht.actualize hw hpow hk' p
    simp [heq]
  · obtain ⟨_, _, _, _, heq, hne, -⟩ := ht.allocate hw hpow hk' hp hdb
    rw [heq]
    exact hne

/-- With three entries on a pointer page, the first process fills page 0; the second one reads the
table then, and its page comes behind the next pointer page. -/
theorem difference_table_page :
    ∃ s : State Bool, Reach (2 ^ 2) s [(20, 5), (19, 3), (18, 2), (17, 1)] ∧
      Entry (2 ^ 2) s.file 18 2 ∧ Entry (2 ^ 2) s.file 20 5 ∧
      ∀ dbPage diffPage, (s.manager false).allocTable dbPage = some diffPage ↔
        Entry (2 ^ 2) s.file dbPage diffPage := by
  have h₀ : Reach (2 ^ 2) _ [] := Reach.beginBackup fun _ : Bool => emptyBuffer
  have h₁ := h₀.actualize true rfl
  have h₂ := h₁.allocate true 17 (.inl rfl) (by decide) rfl
  have h₃ := h₂.allocate true 18 rfl (by decide) rfl
  have h₄ := h₃.allocate true 19 rfl (by decide) rfl
  have h₅ := h₄.actualize false rfl
  have h₆ := h₅.allocate false 20 (.inl rfl) (by decide) rfl
  obtain ⟨-, -, -, hasked, hactual, -⟩ := difference_table (by decide) (by decide) h₆
  exact ⟨_, h₆, hasked (18, 2) (.tail _ (.tail _ (.head _))), hasked (20, 5) (.head _),
    (hactual false rfl).1⟩

end Firebird.Jrd.Nbak
