import Firebird.Jrd.SortOrderSpec
import Firebird.Lib.Survivors

/-!
# Duplicates in the sort buffer

The last pass of `sort`, which eliminates the records that `scb_dup_callback` wants to go, and what
`order_and_save` writes then.
-/
namespace Firebird.Jrd.Sort

open Lib Memory Survivors List Function

variable {scb : SortArea} {n i k slot count uniqueLength : Nat} {s t : SortBuffer}
  {dup : List UInt32 → List UInt32 → Bool}

/-- The pass, for so many pairs of slots from `i` on. `dup` is the answer of the callback to two
records, which are in their natural form while it is asked and mangled again after that
(`Described.mangled_again`). -/
def eliminatePairs (scb : SortArea) (uniqueLength : Nat) (dup : List UInt32 → List UInt32 → Bool) :
    Nat → Nat → SortBuffer → SortBuffer
  | 0, _, s => s
  | count + 1, i, s =>
    eliminatePairs scb uniqueLength dup count (i + 1)
      (if s.first i = s.first (i + 1) ∧
          compareKeys s.memory uniqueLength (s.pointers i) (s.pointers (i + 1)) = .eq ∧
          dup (s.record scb i) (s.record scb (i + 1)) then
        eliminate i s
      else s)

/-- `sort` with `scb_dup_callback`. -/
def sortUnique (scb : SortArea) (uniqueLength : Nat) (dup : List UInt32 → List UInt32 → Bool)
    (s : SortBuffer) : Option SortBuffer := do
  let s ← sort scb s
  some (eliminatePairs scb uniqueLength dup (s.nextPointer - 2) 1 s)

def duplicates (uniqueLength : Nat) (dup : List UInt32 → List UInt32 → Bool)
    (a b : List UInt32) : Bool :=
  decide (a.take uniqueLength = b.take uniqueLength) && dup a b

theorem compareKeys_eq_iff {m : Nat → UInt32} {p q tl : Nat} :
    compareKeys m tl p q = .eq ↔ load m p tl = load m q tl := by
  induction tl generalizing p q with
  | zero => exact ⟨fun _ => rfl, fun _ => rfl⟩
  | succ tl ih =>
    rw [compareKeys, load, load, List.cons.injEq]
    split_ifs with heq hlt
    · rw [ih, and_iff_right heq]
    · simp [heq]
    · simp [heq]

theorem take_load {m : Nat → UInt32} {p length : Nat} (hle : length ≤ k) :
    (load m p k).take length = load m p length := by
  obtain ⟨more, rfl⟩ := Nat.exists_eq_add_of_le hle
  rw [load_add]
  exact take_left' length_load

theorem duplicates_iff (hu : 1 ≤ uniqueLength ∧ uniqueLength ≤ scb.longs - sizeofSrBckptrInLongs) :
    (s.first i = s.first k ∧
      compareKeys s.memory uniqueLength (s.pointers i) (s.pointers k) = .eq ∧
        dup (s.record scb i) (s.record scb k)) ↔
      duplicates uniqueLength dup (s.record scb i) (s.record scb k) := by
  rw [duplicates, SortBuffer.record, SortBuffer.record, take_load hu.2, take_load hu.2,
    Bool.and_eq_true, decide_eq_true_iff, compareKeys_eq_iff, and_iff_right_of_imp]
  intro h
  obtain ⟨length, hlength⟩ := Nat.exists_eq_add_of_le' hu.1
  rw [hlength, load, load] at h
  exact (List.cons.inj h.1).1

/-- The pass has gone over so many slots from `i` on. -/
structure Passed (scb : SortArea) (n : Nat) (same : List UInt32 → List UInt32 → Bool)
    (count i : Nat) (s t : SortBuffer) : Prop where
  consistent : Consistent scb n t
  before : ∀ k, 1 ≤ k → k < i → t.pointers k = s.pointers k ∧
    (s.pointers k ≠ 0 → t.record scb k = s.record scb k)
  copied : copyRecords scb t count i =
    (survivors same ((range' i count).map (s.record scb))).flatten
  counted : runRecords t count i = (survivors same ((range' i count).map (s.record scb))).length

theorem eliminatePairs_passed (hspace : scb.Addressed) (hfits : scb.Fits n)
    (hu : 1 ≤ uniqueLength ∧ uniqueLength ≤ scb.longs - sizeofSrBckptrInLongs) (hi : 1 ≤ i)
    (hn : i + count = n + 1) (h : Consistent scb n s)
    (hne : ∀ k, i ≤ k → k ≤ n → s.pointers k ≠ 0) :
    Passed scb n (duplicates uniqueLength dup) count i s
      (eliminatePairs scb uniqueLength dup (count - 1) i s) := by
  induction count generalizing i s with
  | zero => exact ⟨h, fun k _ _ => ⟨rfl, fun _ => rfl⟩, rfl, rfl⟩
  | succ count ih =>
    have hnei := hne i le_rfl (by omega)
    cases count with
    | zero =>
      refine ⟨h, fun k _ _ => ⟨rfl, fun _ => rfl⟩, ?_, ?_⟩
      · simp [eliminatePairs, copyRecords, hnei, survivors]
      · simp [eliminatePairs, runRecords, hnei, survivors]
    | succ count =>
      rw [Nat.add_sub_cancel] at ih ⊢
      rw [eliminatePairs]
      have hrange : (range' i (count + 1 + 1)).map (s.record scb) = s.record scb i ::
          s.record scb (i + 1) :: (range' (i + 1 + 1) count).map (s.record scb) := rfl
      split_ifs with hsame
      · rw [duplicates_iff hu] at hsame
        obtain ⟨hc, hrecords⟩ := h.eliminated hspace hfits hi (by omega) hnei
        have hp := ih (i := i + 1) (by omega) (by omega) hc fun k hk hkn => by
          rw [eliminate_pointers (by omega)]
          exact hne k (by omega) hkn
        have hmap : (range' (i + 1) (count + 1)).map ((eliminate i s).record scb) =
            (range' (i + 1) (count + 1)).map (s.record scb) := by
          refine map_congr_left fun k hk => ?_
          rw [mem_range'_1] at hk
          exact hrecords k (by omega) (by omega) (by omega) (hne k (by omega) (by omega))
        have hnull := (hp.before i hi (Nat.lt_succ_self i)).1.trans (update_self _ _ _)
        have hcopied := hp.copied
        have hcounted := hp.counted
        rw [hmap] at hcopied hcounted
        refine ⟨hp.consistent, fun k hk hki => ?_, ?_, ?_⟩
        · obtain ⟨hpk, hrk⟩ := hp.before k hk (by omega)
          rw [eliminate_pointers (by omega)] at hpk hrk
          exact ⟨hpk, fun hk0 => (hrk hk0).trans (hrecords k hk (by omega) (by omega) hk0)⟩
        · rw [copyRecords, if_pos hnull, hrange, survivors, if_pos hsame]
          exact hcopied
        · rw [runRecords, if_pos hnull, hrange, survivors, if_pos hsame]
          exact hcounted
      · rw [duplicates_iff hu] at hsame
        have hp := ih (i := i + 1) (by omega) (by omega) h fun k hk => hne k (by omega)
        obtain ⟨hpi, hri⟩ := hp.before i hi (Nat.lt_succ_self i)
        refine ⟨hp.consistent, fun k hk hki => hp.before k hk (by omega), ?_, ?_⟩
        · rw [copyRecords, if_neg (by rwa [hpi]), hri hnei, hrange, survivors, if_neg hsame,
            flatten_cons]
          exact congrArg _ hp.copied
        · rw [runRecords, if_neg (by rwa [hpi]), hrange, survivors, if_neg hsame, length_cons]
          exact congrArg (· + 1) hp.counted

/-- `order_and_save` writes the records, whichever of its two ways it takes. -/
def Saves (scb : SortArea) (s : SortBuffer) (n : Nat) (records : List (List UInt32)) : Prop :=
  copyRecords scb s n 1 = records.flatten ∧ runRecords s n 1 = records.length ∧
    ∃ t, order scb s = some (t, records.length) ∧
      load t.memory s.lastRecord (records.length * (scb.longs - sizeofSrBckptrInLongs)) =
        records.flatten

theorem Consistent.saves {records : List (List UInt32)} (h : Consistent scb n s)
    (hspace : scb.Addressed) (hfits : scb.Fits n)
    (hcopied : copyRecords scb s n 1 = records.flatten)
    (hcounted : runRecords s n 1 = records.length) : Saves scb s n records := by
  have hstart : Written scb n [] 0 ⟨s, place scb n 0, place scb n 0⟩ := ⟨rfl, rfl, le_rfl, rfl⟩
  obtain ⟨o, a, hloop, hw⟩ :=
    orderLoop_spec hspace hfits (Nat.add_comm 1 n) hstart h.pending
  have hlen := length_copyRecords scb s n 1
  rw [hcounted, hcopied] at hlen
  rw [nil_append, hcopied] at hw
  refine ⟨hcopied, hcounted, o.buffer, ?_, ?_⟩
  · have hpos := Nat.sub_pos_of_lt hfits.longs
    simp [order, h.next, hloop, hw.output, h.last, hlen, Nat.mul_div_cancel _ hpos]
  · rw [← hlen, h.last]
    exact hw.done

theorem sortUnique_spec {records : List (List UInt32)} {b : SortBuffer} (hspace : scb.Addressed)
    (hfits : scb.Fits records.length) (hguard : b.memory scb.highKey = 0xFFFFFFFF)
    (hlen : ∀ record ∈ records, record.length = scb.longs - sizeofSrBckptrInLongs)
    (hu : 1 ≤ uniqueLength ∧ uniqueLength ≤ scb.longs - sizeofSrBckptrInLongs) :
    ∃ s sorted, sortUnique scb uniqueLength dup (fill scb b records) = some s ∧
      sorted.Perm records ∧
      (∀ length ≤ scb.longs - sizeofSrBckptrInLongs, sorted.Pairwise fun r r' =>
        (r.take length).map UInt32.toNat ≤ (r'.take length).map UInt32.toNat) ∧
      Saves scb s records.length (survivors (duplicates uniqueLength dup) sorted) := by
  obtain ⟨hfilled, hload⟩ := fill_filled hfits le_rfl hguard hlen
  obtain ⟨s, hsort, hmoved, hrank⟩ := sort_spec hfits hfilled
  have hnext := hmoved.next.trans hfilled.next
  have hc : Consistent scb records.length s := by
    refine hmoved.laid.consistent hfits hnext ?_
    rw [hmoved.last, hfilled.last, place, Nat.zero_mul, Nat.add_zero]
  have hp := @eliminatePairs_passed _ _ 1 _ uniqueLength s dup hspace hfits hu le_rfl
    (Nat.add_comm 1 _) hc fun k hk hkn hnull => by
      obtain ⟨j, -, hold⟩ := hmoved.laid.exists_keyAddress hk hkn
      simp [hold.2, SortArea.keyAddress, sizeofSrBckptrInLongs] at hnull
  refine ⟨_, (range' 1 records.length).map (s.record scb), ?_, ?_, ?_, hp.consistent.saves hspace
    hfits hp.copied hp.counted⟩
  · rw [sortUnique, hsort, Option.bind_eq_bind, Option.bind_some, hnext]
    rfl
  · have hplaces := hmoved.laid.perm.map fun p =>
      load s.memory p (scb.longs - sizeofSrBckptrInLongs)
    rw [map_map, map_map] at hplaces
    refine hplaces.trans (Perm.of_eq (ext_getElem (by simp) fun k hk hk' => ?_))
    rw [getElem_map, getElem_range', Nat.one_mul, Nat.add_comm, ← hload k hk']
    exact hmoved.records (k + 1) (Nat.succ_pos k) hk'
  · intro length hle
    refine pairwise_map.2 ((pairwise_lt_range' 1 (Nat.zero_lt_one)).imp_of_mem
      fun {i j} hi hj hij => ?_)
    rw [mem_range'_1] at hi hj
    rw [SortBuffer.record, SortBuffer.record, take_load hle, take_load hle]
    exact longwords_le_of_le hle (hrank i j hi.1 hij (by omega))

/-- Whatever records are put into the buffer, those written are the ones put, in the order of their
keys, less the ones that the callback wants to go as duplicates of the next one. -/
theorem sorted_run (records : List (List UInt32)) (b : SortBuffer) (uniqueLength : Nat)
    (dup : List UInt32 → List UInt32 → Bool) (hspace : scb.Addressed)
    (hfits : scb.Fits records.length) (hguard : b.memory scb.highKey = 0xFFFFFFFF)
    (hlen : ∀ record ∈ records, record.length = scb.longs - sizeofSrBckptrInLongs)
    (hu : 1 ≤ uniqueLength ∧ uniqueLength ≤ scb.longs - sizeofSrBckptrInLongs) :
    ∃ s sorted, sortUnique scb uniqueLength dup (fill scb b records) = some s ∧
      sorted.Perm records ∧
      (sorted.Pairwise fun r r' => r.map UInt32.toNat ≤ r'.map UInt32.toNat) ∧
      Saves scb s records.length (survivors (duplicates uniqueLength dup) sorted) := by
  obtain ⟨s, sorted, hsort, hperm, hpairwise, hsaves⟩ :=
    @sortUnique_spec _ _ dup _ _ hspace hfits hguard hlen hu
  refine ⟨s, sorted, hsort, hperm, ?_, hsaves⟩
  refine (hpairwise _ le_rfl).imp_of_mem fun {r r'} hr hr' hle => ?_
  rwa [take_of_length_le (hlen r (hperm.subset hr)).le,
    take_of_length_le (hlen r' (hperm.subset hr')).le] at hle

theorem sorted_run_three :
    ∃ s sorted, sortUnique smallArea 1 (fun _ b => b = [3, 1])
        (fill smallArea ⟨fun _ => 0, fun _ => 0xFFFFFFFF, 0, 0⟩ [[3, 1], [1, 5], [3, 0]]) =
          some s ∧
      sorted.Perm [[3, 1], [1, 5], [3, 0]] ∧
      (sorted.Pairwise fun r r' => r.map UInt32.toNat ≤ r'.map UInt32.toNat) ∧
      Saves smallArea s 3 (survivors (duplicates 1 fun _ b => b = [3, 1]) sorted) :=
  sorted_run _ _ _ _ ⟨by decide, by decide⟩ ⟨by decide, by decide, by decide, by decide⟩ rfl
    (by decide) (by decide)

/-- If all duplicates go, one record of each key is written, and the keys increase. -/
theorem distinct_run (records : List (List UInt32)) (b : SortBuffer) (uniqueLength : Nat)
    (hspace : scb.Addressed) (hfits : scb.Fits records.length)
    (hguard : b.memory scb.highKey = 0xFFFFFFFF)
    (hlen : ∀ record ∈ records, record.length = scb.longs - sizeofSrBckptrInLongs)
    (hu : 1 ≤ uniqueLength ∧ uniqueLength ≤ scb.longs - sizeofSrBckptrInLongs) :
    ∃ s kept, sortUnique scb uniqueLength (fun _ _ => true) (fill scb b records) = some s ∧
      kept <+~ records ∧ (∀ r ∈ records, ∃ r' ∈ kept, r'.take uniqueLength = r.take uniqueLength) ∧
      (kept.Pairwise fun r r' =>
        (r.take uniqueLength).map UInt32.toNat < (r'.take uniqueLength).map UInt32.toNat) ∧
      Saves scb s records.length kept := by
  obtain ⟨s, sorted, hsort, hperm, hpairwise, hsaves⟩ :=
    @sortUnique_spec _ _ (fun _ _ => true) _ _ hspace hfits hguard hlen hu
  have hsame : ∀ a b, duplicates uniqueLength (fun _ _ => true) a b ↔
      a.take uniqueLength = b.take uniqueLength := fun a b => by simp [duplicates]
  refine ⟨s, _, hsort, (survivors_sublist _ _).subperm.trans hperm.subperm, ?_, ?_, hsaves⟩
  · exact fun r hr => exists_survivor (fun a b => (hsame a b).1) (hperm.mem_iff.2 hr)
  · refine survivors_pairwise (fun a b h => (hsame a b).2 ?_) (hpairwise _ hu.2)
    exact map_injective_iff.2 (fun _ _ => UInt32.toNat_inj.1) h

theorem distinct_run_three :
    ∃ s kept, sortUnique smallArea 1 (fun _ _ => true)
        (fill smallArea ⟨fun _ => 0, fun _ => 0xFFFFFFFF, 0, 0⟩ [[3, 1], [1, 5], [3, 0]]) =
          some s ∧
      kept <+~ [[3, 1], [1, 5], [3, 0]] ∧
      (∀ r ∈ [[3, 1], [1, 5], [3, 0]], ∃ r' ∈ kept, r'.take 1 = r.take 1) ∧
      (kept.Pairwise fun r r' =>
        (r.take 1).map UInt32.toNat < (r'.take 1).map UInt32.toNat) ∧
      Saves smallArea s 3 kept :=
  distinct_run _ _ _ ⟨by decide, by decide⟩ ⟨by decide, by decide, by decide, by decide⟩ rfl
    (by decide) (by decide)

end Firebird.Jrd.Sort
